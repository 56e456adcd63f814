import Lox.Proofs.Token.Alone
import Lox.Proofs.Tree.Flatten
import Lox.Tree.Printing

/-!
# Forms

The prefix form of an expression is a tree of words: a word by itself, or a list with a head word
and entries.  Words have no space and no parenthesis in them, so the text of a form determines the
form (`Form.chars_injective`).
-/

namespace Lox

/-- A word, or a parenthesized list of a word and forms. -/
inductive Form where
  | word (text : String)
  | list (head : String) (entries : List Form)

namespace Form

open Segment (IsSolid)

mutual

/-- The text of a form. -/
def chars : Form → List Char
  | word text => text.toList
  | list head entries => '(' :: (head.toList ++ (charsAll entries ++ [')']))

/-- The texts of entries, each after a space. -/
def charsAll : List Form → List Char
  | [] => []
  | f :: rest => ' ' :: (f.chars ++ charsAll rest)

end

/-- Some characters, all of them solid. -/
def IsWord (text : String) : Prop :=
  text.toList ≠ [] ∧ ∀ c ∈ text.toList, IsSolid c

instance : DecidablePred IsWord := fun text ↦
  -- The characters of the text are checked, not all characters there are.
  have := List.decidableBAll IsSolid text.toList
  instDecidableAnd

mutual

/-- A form whose texts are words. -/
def Sound : Form → Prop
  | word text => IsWord text
  | list head entries => IsWord head ∧ SoundAll entries

def SoundAll : List Form → Prop
  | [] => True
  | f :: rest => f.Sound ∧ SoundAll rest

end

/-- Where a word ends: at the end, or in front of a character that is not solid. -/
def Stops : List Char → Prop
  | [] => True
  | c :: _ => ¬IsSolid c

theorem stops_charsAll (entries : List Form) (rest : List Char) :
    Stops (charsAll entries ++ ')' :: rest) := by
  cases entries with
  | nil => exact fun h ↦ h.2.2 rfl
  | cons f rest => exact fun h ↦ h.1 rfl

/-- A word is separated from what follows. -/
theorem append_injective {text text' rest rest' : List Char} (htext : ∀ c ∈ text, IsSolid c)
    (htext' : ∀ c ∈ text', IsSolid c) (hrest : Stops rest) (hrest' : Stops rest')
    (h : text ++ rest = text' ++ rest') : text = text' ∧ rest = rest' := by
  induction text generalizing text' with
  | nil =>
    cases text' with
    | nil => exact ⟨rfl, h⟩
    | cons d text' =>
      obtain rfl : rest = d :: (text' ++ rest') := h
      exact absurd (htext' d List.mem_cons_self) hrest
  | cons c text ih =>
    cases text' with
    | nil =>
      obtain rfl : c :: (text ++ rest) = rest' := h
      exact absurd (htext c List.mem_cons_self) hrest'
    | cons d text' =>
      obtain ⟨rfl, h'⟩ := List.cons.inj h
      obtain ⟨-, hrest⟩ := List.forall_mem_cons.1 htext
      obtain ⟨-, hrest'⟩ := List.forall_mem_cons.1 htext'
      obtain ⟨rfl, hsame⟩ := ih hrest hrest' h'
      exact ⟨rfl, hsame⟩

theorem IsWord.append_ne {text : String} (h : IsWord text) (rest more : List Char) :
    text.toList ++ rest ≠ '(' :: more := by
  obtain ⟨hne, hsolid⟩ := h
  obtain ⟨c, body, hcons⟩ := List.exists_cons_of_ne_nil hne
  rw [hcons] at hsolid ⊢
  intro heq
  exact (hsolid c List.mem_cons_self).2.1 (List.cons.inj heq).1

mutual

/-- The text of a form determines the form and where its text ends. -/
theorem chars_append_injective (f f' : Form) {rest rest' : List Char} (hf : f.Sound)
    (hf' : f'.Sound) (hrest : Stops rest) (hrest' : Stops rest')
    (h : f.chars ++ rest = f'.chars ++ rest') : f = f' ∧ rest = rest' := by
  match f, f' with
  | .word text, .word text' =>
    obtain ⟨htext, hsame⟩ := append_injective hf.2 hf'.2 hrest hrest' h
    exact ⟨congrArg word (String.toList_injective htext), hsame⟩
  | .word text, .list head entries => exact absurd h (IsWord.append_ne hf _ _)
  | .list head entries, .word text => exact absurd h.symm (IsWord.append_ne hf' _ _)
  | .list head entries, .list head' entries' =>
    have hinside := (List.cons.inj h).2
    simp only [List.append_eq, List.append_assoc, List.singleton_append] at hinside
    obtain ⟨hhead, hentries⟩ := append_injective hf.1.2 hf'.1.2 (stops_charsAll entries rest)
      (stops_charsAll entries' rest') hinside
    obtain ⟨rfl, hsame⟩ := charsAll_append_injective entries entries' hf.2 hf'.2 hentries
    exact ⟨congrArg (list · entries) (String.toList_injective hhead), hsame⟩

/-- So do the texts of entries in front of a closing parenthesis. -/
theorem charsAll_append_injective (fs fs' : List Form) {rest rest' : List Char}
    (hfs : SoundAll fs) (hfs' : SoundAll fs')
    (h : charsAll fs ++ ')' :: rest = charsAll fs' ++ ')' :: rest') :
    fs = fs' ∧ rest = rest' := by
  match fs, fs' with
  | [], [] => exact ⟨rfl, (List.cons.inj h).2⟩
  | [], f' :: fs' => exact absurd (List.cons.inj h).1 (by decide)
  | f :: fs, [] => exact absurd (List.cons.inj h).1 (by decide)
  | f :: fs, f' :: fs' =>
    have hentry := (List.cons.inj h).2
    rw [List.append_eq, List.append_eq, List.append_assoc, List.append_assoc] at hentry
    obtain ⟨rfl, hentries⟩ := chars_append_injective f f' hfs.1 hfs'.1 (stops_charsAll fs rest)
      (stops_charsAll fs' rest') hentry
    obtain ⟨rfl, hsame⟩ := charsAll_append_injective fs fs' hfs.2 hfs'.2 hentries
    exact ⟨rfl, hsame⟩

end

theorem chars_injective {f f' : Form} (hf : f.Sound) (hf' : f'.Sound) (h : f.chars = f'.chars) :
    f = f' := by
  have hstops : Stops [] := trivial
  have hnil : f.chars ++ [] = f'.chars ++ [] := by rw [h]
  exact (chars_append_injective f f' hf hf' hstops hstops hnil).1

end Form

mutual

/-- The prefix form of an expression, before it is written down. -/
def Expr.form : Expr → Form
  | literal value => .word value.print
  | grouping inner => .list "group" [inner.form]
  | unary op operand => .list op.lexeme [operand.form]
  | binary op left right => .list op.lexeme [left.form, right.form]
  | logical op left right => .list op.lexeme [left.form, right.form]
  | var _ name => .word name.lexeme
  | assign _ name value => .list "=" [.word name.lexeme, value.form]
  | call callee _ arguments => .list "call" (callee.form :: Expr.formAll arguments)
  | get object name => .list "." [object.form, .word name.lexeme]
  | set object name value => .list ".=" [object.form, .word name.lexeme, value.form]
  | this _ _ => .word "this"
  | super _ _ method => .list "super" [.word method.lexeme]

def Expr.formAll : List Expr → List Form
  | [] => []
  | e :: rest => e.form :: Expr.formAll rest

end

mutual

theorem Expr.toList_print (e : Expr) : e.print.toList = e.form.chars := by
  match e with
  | .literal value => rfl
  | .grouping inner =>
    simp [print, form, Form.chars, Form.charsAll, toList_print inner]
  | .unary op operand =>
    simp [print, form, Form.chars, Form.charsAll, toList_print operand]
  | .binary op left right =>
    simp [print, form, Form.chars, Form.charsAll, toList_print left, toList_print right]
  | .logical op left right =>
    simp [print, form, Form.chars, Form.charsAll, toList_print left, toList_print right]
  | .var _ name => rfl
  | .assign _ name value =>
    simp [print, form, Form.chars, Form.charsAll, toList_print value]
  | .call callee _ arguments =>
    simp [print, form, Form.chars, Form.charsAll, toList_print callee, toList_printAll arguments]
  | .get object name =>
    simp [print, form, Form.chars, Form.charsAll, toList_print object]
  | .set object name value =>
    simp [print, form, Form.chars, Form.charsAll, toList_print object, toList_print value]
  | .this _ _ => rfl
  | .super _ _ method =>
    simp [print, form, Form.chars, Form.charsAll]

theorem Expr.toList_printAll (es : List Expr) :
    (Expr.printAll es).toList = Form.charsAll (Expr.formAll es) := by
  match es with
  | [] => rfl
  | e :: rest =>
    simp [printAll, formAll, Form.charsAll, toList_print e, toList_printAll rest]

end

/-! ### Reading forms -/

/-- A token at no place in particular. -/
def Token.bare (t : Token) : Token :=
  ⟨t.kind, t.lexeme, 1, 1⟩

mutual

/-- An expression with nothing in it that is not printed: no identifiers, no places and no closing
parentheses. -/
def Expr.bare : Expr → Expr
  | literal value => .literal value
  | grouping inner => .grouping inner.bare
  | unary op operand => .unary op.bare operand.bare
  | binary op left right => .binary op.bare left.bare right.bare
  | logical op left right => .logical op.bare left.bare right.bare
  | var _ name => .var 0 name.bare
  | assign _ name value => .assign 0 name.bare value.bare
  | call callee _ arguments => .call callee.bare (.ofKind .rightParen) (Expr.bareAll arguments)
  | get object name => .get object.bare name.bare
  | set object name value => .set object.bare name.bare value.bare
  | this _ keyword => .this 0 keyword.bare
  | super _ keyword method => .super 0 keyword.bare method.bare

def Expr.bareAll : List Expr → List Expr
  | [] => []
  | e :: rest => e.bare :: Expr.bareAll rest

end

/-- The token that a text is scanned as. -/
def Token.ofText (text : String) : Token :=
  ⟨.ofText text, text, 1, 1⟩

theorem Token.ofText_lexeme {t : Token} (h : t.kind.Scans t.lexeme) :
    Token.ofText t.lexeme = t.bare := by
  rw [ofText, h.ofText_eq, bare]

namespace Form

/-- The expression that a word stands for. -/
def readWord (text : String) : Expr :=
  match Kind.ofText text with
  | .nilWord => .literal .nil
  | .trueWord => .literal (.bool true)
  | .falseWord => .literal (.bool false)
  | .number value => .literal (.number value)
  | .thisWord => .this 0 (.ofText text)
  | _ => .var 0 (.ofText text)

/-- The expression that a list stands for, given the expressions that its entries stand for.  The
heads `group` and `call` are scanned as identifiers and `.=` is no token at all. -/
def build (head : String) (entries : List Expr) : Expr :=
  match Kind.ofText head, entries with
  | .identifier, first :: rest =>
    if head = "group" then .grouping first else .call first (.ofKind .rightParen) rest
  | .superWord, [.var _ method] => .super 0 (.ofText head) method
  | .equal, [.var _ name, value] => .assign 0 name value
  | .dot, [object, .var _ name] => .get object name
  | .endOfInput, [object, .var _ name, value] => .set object name value
  | .orWord, [left, right] => .logical (.ofText head) left right
  | .andWord, [left, right] => .logical (.ofText head) left right
  | _, [operand] => .unary (.ofText head) operand
  | _, [left, right] => .binary (.ofText head) left right
  | _, _ => .literal .nil

mutual

/-- The expression that a form stands for. -/
def read : Form → Expr
  | word text => readWord text
  | list head entries => build head (readAll entries)

def readAll : List Form → List Expr
  | [] => []
  | f :: rest => f.read :: readAll rest

end

end Form

mutual

/-- The tokens that an expression keeps. -/
def Expr.tokens : Expr → List Token
  | literal _ => []
  | grouping inner => inner.tokens
  | unary op operand => op :: operand.tokens
  | binary op left right => op :: (left.tokens ++ right.tokens)
  | logical op left right => op :: (left.tokens ++ right.tokens)
  | var _ name => [name]
  | assign _ name value => name :: value.tokens
  | call callee paren arguments => paren :: (callee.tokens ++ Expr.tokensAll arguments)
  | get object name => name :: object.tokens
  | set object name value => name :: (object.tokens ++ value.tokens)
  | this _ keyword => [keyword]
  | super _ keyword method => [keyword, method]

def Expr.tokensAll : List Expr → List Token
  | [] => []
  | e :: rest => e.tokens ++ Expr.tokensAll rest

end

mutual

/-- The literals in an expression. -/
def Expr.literals : Expr → List Literal
  | literal value => [value]
  | grouping inner => inner.literals
  | unary _ operand => operand.literals
  | binary _ left right => left.literals ++ right.literals
  | logical _ left right => left.literals ++ right.literals
  | var _ _ => []
  | assign _ _ value => value.literals
  | call callee _ arguments => callee.literals ++ Expr.literalsAll arguments
  | get object _ => object.literals
  | set object _ value => object.literals ++ value.literals
  | this _ _ => []
  | super _ _ _ => []

def Expr.literalsAll : List Expr → List Literal
  | [] => []
  | e :: rest => e.literals ++ Expr.literalsAll rest

end

/-- Tokens whose texts are scanned as what they are. -/
def Token.Legible (t : Token) : Prop :=
  t.kind.Scans t.lexeme

theorem Token.Legible.bare_of_keyword {t : Token} (ht : t.Legible) (word : String)
    (hmem : (word, t.kind) ∈ Kind.keywords) : t.bare = .ofText word := by
  rw [← ofText_lexeme ht, (Kind.Scans.spells ht).2 word hmem]

/-- A literal whose text is scanned as this literal, and not as the inside of a string. -/
def Literal.Legible (value : Literal) : Prop :=
  value.kind.Scans value.print ∧ ∀ text, value ≠ .string text

namespace Form

variable {op name : Token}

theorem readWord_of_identifier (hkind : name.kind = .identifier) (hname : name.Legible) :
    readWord name.lexeme = .var 0 name.bare := by
  rw [readWord, Token.ofText_lexeme hname, hname.ofText_eq, hkind]

theorem readWord_print {value : Literal} (h : value.Legible) :
    readWord value.print = .literal value := by
  obtain ⟨hscans, hstring⟩ := h
  rw [readWord, hscans.ofText_eq]
  match value with
  | .nil | .bool true | .bool false | .number value => rfl
  | .string text => exact absurd rfl (hstring text)

theorem build_unary (hop : op.Legible) (hkind : op.kind = .bang ∨ op.kind = .minus)
    (operand : Expr) : build op.lexeme [operand] = .unary op.bare operand := by
  unfold build
  rw [Token.ofText_lexeme hop, hop.ofText_eq]
  obtain hkind | hkind := hkind <;> rw [hkind]

theorem build_logical (hop : op.Legible) (hkind : op.kind = .orWord ∨ op.kind = .andWord)
    (left right : Expr) : build op.lexeme [left, right] = .logical op.bare left right := by
  unfold build
  rw [Token.ofText_lexeme hop, hop.ofText_eq]
  obtain hkind | hkind := hkind <;> rw [hkind]

theorem build_binary (hop : op.Legible) (hkind : 3 ≤ op.kind.precedence) (left right : Expr) :
    build op.lexeme [left, right] = .binary op.bare left right := by
  unfold build
  rw [Token.ofText_lexeme hop, hop.ofText_eq]
  cases hkind' : op.kind <;> first | rfl | exact absurd (hkind' ▸ hkind) (by decide)

end Form

/-! ### The words of a form -/

theorem Token.Legible.isWord {t : Token} (ht : t.Legible) (hleft : t.kind ≠ .leftParen)
    (hright : t.kind ≠ .rightParen) (hstring : ∀ content, t.kind ≠ .string content) :
    Form.IsWord t.lexeme :=
  Kind.Scans.solid ht hleft hright hstring

theorem Token.Legible.isWord_of_identifier {t : Token} (ht : t.Legible)
    (hkind : t.kind = .identifier) : Form.IsWord t.lexeme := by
  apply ht.isWord <;> rw [hkind] <;> exact nofun

theorem Token.Legible.isWord_of_operator {t : Token} (ht : t.Legible)
    (hkind : 1 ≤ t.kind.precedence) : Form.IsWord t.lexeme := by
  apply ht.isWord
  · intro h
    exact absurd (h ▸ hkind) (by decide)
  · intro h
    exact absurd (h ▸ hkind) (by decide)
  · intro content h
    rw [h] at hkind
    exact absurd hkind (Nat.not_succ_le_zero 0)

theorem Token.Legible.isWord_of_sign {t : Token} (ht : t.Legible)
    (hkind : t.kind = .bang ∨ t.kind = .minus) : Form.IsWord t.lexeme := by
  obtain hkind | hkind := hkind <;> apply ht.isWord <;> rw [hkind] <;> exact nofun

theorem Literal.Legible.isWord {value : Literal} (h : value.Legible) :
    Form.IsWord value.print := by
  obtain ⟨hscans, hstring⟩ := h
  cases value with
  | string text => exact absurd rfl (hstring text)
  | bool b => cases b <;> exact hscans.solid nofun nofun nofun
  | _ => exact hscans.solid nofun nofun nofun

mutual

/-- The form of a legible expression is made of words and is read back, by induction on the
expression. -/
theorem Expr.form_spec (e : Expr) (h : e.Respects) (htokens : ∀ t ∈ e.tokens, t.Legible)
    (hliterals : ∀ l ∈ e.literals, l.Legible) : e.form.Sound ∧ e.form.read = e.bare := by
  match e with
  | .literal value =>
    have hvalue := hliterals value List.mem_cons_self
    exact ⟨hvalue.isWord, Form.readWord_print hvalue⟩
  | .grouping inner =>
    obtain ⟨hsound, hread⟩ := form_spec inner h htokens hliterals
    refine ⟨⟨by decide, hsound, trivial⟩, ?_⟩
    rw [form, bare, Form.read, Form.readAll, Form.readAll, hread]
    rfl
  | .unary op operand =>
    rw [Respects] at h
    rw [Expr.tokens, List.forall_mem_cons] at htokens
    obtain ⟨hsound, hread⟩ := form_spec operand h.2.2 htokens.2 hliterals
    refine ⟨⟨htokens.1.isWord_of_sign h.1, hsound, trivial⟩, ?_⟩
    rw [form, bare, Form.read, Form.readAll, Form.readAll, hread]
    exact Form.build_unary htokens.1 h.1 _
  | .binary op left right =>
    rw [Respects] at h
    obtain ⟨hop, -, -, hleft, hright⟩ := h
    simp only [Expr.tokens, Expr.literals, List.forall_mem_cons, List.forall_mem_append]
      at htokens hliterals
    obtain ⟨hlsound, hlread⟩ := form_spec left hleft htokens.2.1 hliterals.1
    obtain ⟨hrsound, hrread⟩ := form_spec right hright htokens.2.2 hliterals.2
    refine ⟨⟨htokens.1.isWord_of_operator (by omega), hlsound, hrsound, trivial⟩, ?_⟩
    rw [form, bare, Form.read, Form.readAll, Form.readAll, Form.readAll, hlread, hrread]
    exact Form.build_binary htokens.1 hop _ _
  | .logical op left right =>
    rw [Respects] at h
    obtain ⟨hop, -, -, hleft, hright⟩ := h
    simp only [Expr.tokens, Expr.literals, List.forall_mem_cons, List.forall_mem_append]
      at htokens hliterals
    obtain ⟨hlsound, hlread⟩ := form_spec left hleft htokens.2.1 hliterals.1
    obtain ⟨hrsound, hrread⟩ := form_spec right hright htokens.2.2 hliterals.2
    have hkind : 1 ≤ op.kind.precedence := by
      obtain hop | hop := hop <;> rw [hop] <;> decide
    refine ⟨⟨htokens.1.isWord_of_operator hkind, hlsound, hrsound, trivial⟩, ?_⟩
    rw [form, bare, Form.read, Form.readAll, Form.readAll, Form.readAll, hlread, hrread]
    exact Form.build_logical htokens.1 hop _ _
  | .var id name =>
    have hname := htokens name List.mem_cons_self
    exact ⟨hname.isWord_of_identifier h, Form.readWord_of_identifier h hname⟩
  | .assign id name value =>
    rw [Respects] at h
    rw [Expr.tokens, List.forall_mem_cons] at htokens
    obtain ⟨hsound, hread⟩ := form_spec value h.2 htokens.2 hliterals
    refine ⟨⟨by decide, htokens.1.isWord_of_identifier h.1, hsound, trivial⟩, ?_⟩
    rw [form, bare, Form.read, Form.readAll, Form.readAll, Form.readAll, Form.read,
      Form.readWord_of_identifier h.1 htokens.1, hread]
    rfl
  | .call callee paren arguments =>
    rw [Respects] at h
    obtain ⟨-, -, hcallee, -, harguments⟩ := h
    simp only [Expr.tokens, Expr.literals, List.forall_mem_cons, List.forall_mem_append]
      at htokens hliterals
    obtain ⟨hsound, hread⟩ := form_spec callee hcallee htokens.2.1 hliterals.1
    obtain ⟨hall, hreadAll⟩ := formAll_spec arguments harguments htokens.2.2 hliterals.2
    refine ⟨⟨by decide, hsound, hall⟩, ?_⟩
    rw [form, bare, Form.read, Form.readAll, hread, hreadAll]
    rfl
  | .get object name =>
    rw [Respects] at h
    rw [Expr.tokens, List.forall_mem_cons] at htokens
    obtain ⟨hsound, hread⟩ := form_spec object h.2.2 htokens.2 hliterals
    refine ⟨⟨by decide, hsound, htokens.1.isWord_of_identifier h.1, trivial⟩, ?_⟩
    rw [form, bare, Form.read, Form.readAll, Form.readAll, Form.readAll, Form.read,
      Form.readWord_of_identifier h.1 htokens.1, hread]
    rfl
  | .set object name value =>
    rw [Respects] at h
    obtain ⟨hname, -, hobject, hvalue⟩ := h
    simp only [Expr.tokens, Expr.literals, List.forall_mem_cons, List.forall_mem_append]
      at htokens hliterals
    obtain ⟨hosound, horead⟩ := form_spec object hobject htokens.2.1 hliterals.1
    obtain ⟨hvsound, hvread⟩ := form_spec value hvalue htokens.2.2 hliterals.2
    refine ⟨⟨by decide, hosound, htokens.1.isWord_of_identifier hname, hvsound, trivial⟩, ?_⟩
    rw [form, bare, Form.read, Form.readAll, Form.readAll, Form.readAll, Form.readAll, Form.read,
      Form.readWord_of_identifier hname htokens.1, horead, hvread]
    rfl
  | .this id keyword =>
    rw [Respects] at h
    have hkeyword := (htokens keyword List.mem_cons_self).bare_of_keyword "this" (h ▸ by decide)
    have hword : Form.IsWord "this" := by decide
    rw [form, bare, hkeyword]
    exact ⟨hword, rfl⟩
  | .super id keyword method =>
    rw [Respects] at h
    simp only [Expr.tokens, List.forall_mem_cons] at htokens
    obtain ⟨hkeyword, hmethod, -⟩ := htokens
    refine ⟨⟨by decide, hmethod.isWord_of_identifier h.2, trivial⟩, ?_⟩
    rw [form, bare, Form.read, Form.readAll, Form.readAll, Form.read,
      Form.readWord_of_identifier h.2 hmethod, hkeyword.bare_of_keyword "super" (h.1 ▸ by decide)]
    rfl

theorem Expr.formAll_spec (es : List Expr) (h : RespectsAll es)
    (htokens : ∀ t ∈ tokensAll es, t.Legible) (hliterals : ∀ l ∈ literalsAll es, l.Legible) :
    Form.SoundAll (formAll es) ∧ Form.readAll (formAll es) = bareAll es := by
  match es with
  | [] => exact ⟨trivial, rfl⟩
  | e :: rest =>
    rw [tokensAll, List.forall_mem_append] at htokens
    rw [literalsAll, List.forall_mem_append] at hliterals
    obtain ⟨hsound, hread⟩ := form_spec e h.1 htokens.1 hliterals.1
    obtain ⟨hall, hreadAll⟩ := formAll_spec rest h.2 htokens.2 hliterals.2
    refine ⟨⟨hsound, hall⟩, ?_⟩
    rw [formAll, Form.readAll, bareAll, hread, hreadAll]

end

/-- Legible expressions that are printed alike are the same up to what is not printed. -/
theorem Expr.bare_eq_of_print_eq {e e' : Expr} (h : e.Respects) (h' : e'.Respects)
    (htokens : ∀ t ∈ e.tokens, t.Legible) (htokens' : ∀ t ∈ e'.tokens, t.Legible)
    (hliterals : ∀ l ∈ e.literals, l.Legible) (hliterals' : ∀ l ∈ e'.literals, l.Legible)
    (hprint : e.print = e'.print) : e.bare = e'.bare := by
  obtain ⟨hsound, hread⟩ := e.form_spec h htokens hliterals
  obtain ⟨hsound', hread'⟩ := e'.form_spec h' htokens' hliterals'
  have hchars : e.form.chars = e'.form.chars := by
    calc e.form.chars
      _ = e.print.toList := e.toList_print.symm
      _ = e'.print.toList := by rw [hprint]
      _ = e'.form.chars := e'.toList_print
  calc e.bare
    _ = e.form.read := hread.symm
    _ = e'.form.read := by rw [Form.chars_injective hsound hsound' hchars]
    _ = e'.bare := hread'

end Lox
