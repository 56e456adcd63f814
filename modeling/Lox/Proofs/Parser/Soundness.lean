import Lox.Parser.Statement
import Lox.Proofs.Computation
import Lox.Proofs.Grammar.Lemmas

/-!
# What is read without errors is derived by the grammar

A rule that succeeds, with no error noted up to then, has taken the tokens of a phrase off the
front of its input, and its result is the tree of that phrase.  An error that is noted is never
forgotten, so a whole program without errors is a program of the grammar.  Every `else` goes to the
nearest `if`, because a statement that could take an `else` behind it does.
-/

namespace Lox.Parser

open Grammar

variable {α β : Type}

/-- When a rule succeeds and no error is noted in the end, none was noted before, and the tokens it
took are a phrase in front of those it left. -/
def Sound (p : Parser α) (R : List Token → Phrase α) : Prop :=
  ∀ s a t, p s = .ok a t → t.errors = #[] →
    s.errors = #[] ∧ ∃ ts, s.rest = ts ++ t.rest ∧ R t.rest ts a

namespace Sound

theorem mono {p : Parser α} {R S : List Token → Phrase α} (h : Sound p R)
    (himp : ∀ rest ts a, R rest ts a → S rest ts a) : Sound p S := by
  intro s a t hp ht
  obtain ⟨hs, ts, hts, hR⟩ := h s a t hp ht
  exact ⟨hs, ts, hts, himp _ _ _ hR⟩

theorem pure {a : α} {R : List Token → Phrase α} (h : ∀ rest, R rest [] a) :
    Sound (Pure.pure a : Parser α) R := by
  intro s b t hp ht
  cases hp
  exact ⟨ht, [], rfl, h s.rest⟩

/-- The phrases of two rules in a row stand one behind the other. -/
theorem bind {p : Parser α} {f : α → Parser β} {R : List Token → Phrase α}
    {S : List Token → Phrase β} (hp : Sound p R)
    (hf : ∀ a, Sound (f a) fun rest us b ↦ ∀ ts, R (us ++ rest) ts a → S rest (ts ++ us) b) :
    Sound (p >>= f) S := by
  intro s b u h hu
  obtain ⟨a, t, hpa, hfa⟩ := Computation.bind_eq_ok_iff.1 h
  obtain ⟨ht, us, hus, hS⟩ := hf a t b u hfa hu
  obtain ⟨hs, ts, hts, hR⟩ := hp s a t hpa ht
  rw [hus] at hts hR
  exact ⟨hs, ts ++ us, by rw [hts, List.append_assoc], hS ts hR⟩

theorem ite {p q : Parser α} {R : List Token → Phrase α} {c : Bool}
    (hp : c = true → Sound p R) (hq : c = false → Sound q R) :
    Sound (if c = true then p else q) R := by
  cases c with
  | true => exact hp rfl
  | false => exact hq rfl

theorem fail {R : List Token → Phrase α} (fault : SyntaxFault) :
    Sound (Parser.fail fault : Parser α) R := by
  intro s a t h _
  cases h

theorem note {token : Token} {fault : SyntaxFault} :
    Sound (Parser.note token fault) fun _ _ _ ↦ False := by
  intro s a t h ht
  cases h
  simp at ht

theorem peek : Sound Parser.peek fun _ ts _ ↦ ts = [] := by
  intro s a t h ht
  cases h
  exact ⟨ht, [], rfl, rfl⟩

theorem freshId : Sound Parser.freshId fun _ ts _ ↦ ts = [] := by
  intro s a t h ht
  cases h
  exact ⟨ht, [], rfl, rfl⟩

/-- What follows a token that is taken if its kind is wanted. -/
theorem acceptIf {wanted : Kind → Bool} {g : Option Token → Parser α} {S : List Token → Phrase α}
    (hsome : ∀ t, Sound (g (some t)) fun rest us a ↦
      wanted t.kind = true → S rest (t :: us) a)
    (hnone : Sound (g none) fun rest us a ↦ begins wanted (us ++ rest) = false → S rest us a) :
    Sound (Parser.acceptIf wanted >>= g) S := by
  intro s a u h hu
  obtain ⟨o, t, ho, hg⟩ := Computation.bind_eq_ok_iff.1 h
  rcases Parser.acceptIf_cases wanted s with ⟨hstops, hnone'⟩ | ⟨token, rest, hr, hw, hsome'⟩
  · rw [hnone'] at ho
    cases ho
    obtain ⟨ht, us, hus, hS⟩ := hnone s a u hg hu
    refine ⟨ht, us, hus, hS ?_⟩
    rw [← hus]
    exact hstops
  · rw [hsome'] at ho
    cases ho
    obtain ⟨ht, us, hus, hS⟩ := hsome token _ a u hg hu
    exact ⟨ht, token :: us, by simpa [hr] using hus, hS hw⟩

theorem accept {kind : Kind} {g : Bool → Parser α} {S : List Token → Phrase α}
    (htrue : ∀ t, Sound (g true) fun rest us a ↦ t.kind = kind → S rest (t :: us) a)
    (hfalse : Sound (g false) fun rest us a ↦
      begins (· = kind) (us ++ rest) = false → S rest us a) :
    Sound (Parser.accept kind >>= g) S := by
  have heq : (Parser.accept kind >>= g) =
      Parser.acceptIf (· = kind) >>= fun o ↦ g o.isSome := by
    simp only [Parser.accept, bind_assoc, pure_bind]
  rw [heq]
  refine acceptIf (fun t ↦ ?_) hfalse
  refine (htrue t).mono fun rest us a hS ht ↦ hS ?_
  simpa using ht

theorem check {kind : Kind} : Sound (Parser.check kind) fun _ ts _ ↦ ts = [] := by
  intro s b t h ht
  obtain ⟨u, v, hu, h⟩ := Computation.bind_eq_ok_iff.1 h
  cases hu
  cases hr : s.rest with
  | nil =>
    simp only [hr] at h
    cases h
    exact ⟨ht, [], hr.symm, rfl⟩
  | cons token rest =>
    simp only [hr] at h
    cases h
    exact ⟨ht, [], hr.symm, rfl⟩

theorem atEnd : Sound Parser.atEnd fun rest ts b ↦ ts = [] ∧ (b = true → rest = []) := by
  intro s b t h ht
  cases h
  exact ⟨ht, [], rfl, rfl, fun hb ↦ List.isEmpty_iff.1 hb⟩

theorem expect {kind : Kind} {fault : SyntaxFault} :
    Sound (Parser.expect kind fault) fun _ ts t ↦ ts = [t] ∧ t.kind = kind := by
  refine acceptIf (fun t ↦ ?_) (fail fault)
  exact pure fun rest ht ↦ ⟨rfl, by simpa using ht⟩

theorem manyUntil {done : Parser Bool} {item : Parser α} {D : List Token → Prop}
    {R : List Token → Phrase α} {S : Phrase (List α)}
    (hdone : Sound done fun rest ts b ↦ ts = [] ∧ (b = true → D rest)) (hitem : Sound item R)
    (hnil : S [] [])
    (hcons : ∀ rest ts us a as, R rest ts a → S us as → S (ts ++ us) (a :: as)) (bound : Nat) :
    Sound (Parser.manyUntil done item bound) fun rest ts as ↦
      S ts as ∧ (D rest ∨ as.length = bound) := by
  induction bound with
  | zero => exact pure fun rest ↦ ⟨hnil, .inr rfl⟩
  | succ bound ih =>
    refine bind hdone fun b ↦ ite (fun hb ↦ pure ?_) fun _ ↦ ?_
    · rintro rest ts ⟨rfl, hD⟩
      exact ⟨hnil, .inl (hD hb)⟩
    · refine bind hitem fun a ↦ bind ih fun as ↦ pure ?_
      rintro rest us ⟨hS, hend⟩ ts hR vs ⟨rfl, -⟩
      rw [List.append_nil, List.nil_append]
      exact ⟨hcons _ _ _ _ _ hR hS, by simpa using hend⟩

theorem commaSeparated {item : Nat → Parser α} {R : Phrase α} (limit : Nat)
    (hitem : ∀ index, Sound (item index) fun _ ts a ↦ R ts a ∧ index < limit) (bound : Nat) :
    ∀ index, Sound (Parser.commaSeparated item bound index) fun _ ts as ↦
      Commas R ts as ∧ index + as.length ≤ limit := by
  induction bound with
  | zero =>
    intro index
    refine bind (hitem index) fun a ↦ pure ?_
    rintro rest ts ⟨hR, hlt⟩
    rw [List.append_nil]
    exact ⟨.one hR, hlt⟩
  | succ bound ih =>
    intro index
    refine bind (hitem index) fun a ↦ accept (fun t ↦ ?_) (pure ?_)
    · refine bind (ih (index + 1)) fun as ↦ pure ?_
      rintro rest us ⟨hC, hle⟩ ht ts ⟨hR, -⟩
      rw [List.append_nil]
      refine ⟨.more hR ht hC, ?_⟩
      rw [List.length_cons]
      omega
    · rintro rest - ts ⟨hR, hlt⟩
      rw [List.append_nil]
      exact ⟨.one hR, hlt⟩

theorem limited {fault : SyntaxFault} {item : Parser α} {R : Phrase α}
    (hitem : Sound item fun _ ↦ R) (index : Nat) :
    Sound (Parser.limited fault item index) fun _ ts a ↦ R ts a ∧ index < maxItems := by
  unfold Parser.limited
  split
  · refine bind peek fun t ↦ bind note fun _ ↦ ?_
    refine hitem.mono ?_
    intro rest us a _ ts hF
    exact hF.elim
  · rename_i hlt
    exact hitem.mono fun rest ts a hR ↦ ⟨hR, Nat.lt_of_not_le hlt⟩

theorem listed {fault : SyntaxFault} {item : Parser α} {R : Phrase α}
    (hitem : Sound item fun _ ↦ R) (bound : Nat) :
    Sound (Parser.listed bound fault item) fun _ ↦ Listed R := by
  refine bind check fun b ↦ ite (fun _ ↦ pure ?_) fun _ ↦ ?_
  · rintro rest ts rfl
    exact .none
  · refine (commaSeparated maxItems (limited hitem) bound 0).mono ?_
    rintro rest us as ⟨hC, hle⟩ ts rfl
    exact .some hC (by simpa [maxItems] using hle)

theorem recover {p : Parser α} {R : List Token → Phrase α} (h : Sound p R) :
    Sound (Parser.recover p) fun rest ts o ↦ ∃ a, o = some a ∧ R rest ts a := by
  intro s o t hp ht
  unfold Parser.recover at hp
  cases hr : p s with
  | ok a u =>
    simp only [hr] at hp
    cases hp
    obtain ⟨hs, ts, hts, hR⟩ := h s a t hr ht
    exact ⟨hs, ts, hts, a, rfl, hR⟩
  | error e u =>
    simp only [hr] at hp
    cases hp
    simp at ht

/-! ### Expressions -/

theorem chain {level : Level} {operand : Parser Expr} {operators : List Kind} {R : Phrase Expr}
    (hlevel : ∀ kind, level.isOperator kind = true → kind ∈ operators)
    (hoperand : Sound operand fun _ ↦ R) (bound : Nat) :
    ∀ left, Sound (Parser.chain level operand bound left) fun _ us e ↦
      ∀ ts, Chain operators level.node R ts left → Chain operators level.node R (ts ++ us) e := by
  induction bound with
  | zero =>
    intro left
    refine pure fun rest ts hts ↦ ?_
    rwa [List.append_nil]
  | succ bound ih =>
    intro left
    refine acceptIf (fun op ↦ ?_) (pure ?_)
    · refine bind hoperand fun right ↦ (ih _).mono ?_
      intro rest ws e hch us hright hop ts hts
      have hmore := hch _ (.more hts (hlevel _ hop) hright)
      simpa using hmore
    · intro rest _ ts hts
      rwa [List.append_nil]

/-- A level of operators is a chain of what the tighter levels read. -/
theorem level (level : Level) (operators : List Kind) {tighter : List Level}
    {operand : Parser Expr} {R : Phrase Expr} {bound : Nat}
    (hlevel : ∀ kind, level.isOperator kind = true → kind ∈ operators)
    (h : Sound (Parser.operators bound operand tighter) fun _ ↦ R) :
    Sound (Parser.operators bound operand (level :: tighter)) fun _ ↦
      Chain operators level.node R := by
  refine bind h fun left ↦ (chain hlevel h bound left).mono ?_
  intro rest us e hch ts hts
  exact hch ts (.one hts)

theorem operators {operand : Parser Expr} {bound : Nat} (h : Sound operand fun _ ↦ Unary) :
    Sound (Parser.operators bound operand levels) fun _ ↦ LogicOr := by
  have hfactor := level ⟨fun kind ↦ kind = .slash || kind = .star, .binary⟩ [.slash, .star]
    (by simp)
    (show Sound (Parser.operators bound operand []) fun _ ↦ Unary from h)
  have hterm := level ⟨fun kind ↦ kind = .minus || kind = .plus, .binary⟩ [.minus, .plus]
    (by simp) (hfactor.mono fun _ _ _ ↦ Factor.mk)
  have hcomparison := level
    ⟨fun kind ↦ kind = .greater || kind = .greaterEqual || kind = .less || kind = .lessEqual,
      .binary⟩
    [.greater, .greaterEqual, .less, .lessEqual] (by simp [or_assoc])
    (hterm.mono fun _ _ _ ↦ Term.mk)
  have hequality := level ⟨fun kind ↦ kind = .bangEqual || kind = .equalEqual, .binary⟩
    [.bangEqual, .equalEqual] (by simp) (hcomparison.mono fun _ _ _ ↦ Comparison.mk)
  have hand := level ⟨(· = .andWord), .logical⟩ [.andWord] (by simp)
    (hequality.mono fun _ _ _ ↦ Equality.mk)
  have hor := level ⟨(· = .orWord), .logical⟩ [.orWord] (by simp)
    (hand.mono fun _ _ _ ↦ LogicAnd.mk)
  exact hor.mono fun _ _ _ ↦ LogicOr.mk

theorem primaryAfter {nested : Parser Expr} (hnested : Sound nested fun _ ↦ Expression)
    (token : Token) :
    Sound (Parser.primaryAfter nested token) fun _ us e ↦
      startsPrimary token.kind = true → Primary (token :: us) e := by
  unfold Parser.primaryAfter
  split
  · rename_i hk
    exact pure fun _ _ ↦ .falseWord hk
  · rename_i hk
    exact pure fun _ _ ↦ .trueWord hk
  · rename_i hk
    exact pure fun _ _ ↦ .nilWord hk
  · rename_i hk
    exact pure fun _ _ ↦ .number hk
  · rename_i hk
    exact pure fun _ _ ↦ .string hk
  · rename_i hk
    refine bind freshId fun id ↦ pure ?_
    rintro rest ts rfl _
    exact .this hk
  · rename_i hk
    refine bind freshId fun id ↦ pure ?_
    rintro rest ts rfl _
    exact .ident hk
  · rename_i hk
    refine bind expect fun dot ↦ ?_
    refine bind expect fun method ↦ ?_
    refine bind freshId fun id ↦ ?_
    refine pure ?_
    rintro rest ts rfl _ ⟨rfl, hmethod⟩ _ ⟨rfl, hdot⟩ _
    exact .super hk hdot hmethod
  · refine bind hnested fun inner ↦ bind expect fun right ↦ pure ?_
    rintro rest _ ⟨rfl, hright⟩ ts hinner htoken
    refine .grouping ?_ hinner hright
    -- Of the kinds that start a primary only the parenthesis has no case of its own.
    cases hk : token.kind <;> simp_all [startsPrimary]

theorem primary {nested : Parser Expr} (hnested : Sound nested fun _ ↦ Expression) :
    Sound (Parser.primary nested) fun _ ↦ Primary := by
  exact acceptIf (fun token ↦ primaryAfter hnested token) (fail _)

theorem arguments {nested : Parser Expr} (hnested : Sound nested fun _ ↦ Expression)
    (bound : Nat) :
    Sound (Parser.arguments bound nested) fun _ ts a ↦
      ∃ us, ts = us ++ [a.2] ∧ Listed Expression us a.1 ∧ a.2.kind = .rightParen := by
  refine bind (listed hnested bound) fun values ↦ bind expect fun paren ↦ pure ?_
  rintro rest _ ⟨rfl, hparen⟩ ts hvalues
  exact ⟨ts, by simp, hvalues, hparen⟩

theorem suffixes {nested : Parser Expr} (hnested : Sound nested fun _ ↦ Expression)
    (bound rounds : Nat) :
    ∀ e, Sound (Parser.suffixes bound nested rounds e) fun _ us e' ↦
      ∀ ts, Suffixed Expression Primary ts e → Suffixed Expression Primary (ts ++ us) e' := by
  induction rounds with
  | zero =>
    intro e
    refine pure fun rest ts hts ↦ ?_
    rwa [List.append_nil]
  | succ rounds ih =>
    intro e
    refine accept (fun left ↦ ?_) (accept (fun dot ↦ ?_) (pure ?_))
    · refine bind (arguments hnested bound) fun a ↦ (ih _).mono ?_
      rintro rest ws e' hrest _ ⟨us, rfl, harguments, hright⟩ hleft ts hts
      have hcall := hrest _ (.call hts hleft harguments hright)
      simpa using hcall
    · refine bind expect fun name ↦ (ih _).mono ?_
      rintro rest ws e' hrest _ ⟨rfl, hname⟩ hdot - ts hts
      have hproperty := hrest _ (.property hts hdot hname)
      simpa using hproperty
    · intro rest _ _ ts hts
      rwa [List.append_nil]

theorem signs {operand : Parser Expr} (h : Sound operand fun _ ↦ Call) (bound : Nat) :
    Sound (Parser.signs operand bound) fun _ ↦ Unary := by
  induction bound with
  | zero => exact h.mono fun _ _ _ ↦ Unary.call
  | succ bound ih =>
    refine acceptIf (fun op ↦ ?_) ?_
    · refine bind ih fun e ↦ pure ?_
      intro rest us hunary hop
      rw [List.append_nil]
      exact .sign (by simpa [isSign] using hop) hunary
    · exact h.mono fun _ _ _ hcall _ ↦ .call hcall

theorem operation {nested : Parser Expr} (hnested : Sound nested fun _ ↦ Expression)
    (bound : Nat) : Sound (Parser.operation bound nested) fun _ ↦ LogicOr := by
  refine operators (signs ?_ bound)
  refine bind (primary hnested) fun e ↦ (suffixes hnested bound bound e).mono ?_
  intro rest us e' hsuffixes ts hprimary
  exact .mk (hsuffixes ts (.bare hprimary))

theorem assignment {nested : Parser Expr} (hnested : Sound nested fun _ ↦ Expression)
    (bound : Nat) : Sound (Parser.assignment bound nested) fun _ ↦ Expression := by
  refine bind (operation hnested bound) fun target ↦ acceptIf (fun equals ↦ ?_) (pure ?_)
  · refine bind hnested fun value ↦ ?_
    unfold assignTo
    split
    · refine bind freshId fun id ↦ pure ?_
      rintro rest _ rfl us hvalue hequals ts htarget
      obtain ⟨rfl, hname⟩ := htarget.eq_of_var
      exact .assign hname (by simpa using hequals) (by simpa using hvalue)
    · refine pure ?_
      rintro rest us hvalue hequals ts htarget
      obtain ⟨vs, dot, rfl, hobject, hdot, hname⟩ := htarget.eq_of_get
      have hset := Expression.set hobject hdot hname (by simpa using hequals) hvalue
      simpa using hset
    · refine bind note fun _ ↦ pure ?_
      rintro rest _ hfalse
      exact hfalse.elim
  · intro rest _ ts htarget
    rw [List.append_nil]
    exact .operation htarget

theorem expression (bound : Nat) : Sound (Parser.expression bound) fun _ ↦ Expression := by
  induction bound with
  | zero => exact fail _
  | succ bound ih => exact assignment ih (bound + 1)

/-! ### Statements -/

theorem optionalExpression (bound : Nat) (closing : Kind) :
    Sound (Parser.optionalExpression bound closing) fun _ ↦ Maybe Expression := by
  refine bind check fun b ↦ ite (fun _ ↦ pure ?_) fun _ ↦ bind (expression bound) fun e ↦ pure ?_
  · rintro rest _ rfl
    exact .absent
  · rintro rest ts h _ rfl
    rw [List.append_nil]
    exact .present h

theorem initialValue (bound : Nat) : Sound (Parser.initialValue bound) fun _ ↦ Initializer := by
  refine accept (fun equals ↦ bind (expression bound) fun e ↦ pure ?_) (pure ?_)
  · intro rest ts h hequals
    rw [List.append_nil]
    exact .present hequals h
  · exact fun _ _ ↦ .absent

theorem variableDeclaration (bound : Nat) :
    Sound (Parser.variableDeclaration bound) fun _ us s ↦
      ∀ keyword, keyword.kind = .varWord → VarDecl (keyword :: us) s := by
  refine bind expect fun name ↦ ?_
  refine bind (initialValue bound) fun initializer ↦ ?_
  refine bind expect fun semicolon ↦ ?_
  refine pure ?_
  rintro rest _ ⟨rfl, hsemicolon⟩ ts hinitializer _ ⟨rfl, hname⟩ keyword hkeyword
  exact .mk hkeyword hname hinitializer hsemicolon

theorem expressionStatement (bound : Nat) :
    Sound (Parser.expressionStatement bound) fun _ ↦ ExprStmt := by
  refine bind (expression bound) fun e ↦ bind expect fun semicolon ↦ pure ?_
  rintro rest _ ⟨rfl, hsemicolon⟩ ts h
  exact .mk h hsemicolon

theorem forInitializer (bound : Nat) : Sound (Parser.forInitializer bound) fun _ ↦ ForStart := by
  refine accept (fun semicolon ↦ pure fun _ ↦ .none) (accept (fun keyword ↦ ?_) ?_)
  · refine bind (variableDeclaration bound) fun s ↦ pure ?_
    intro rest us h hkeyword _
    rw [List.append_nil]
    exact .varDecl (h keyword hkeyword)
  · refine bind (expressionStatement bound) fun s ↦ pure ?_
    intro rest us h _ _
    rw [List.append_nil]
    exact .exprStmt h

theorem superclass : Sound Parser.superclass fun _ ↦ Superclass := by
  refine accept (fun less ↦ bind expect fun name ↦ bind freshId fun id ↦ pure ?_) (pure ?_)
  · rintro rest _ rfl _ ⟨rfl, hname⟩ hless
    exact .present hless hname
  · exact fun _ _ ↦ .absent

end Sound

/-- What reading a statement tells: it is derived, and where an `else` follows it, it could not have
taken the `else` itself. -/
def StatementRead (inLoop : Bool) (rest ts : List Token) (s : Stmt) : Prop :=
  ∃ dangling, Statement true inLoop dangling ts s ∧
    (dangling = true → begins (· = .elseWord) rest = false)

/-- What reading a declaration tells: it did not fail, and it is derived. -/
def DeclarationRead (inLoop : Bool) (_rest ts : List Token) (o : Option Stmt) : Prop :=
  ∃ s dangling, o = some s ∧ Declaration true inLoop dangling ts s

namespace Sound

theorem blockEnd {D : List Token → Prop} (hD : ∀ rest, D rest) :
    Sound Parser.blockEnd fun rest ts b ↦ ts = [] ∧ (b = true → D rest) := by
  refine bind atEnd fun b ↦ bind check fun b' ↦ pure ?_
  rintro rest _ rfl _ ⟨rfl, -⟩
  exact ⟨rfl, fun _ ↦ hD rest⟩

/-- Declarations that are read without errors: none of them failed. -/
theorem declarations {declaration : Parser (Option Stmt)} {inLoop : Bool} {done : Parser Bool}
    {D : List Token → Prop}
    (hdone : Sound done fun rest ts b ↦ ts = [] ∧ (b = true → D rest))
    (hdeclaration : Sound declaration (DeclarationRead inLoop)) (bound : Nat) :
    Sound (Parser.manyUntil done declaration bound) fun rest ts os ↦
      (Declarations true inLoop ts os.reduceOption ∧ os.length ≤ ts.length) ∧
        (D rest ∨ os.length = bound) := by
  refine manyUntil hdone hdeclaration ⟨.nil, Nat.le_refl _⟩ ?_ bound
  rintro rest ts us _ os ⟨s, dangling, rfl, hs⟩ ⟨hos, hlength⟩
  refine ⟨.cons hs hos, ?_⟩
  have hpos := hs.length_pos
  rw [List.length_cons, List.length_append]
  omega

theorem block {declaration : Parser (Option Stmt)} {inLoop : Bool}
    (hdeclaration : Sound declaration (DeclarationRead inLoop)) (bound : Nat) :
    Sound (Parser.block bound declaration) fun _ us body ↦
      ∀ left, left.kind = .leftBrace → Block true inLoop (left :: us) body := by
  have hmany := declarations (blockEnd (D := fun _ ↦ True) fun _ ↦ trivial) hdeclaration bound
  refine bind hmany fun os ↦ bind expect fun right ↦ pure ?_
  rintro rest _ ⟨rfl, hright⟩ ts ⟨⟨hbody, -⟩, -⟩ left hleft
  exact .mk hleft hbody hright

theorem routine {declaration : Bool → Parser (Option Stmt)} {kind : RoutineKind}
    (hdeclaration : Sound (declaration false) (DeclarationRead false)) (bound : Nat) :
    Sound (Parser.routine bound kind declaration) fun _ ↦ Function true := by
  have hparameter : Sound (Parser.expect .identifier .expectParameterName) fun _ ↦ Name := by
    refine expect.mono ?_
    rintro rest _ t ⟨rfl, ht⟩
    exact .ident ht
  refine bind expect fun name ↦ ?_
  refine bind expect fun left ↦ ?_
  refine bind (listed hparameter bound) fun params ↦ ?_
  refine bind expect fun right ↦ ?_
  refine bind expect fun brace ↦ ?_
  refine bind (block hdeclaration bound) fun body ↦ ?_
  refine pure ?_
  rintro rest us hbody _ ⟨rfl, hbrace⟩ _ ⟨rfl, hright⟩ ts hparams _ ⟨rfl, hleft⟩ _ ⟨rfl, hname⟩
  rw [List.append_nil]
  exact .mk hname hleft hparams hright (hbody brace hbrace)

theorem classDeclaration {declaration : Bool → Parser (Option Stmt)}
    (hdeclaration : Sound (declaration false) (DeclarationRead false)) (bound : Nat)
    (inLoop : Bool) :
    Sound (Parser.classDeclaration bound declaration) fun _ us s ↦
      ∀ keyword, keyword.kind = .classWord →
        Declaration true inLoop false (keyword :: us) s := by
  have hmethod : Sound (Parser.routine bound .method declaration) fun _ ↦ Function true :=
    routine hdeclaration bound
  have hmethods := manyUntil (S := Functions true) (blockEnd (D := fun _ ↦ True) fun _ ↦ trivial)
    hmethod .nil (fun _ _ _ _ _ hmethod hrest ↦ .cons hmethod hrest) bound
  refine bind expect fun name ↦ ?_
  refine bind superclass fun extended ↦ ?_
  refine bind expect fun left ↦ ?_
  refine bind hmethods fun methods ↦ ?_
  refine bind expect fun right ↦ ?_
  refine pure ?_
  rintro rest _ ⟨rfl, hright⟩ us ⟨hmethods, -⟩ _ ⟨rfl, hleft⟩ ts hextended _ ⟨rfl, hname⟩ keyword
    hkeyword
  exact .classDecl hkeyword hname hextended hleft hmethods hright

theorem declarationAfter {declaration : Bool → Parser (Option Stmt)}
    (hdeclaration : Sound (declaration false) (DeclarationRead false)) (bound : Nat)
    (inLoop : Bool) (token : Token) :
    Sound (Parser.declarationAfter bound declaration token) fun _ us s ↦
      startsDeclaration token.kind = true → Declaration true inLoop false (token :: us) s := by
  unfold Parser.declarationAfter
  split
  · rename_i hk
    refine (classDeclaration hdeclaration bound inLoop).mono ?_
    intro rest us s h _
    exact h token hk
  · rename_i hk
    refine bind (routine hdeclaration bound) fun routine ↦ pure ?_
    intro rest us h _
    rw [List.append_nil]
    exact .funDecl hk h
  · refine (variableDeclaration bound).mono ?_
    intro rest us s h htoken
    refine .varDecl (h token ?_)
    simp_all [startsDeclaration]

theorem forStatement {body : Parser Stmt} (hbody : Sound body (StatementRead true)) (bound : Nat)
    (inLoop : Bool) :
    Sound (Parser.forStatement bound body) fun rest us s ↦
      ∀ keyword, keyword.kind = .forWord → StatementRead inLoop rest (keyword :: us) s := by
  refine bind expect fun left ↦ ?_
  refine bind (forInitializer bound) fun initializer ↦ ?_
  refine bind (optionalExpression bound .semicolon) fun condition ↦ ?_
  refine bind expect fun semicolon ↦ ?_
  refine bind (optionalExpression bound .rightParen) fun increment ↦ ?_
  refine bind expect fun right ↦ ?_
  refine bind hbody fun s ↦ ?_
  refine pure ?_
  rintro rest ws ⟨dangling, hs, helse⟩ _ ⟨rfl, hright⟩ vs hincrement _ ⟨rfl, hsemicolon⟩ us
    hcondition ts hinitializer _ ⟨rfl, hleft⟩ keyword hkeyword
  refine ⟨dangling, ?_, helse⟩
  have hloop : Statement _ inLoop _ _ _ := .forLoop hkeyword hleft hinitializer hcondition
    hsemicolon hincrement hright hs
  simpa using hloop

theorem ifStatement {branch : Parser Stmt} {inLoop : Bool}
    (hbranch : Sound branch (StatementRead inLoop)) (bound : Nat) :
    Sound (Parser.ifStatement bound branch) fun rest us s ↦
      ∀ keyword, keyword.kind = .ifWord → StatementRead inLoop rest (keyword :: us) s := by
  refine bind expect fun left ↦ ?_
  refine bind (expression bound) fun condition ↦ ?_
  refine bind expect fun right ↦ ?_
  refine bind hbranch fun thenBranch ↦ ?_
  refine accept (fun otherwise ↦ bind hbranch fun other ↦ pure ?_) (pure ?_)
  · rintro rest vs ⟨dangling, hother, helse⟩ hotherwise us ⟨inner, hthen, hinner⟩ _
      ⟨rfl, hright⟩ ts hcondition _ ⟨rfl, hleft⟩ keyword hkeyword
    refine ⟨dangling, ?_, helse⟩
    have hnearest : true = true → inner = false := by
      intro _
      cases inner with
      | false => rfl
      | true => exact absurd (hinner rfl) (by simp [hotherwise])
    have hif := Statement.ifElse hkeyword hleft hcondition hright hthen hnearest hotherwise hother
    simpa using hif
  · rintro rest helse us ⟨inner, hthen, -⟩ _ ⟨rfl, hright⟩ ts hcondition _ ⟨rfl, hleft⟩ keyword
      hkeyword
    refine ⟨true, ?_, fun _ ↦ helse⟩
    have hif := Statement.ifThen hkeyword hleft hcondition hright hthen
    simpa using hif

theorem whileStatement {body : Parser Stmt} (hbody : Sound body (StatementRead true))
    (bound : Nat) (inLoop : Bool) :
    Sound (Parser.whileStatement bound body) fun rest us s ↦
      ∀ keyword, keyword.kind = .whileWord → StatementRead inLoop rest (keyword :: us) s := by
  refine bind expect fun left ↦ ?_
  refine bind (expression bound) fun condition ↦ ?_
  refine bind expect fun right ↦ ?_
  refine bind hbody fun s ↦ ?_
  refine pure ?_
  rintro rest us ⟨dangling, hs, helse⟩ _ ⟨rfl, hright⟩ ts hcondition _ ⟨rfl, hleft⟩ keyword
    hkeyword
  refine ⟨dangling, ?_, helse⟩
  have hloop : Statement _ inLoop _ _ _ := .while hkeyword hleft hcondition hright hs
  simpa using hloop

theorem printStatement (bound : Nat) (inLoop : Bool) :
    Sound (Parser.printStatement bound) fun rest us s ↦
      ∀ keyword, keyword.kind = .printWord → StatementRead inLoop rest (keyword :: us) s := by
  refine bind (expression bound) fun e ↦ bind expect fun semicolon ↦ pure ?_
  rintro rest _ ⟨rfl, hsemicolon⟩ ts h keyword hkeyword
  exact ⟨false, .print hkeyword h hsemicolon, by simp⟩

theorem returnStatement (bound : Nat) (inLoop : Bool) {keyword : Token}
    (hkeyword : keyword.kind = .returnWord) :
    Sound (Parser.returnStatement bound keyword) fun rest us s ↦
      StatementRead inLoop rest (keyword :: us) s := by
  refine bind (optionalExpression bound .semicolon) fun value ↦ bind expect fun semicolon ↦ pure ?_
  rintro rest _ ⟨rfl, hsemicolon⟩ ts h
  exact ⟨false, .return hkeyword h hsemicolon, by simp⟩

/-- A jump is read without errors only in a loop. -/
theorem jump {inLoop : Bool} {keyword : Token} {stray missingEnd : SyntaxFault}
    {node : Token → Stmt} :
    Sound (Parser.jump inLoop keyword stray missingEnd node) fun rest us s ↦
      (∀ semicolon, semicolon.kind = .semicolon →
        Statement true true false [keyword, semicolon] (node keyword)) →
      StatementRead inLoop rest (keyword :: us) s := by
  cases inLoop with
  | false =>
    refine bind note fun _ ↦ bind expect fun semicolon ↦ pure ?_
    rintro rest _ _ ts hfalse
    exact hfalse.elim
  | true =>
    refine bind expect fun semicolon ↦ pure ?_
    rintro rest _ ⟨rfl, hsemicolon⟩ h
    exact ⟨false, h semicolon hsemicolon, by simp⟩

theorem statementAfter {statement : Bool → Parser Stmt}
    {declaration : Bool → Parser (Option Stmt)}
    (hstatement : ∀ inLoop, Sound (statement inLoop) (StatementRead inLoop))
    (hdeclaration : ∀ inLoop, Sound (declaration inLoop) (DeclarationRead inLoop)) (bound : Nat)
    (inLoop : Bool) (token : Token) :
    Sound (Parser.statementAfter bound statement declaration inLoop token) fun rest us s ↦
      startsStatement token.kind = true → StatementRead inLoop rest (token :: us) s := by
  unfold Parser.statementAfter
  split
  · rename_i hk
    exact (forStatement (hstatement true) bound inLoop).mono fun _ _ _ h _ ↦ h token hk
  · rename_i hk
    exact (ifStatement (hstatement inLoop) bound).mono fun _ _ _ h _ ↦ h token hk
  · rename_i hk
    exact (printStatement bound inLoop).mono fun _ _ _ h _ ↦ h token hk
  · rename_i hk
    exact (returnStatement bound inLoop hk).mono fun _ _ _ h _ ↦ h
  · rename_i hk
    exact (whileStatement (hstatement true) bound inLoop).mono fun _ _ _ h _ ↦ h token hk
  · rename_i hk
    refine bind (block (hdeclaration inLoop) bound) fun body ↦ pure ?_
    intro rest us hbody _
    rw [List.append_nil]
    exact ⟨false, .block (hbody token hk), by simp⟩
  · rename_i hk
    exact jump.mono fun _ _ _ h _ ↦ h fun _ hsemicolon ↦ .break hk hsemicolon
  · refine jump.mono fun _ _ _ h htoken ↦ h fun _ hsemicolon ↦ .continue ?_ hsemicolon
    simp_all [startsStatement]

/-- Both recursive rules are sound, by induction on their bound. -/
theorem declaration_and_statement (bound : Nat) :
    (∀ inLoop, Sound (Parser.declaration bound inLoop) (DeclarationRead inLoop)) ∧
      ∀ inLoop, Sound (Parser.statement bound inLoop) (StatementRead inLoop) := by
  induction bound with
  | zero =>
    refine ⟨fun inLoop ↦ ?_, fun inLoop ↦ fail _⟩
    exact (recover (R := fun _ _ _ ↦ False) (fail _)).mono fun _ _ _ ⟨_, _, h⟩ ↦ h.elim
  | succ bound ih =>
    obtain ⟨hdeclaration, hstatement⟩ := ih
    refine ⟨fun inLoop ↦ ?_, fun inLoop ↦ ?_⟩
    · refine (recover (R := fun _ ts s ↦ ∃ dangling, Declaration true inLoop dangling ts s)
        (acceptIf (fun token ↦ ?_) ?_)).mono fun _ _ _ ⟨s, ho, dangling, h⟩ ↦ ⟨s, dangling, ho, h⟩
      · refine (declarationAfter (hdeclaration false) bound inLoop token).mono ?_
        exact fun _ _ _ h htoken ↦ ⟨false, h htoken⟩
      · refine (hstatement inLoop).mono ?_
        exact fun _ _ _ ⟨dangling, h, _⟩ _ ↦ ⟨dangling, .statement h⟩
    · refine acceptIf (fun token ↦ statementAfter hstatement hdeclaration bound inLoop token) ?_
      refine (expressionStatement bound).mono fun _ _ _ h _ ↦ ?_
      exact ⟨false, .expression h, by simp⟩

end Sound

end Lox.Parser

namespace Lox

/-- A program that is read without errors is derived from the tokens before the end. -/
theorem program_of_errors_eq_nil {nextId : NodeId} {tokens : List Token}
    (h : (readProgram nextId tokens).errors = []) :
    Grammar.Program true (tokens.takeWhile (·.kind ≠ .endOfInput))
      (readProgram nextId tokens).result := by
  unfold readProgram at h ⊢
  have hsound := Parser.Sound.declarations Parser.Sound.atEnd
    ((Parser.Sound.declaration_and_statement
      (2 * (Parser.State.start nextId tokens).rest.length + 1)).1 false)
    (Parser.State.start nextId tokens).rest.length
  dsimp only at h ⊢
  split at h
  · rename_i os t hos
    have herrors : t.errors = #[] := Array.toList_eq_nil_iff.1 h
    obtain ⟨-, ts, hts, ⟨hprogram, hlength⟩, hend⟩ := hsound _ _ _ hos herrors
    have hrest : t.rest = [] := by
      rcases hend with hend | hend
      · exact hend
      · -- As many rounds as there are tokens, each of which took one, leave nothing.
        have hcount := congrArg List.length hts
        rw [List.length_append] at hcount
        exact List.length_eq_zero_iff.1 (by omega)
    rw [hrest, List.append_nil] at hts
    subst hts
    exact hprogram
  · exact absurd h (by simp)

/-- An expression that is read without errors is derived from the tokens that were taken. -/
theorem derived_of_readExpression {nextId : NodeId} {tokens : List Token} {e : Expr}
    (hresult : (readExpression nextId tokens).result = some e)
    (herrors : (readExpression nextId tokens).errors = []) :
    ∃ taken final, (Parser.State.start nextId tokens).rest = taken ++ final.rest ∧
      Parser.expression (Parser.State.start nextId tokens).rest.length (.start nextId tokens) =
        .ok e final ∧ Grammar.Expression taken e := by
  unfold readExpression at hresult herrors
  dsimp only at hresult herrors
  cases hparse : Parser.expression (Parser.State.start nextId tokens).rest.length
      (.start nextId tokens) with
  | error fault final =>
    rw [hparse] at hresult
    cases hresult
  | ok read final =>
    rw [hparse] at hresult herrors
    cases hresult
    have hnone : final.errors = #[] := Array.toList_eq_nil_iff.1 herrors
    obtain ⟨-, taken, htaken, hderived⟩ := Parser.Sound.expression _ _ _ _ hparse hnone
    exact ⟨taken, final, htaken, rfl, hderived⟩

end Lox
