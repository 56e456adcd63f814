import Lox.Parser.Statement
import Lox.Proofs.Computation
import Mathlib.Data.List.Infix

/-!
# Reading by position

A rule of the grammar as a program on a vector of tokens: it holds a position in the vector and
looks at tokens by their index.  An index outside the vector ends everything.  Every rule is such a
program, built from the same few looks and steps, and a position never passes the first end token.
So no index is ever outside the vector.
-/

namespace Lox

/-- A place in a vector of tokens, with the next free node identifier and the errors noted so
far. -/
structure Place where
  position : Nat
  nextId : NodeId
  errors : Array SyntaxError

/-- Why a program on a vector ends without a result. -/
inductive Escape where
  | syntaxError (e : SyntaxError)
  | outside

/-- A program on a vector of tokens. -/
abbrev Indexed (α : Type) := List Token → EStateM Escape Place α

namespace Indexed

variable (tokens : List Token)

def tokenAt (index : Nat) : EStateM Escape Place Token :=
  match tokens[index]? with
  | some t => pure t
  | none => throw .outside

def peek : EStateM Escape Place Token := do
  tokenAt tokens (← get).position

def previous : EStateM Escape Place Token := do
  tokenAt tokens ((← get).position - 1)

def atEnd : EStateM Escape Place Bool := do
  return (← peek tokens).kind = .endOfInput

/-- Step over a token unless it ends the input, and look at the token before the position. -/
def advance : EStateM Escape Place Token := do
  if !(← atEnd tokens) then modify fun c ↦ { c with position := c.position + 1 }
  previous tokens

def check (kind : Kind) : EStateM Escape Place Bool := do
  if ← atEnd tokens then return false
  return (← peek tokens).kind = kind

def acceptIf (wanted : Kind → Bool) : EStateM Escape Place (Option Token) := do
  if ← atEnd tokens then return none
  if wanted (← peek tokens).kind then return some (← advance tokens)
  return none

def note (token : Token) (fault : SyntaxFault) : EStateM Escape Place Unit :=
  modify fun c ↦ { c with errors := c.errors.push ⟨token, fault⟩ }

def freshId : EStateM Escape Place NodeId :=
  modifyGet fun c ↦ (c.nextId, { c with nextId := c.nextId + 1 })

/-- Step over tokens until one ends or starts a statement, in at most `rounds` rounds. -/
def skipStatement : (rounds : Nat) → EStateM Escape Place Unit
  | 0 => return ()
  | rounds + 1 => do
    if ← atEnd tokens then return ()
    if (← previous tokens).kind = .semicolon then return ()
    if Parser.isStarter (← peek tokens).kind then return ()
    let _ ← advance tokens
    skipStatement rounds

def synchronize : EStateM Escape Place Unit := do
  let _ ← advance tokens
  skipStatement tokens tokens.length

/-- Note the syntax error of a program that fails with one, and synchronize. -/
def recover {α : Type} (program : EStateM Escape Place α) : EStateM Escape Place (Option α) :=
  fun c ↦
    match program c with
    | .ok a c => .ok (some a) c
    | .error (.syntaxError e) c =>
      (do synchronize tokens; return none) { c with errors := c.errors.push e }
    | .error .outside c => .error .outside c

end Indexed

/-- A rule and the same rule as a program on a vector. -/
inductive Indexes : {α : Type} → Parser α → Indexed α → Prop
  | pure {α : Type} (a : α) : Indexes (Pure.pure a) fun _ ↦ Pure.pure a
  | throw {α : Type} (e : SyntaxError) :
      Indexes (MonadExcept.throw e : Parser α) fun _ ↦ MonadExcept.throw (.syntaxError e)
  | bind {α β : Type} {p : Parser α} {q : Indexed α} {f : α → Parser β} {g : α → Indexed β}
      (hp : Indexes p q) (hf : ∀ a, Indexes (f a) (g a)) :
      Indexes (p >>= f) fun tokens ↦ q tokens >>= fun a ↦ g a tokens
  | peek : Indexes Parser.peek Indexed.peek
  | atEnd : Indexes Parser.atEnd Indexed.atEnd
  | check (kind : Kind) : Indexes (Parser.check kind) (Indexed.check · kind)
  | acceptIf (wanted : Kind → Bool) : Indexes (Parser.acceptIf wanted) (Indexed.acceptIf · wanted)
  | note (token : Token) (fault : SyntaxFault) :
      Indexes (Parser.note token fault) fun _ ↦ Indexed.note token fault
  | freshId : Indexes Parser.freshId fun _ ↦ Indexed.freshId
  | recover {α : Type} {p : Parser α} {q : Indexed α} (hp : Indexes p q) :
      Indexes (Parser.recover p) fun tokens ↦ Indexed.recover tokens (q tokens)

/-- A state of the rules stands at a place in a vector: the tokens still to be read and the first
end token come next there. -/
structure Parser.State.Stands (tokens : List Token) (s : Parser.State) (c : Place) : Prop where
  split : ∃ passed later, tokens = passed ++ (s.rest ++ s.stop :: later) ∧
    passed.length = c.position ∧ ∀ t ∈ passed, t.kind ≠ .endOfInput
  rest : ∀ t ∈ s.rest, t.kind ≠ .endOfInput
  stop : s.stop.kind = .endOfInput
  nextId : s.nextId = c.nextId
  errors : s.errors = c.errors

namespace Parser.State.Stands

variable {tokens : List Token} {s : Parser.State} {c : Place}

theorem getElem? (h : s.Stands tokens c) : tokens[c.position]? = some (s.rest.headD s.stop) := by
  obtain ⟨passed, later, htokens, hposition, -⟩ := h.split
  rw [htokens, ← hposition, List.getElem?_append_right (Nat.le_refl _), Nat.sub_self]
  cases s.rest with
  | nil => rfl
  | cons t rest => rfl

theorem position_lt (h : s.Stands tokens c) : c.position < tokens.length :=
  (List.getElem?_eq_some_iff.1 h.getElem?).1

theorem exists_previous (h : s.Stands tokens c) : ∃ t, tokens[c.position - 1]? = some t :=
  ⟨_, List.getElem?_eq_getElem (Nat.lt_of_le_of_lt (Nat.sub_le _ _) h.position_lt)⟩

theorem note (h : s.Stands tokens c) (e : SyntaxError) :
    State.Stands tokens { s with errors := s.errors.push e }
      { c with errors := c.errors.push e } :=
  ⟨h.split, h.rest, h.stop, h.nextId, congrArg (Array.push · e) h.errors⟩

theorem step {t : Token} {rest : List Token} (h : s.Stands tokens c) (hrest : s.rest = t :: rest) :
    State.Stands tokens { s with rest } { c with position := c.position + 1 } ∧
      tokens[c.position + 1 - 1]? = some t := by
  obtain ⟨passed, later, htokens, hposition, hpassed⟩ := h.split
  have hkinds := h.rest
  rw [hrest] at htokens hkinds
  rw [List.forall_mem_cons] at hkinds
  constructor
  · refine ⟨⟨passed ++ [t], later, ?_, ?_, ?_⟩, hkinds.2, h.stop, h.nextId, h.errors⟩
    · rw [htokens]
      simp
    · simp [hposition]
    · rw [List.forall_mem_append, List.forall_mem_singleton]
      exact ⟨hpassed, hkinds.1⟩
  · have hnext := h.getElem?
    rwa [hrest] at hnext

end Parser.State.Stands

/-! ### Looks and steps -/

section Primitives

variable {tokens : List Token} {s : Parser.State} {c : Place} {t : Token}

theorem Indexed.tokenAt_of_getElem? {i : Nat} (h : tokens[i]? = some t) :
    Indexed.tokenAt tokens i c = .ok t c := by
  unfold Indexed.tokenAt
  rw [h]
  rfl

theorem Indexed.peek_of_stands (h : s.Stands tokens c) :
    Indexed.peek tokens c = .ok (s.rest.headD s.stop) c :=
  Indexed.tokenAt_of_getElem? h.getElem?

theorem Indexed.atEnd_of_stands (h : s.Stands tokens c) :
    Indexed.atEnd tokens c = .ok s.rest.isEmpty c := by
  have hkind : decide ((s.rest.headD s.stop).kind = .endOfInput) = s.rest.isEmpty := by
    have hrest := h.rest
    cases hr : s.rest with
    | nil => exact decide_eq_true h.stop
    | cons t rest =>
      rw [hr] at hrest
      exact decide_eq_false (hrest t List.mem_cons_self)
  unfold Indexed.atEnd
  rw [Computation.bind_of_ok (Indexed.peek_of_stands h)]
  exact congrArg (EStateM.Result.ok · c) hkind

theorem Indexed.advance_of_cons (h : s.Stands tokens c) {rest : List Token}
    (hrest : s.rest = t :: rest) :
    Indexed.advance tokens c = .ok t { c with position := c.position + 1 } := by
  have hend := Indexed.atEnd_of_stands h
  rw [hrest] at hend
  unfold Indexed.advance
  rw [Computation.bind_of_ok hend]
  exact Indexed.tokenAt_of_getElem? (h.step hrest).2

theorem Indexed.advance_of_nil (h : s.Stands tokens c) (hrest : s.rest = []) :
    ∃ t, Indexed.advance tokens c = .ok t c := by
  obtain ⟨t, ht⟩ := h.exists_previous
  have hend := Indexed.atEnd_of_stands h
  rw [hrest] at hend
  refine ⟨t, ?_⟩
  unfold Indexed.advance
  rw [Computation.bind_of_ok hend]
  exact Indexed.tokenAt_of_getElem? ht

/-- One round in front of a token, where `last` is the token before the position. -/
theorem Indexed.skipStatement_succ {rounds : Nat} {last : Token} {rest : List Token}
    (h : Parser.State.Stands tokens { s with rest := t :: rest } c)
    (hlast : tokens[c.position - 1]? = some last) :
    Indexed.skipStatement tokens (rounds + 1) c =
      if last.kind = .semicolon || Parser.isStarter t.kind then .ok () c
      else Indexed.skipStatement tokens rounds { c with position := c.position + 1 } := by
  have hend : Indexed.atEnd tokens c = .ok false c := Indexed.atEnd_of_stands h
  have hprevious : Indexed.previous tokens c = .ok last c := Indexed.tokenAt_of_getElem? hlast
  have hpeek : Indexed.peek tokens c = .ok t c := Indexed.peek_of_stands h
  have hadvance : Indexed.advance tokens c = .ok t { c with position := c.position + 1 } :=
    Indexed.advance_of_cons h rfl
  rw [Indexed.skipStatement, Computation.bind_of_ok hend, if_neg Bool.false_ne_true,
    Computation.bind_of_ok hprevious]
  by_cases hsemicolon : last.kind = .semicolon
  · rw [if_pos hsemicolon, if_pos (by simp [hsemicolon])]
    rfl
  · rw [if_neg hsemicolon, Computation.bind_of_ok hpeek]
    by_cases hstarter : Parser.isStarter t.kind = true
    · rw [if_pos hstarter, if_pos (by simp [hstarter])]
      rfl
    · rw [if_neg hstarter, Computation.bind_of_ok hadvance,
        if_neg (by simp [hsemicolon, hstarter])]

/-- By induction on the rounds: the same tokens are skipped, if there are rounds enough. -/
theorem Indexed.skipStatement_of_stands {rounds : Nat} {last : Token} {rest : List Token}
    (h : Parser.State.Stands tokens { s with rest } c)
    (hlast : tokens[c.position - 1]? = some last) (hrounds : rest.length ≤ rounds) :
    ∃ c', Indexed.skipStatement tokens rounds c = .ok () c' ∧
      Parser.State.Stands tokens { s with rest := Parser.skipStatement last rest } c' := by
  induction rounds generalizing rest c last with
  | zero =>
    obtain rfl : rest = [] := List.length_eq_zero_iff.1 (Nat.le_zero.1 hrounds)
    exact ⟨c, rfl, h⟩
  | succ rounds ih =>
    cases rest with
    | nil =>
      unfold Indexed.skipStatement
      rw [Computation.bind_of_ok (Indexed.atEnd_of_stands h)]
      exact ⟨c, rfl, h⟩
    | cons t rest =>
      rw [Indexed.skipStatement_succ h hlast, Parser.skipStatement]
      by_cases hdone : (last.kind = .semicolon || Parser.isStarter t.kind) = true
      · rw [if_pos hdone, if_pos hdone]
        exact ⟨c, rfl, h⟩
      · rw [if_neg hdone, if_neg hdone]
        -- The token stepped over is the one before the new position.
        obtain ⟨hstep, htoken⟩ := h.step rfl
        exact ih hstep htoken (Nat.le_of_succ_le_succ hrounds)

theorem Indexed.synchronize_of_stands (h : s.Stands tokens c) :
    ∃ c', Indexed.synchronize tokens c = .ok () c' ∧
      Parser.State.Stands tokens { s with rest := Parser.synchronize s.rest } c' := by
  have hlength : s.rest.length ≤ tokens.length := by
    obtain ⟨passed, later, htokens, -, -⟩ := h.split
    rw [htokens]
    simp only [List.length_append]
    omega
  cases hrest : s.rest with
  | nil =>
    have hsame : Parser.State.Stands tokens { s with rest := [] } c := hrest ▸ h
    obtain ⟨t, hadvance⟩ := Indexed.advance_of_nil h hrest
    obtain ⟨last, hlast⟩ := h.exists_previous
    obtain ⟨c', hskip, hstands⟩ :=
      Indexed.skipStatement_of_stands hsame hlast (Nat.zero_le tokens.length)
    refine ⟨c', ?_, hstands⟩
    calc Indexed.synchronize tokens c
      _ = Indexed.skipStatement tokens tokens.length c := Computation.bind_of_ok hadvance
      _ = .ok () c' := hskip
  | cons t rest =>
    rw [hrest] at hlength
    obtain ⟨hstep, htoken⟩ := h.step hrest
    obtain ⟨c', hskip, hstands⟩ :=
      Indexed.skipStatement_of_stands hstep htoken (Nat.le_of_succ_le hlength)
    refine ⟨c', ?_, hstands⟩
    calc Indexed.synchronize tokens c
      _ = Indexed.skipStatement tokens tokens.length { c with position := c.position + 1 } :=
        Computation.bind_of_ok (Indexed.advance_of_cons h hrest)
      _ = .ok () c' := hskip

/-- How a rule and a program on a vector end alike. -/
abbrev Indexed.Alike {α : Type} (tokens : List Token) :
    EStateM.Result SyntaxError Parser.State α → EStateM.Result Escape Place α → Prop :=
  Computation.Alike (Parser.State.Stands tokens) (fun e escape ↦ escape = .syntaxError e) Eq

theorem Indexed.check_of_stands (h : s.Stands tokens c) (kind : Kind) :
    Indexed.Alike tokens (Parser.check kind s) (Indexed.check tokens kind c) := by
  have hpeek := Indexed.peek_of_stands h
  have hend := Indexed.atEnd_of_stands h
  unfold Parser.check
  rw [Computation.get_bind]
  cases hrest : s.rest with
  | nil =>
    rw [hrest] at hend
    have hcheck : Indexed.check tokens kind c = .ok false c := Computation.bind_of_ok hend
    rw [hcheck]
    exact .ok rfl h
  | cons t rest =>
    rw [hrest, List.isEmpty_cons] at hend
    rw [hrest, List.headD_cons] at hpeek
    rw [Indexed.check, Computation.bind_of_ok hend, if_neg Bool.false_ne_true,
      Computation.bind_of_ok hpeek]
    exact .ok rfl h

theorem Indexed.acceptIf_of_stands (h : s.Stands tokens c) (wanted : Kind → Bool) :
    Indexed.Alike tokens (Parser.acceptIf wanted s) (Indexed.acceptIf tokens wanted c) := by
  have hpeek := Indexed.peek_of_stands h
  have hend := Indexed.atEnd_of_stands h
  unfold Parser.acceptIf
  cases hrest : s.rest with
  | nil =>
    rw [hrest] at hend
    have haccept : Indexed.acceptIf tokens wanted c = .ok none c := Computation.bind_of_ok hend
    rw [haccept]
    exact .ok rfl h
  | cons t rest =>
    rw [hrest, List.isEmpty_cons] at hend
    rw [hrest, List.headD_cons] at hpeek
    rw [Indexed.acceptIf, Computation.bind_of_ok hend, if_neg Bool.false_ne_true,
      Computation.bind_of_ok hpeek]
    dsimp only
    by_cases hwanted : wanted t.kind = true
    · rw [if_pos hwanted, if_pos hwanted,
        Computation.bind_of_ok (Indexed.advance_of_cons h hrest)]
      exact .ok rfl (h.step hrest).1
    · rw [if_neg hwanted, if_neg hwanted]
      exact .ok rfl h

theorem Indexed.recover_of_stands {α : Type} {p : Parser α} {q : EStateM Escape Place α}
    (hends : Indexed.Alike tokens (p s) (q c)) :
    Indexed.Alike tokens (Parser.recover p s) (Indexed.recover tokens q c) := by
  unfold Parser.recover Indexed.recover
  generalize p s = r at hends ⊢
  generalize q c = r' at hends ⊢
  cases hends with
  | ok ha ht => exact .ok (congrArg some ha) ht
  | @error e escape t c' he ht =>
    subst he
    obtain ⟨c'', hsynchronize, hstands⟩ := Indexed.synchronize_of_stands (ht.note e)
    dsimp only
    rw [Computation.bind_of_ok hsynchronize]
    exact .ok rfl hstands

end Primitives

/-! ### Programs and expressions -/

/-- From where a rule stands, its program does what the rule does, and no index is outside. -/
theorem Indexes.related {α : Type} {p : Parser α} {q : Indexed α} (h : Indexes p q)
    (tokens : List Token) :
    Computation.Related (Parser.State.Stands tokens) (fun e escape ↦ escape = .syntaxError e) Eq p
      (q tokens) := by
  induction h with
  | pure a => exact .pure rfl
  | throw e => exact .throw rfl
  | bind _ _ hp hf =>
    refine .bind hp fun a a' ha ↦ ?_
    subst ha
    exact hf a
  | peek =>
    intro s c hs
    rw [Indexed.peek_of_stands hs]
    exact .ok rfl hs
  | atEnd =>
    intro s c hs
    rw [Indexed.atEnd_of_stands hs]
    exact .ok rfl hs
  | check kind => exact fun s c hs ↦ Indexed.check_of_stands hs kind
  | acceptIf wanted => exact fun s c hs ↦ Indexed.acceptIf_of_stands hs wanted
  | note token fault => exact fun s c hs ↦ .ok rfl (hs.note ⟨token, fault⟩)
  | freshId =>
    intro s c hs
    exact .ok hs.nextId ⟨hs.split, hs.rest, hs.stop, congrArg (· + 1) hs.nextId, hs.errors⟩
  | recover _ hp => exact fun s c hs ↦ Indexed.recover_of_stands (hp s c hs)

namespace Parser

theorem length_synchronize_le (tokens : List Token) :
    (synchronize tokens).length ≤ tokens.length := by
  cases tokens with
  | nil => exact Nat.le_refl _
  | cons t rest => exact Nat.le_succ_of_le (length_synchronize_cons_le t rest)

/-- However a rule ends, the tokens left are no more than before. -/
abbrev Shrinks {α : Type} (p : Parser α) : Prop :=
  Computation.Moves (fun s t ↦ t.rest.length ≤ s.rest.length) p

theorem shrinks_acceptIf (wanted : Kind → Bool) : Shrinks (acceptIf wanted) := by
  intro s
  rcases acceptIf_cases wanted s with ⟨-, hnone⟩ | ⟨t, rest, hrest, -, hsome⟩
  · rw [hnone]
  · rw [hsome]
    dsimp only
    rw [hrest]
    exact Nat.le_succ _

theorem Shrinks.recover {α : Type} {p : Parser α} (h : Shrinks p) : Shrinks (recover p) := by
  intro s
  unfold Parser.recover
  cases hp : p s with
  | ok a t => exact h.of_ok hp
  | error e t => exact Nat.le_trans (length_synchronize_le t.rest) (h.of_error hp)

end Parser

theorem Indexes.shrinks {α : Type} {p : Parser α} {q : Indexed α} (h : Indexes p q) :
    Parser.Shrinks p := by
  have hrefl : ∀ s : Parser.State, s.rest.length ≤ s.rest.length := fun s ↦ Nat.le_refl _
  induction h with
  | pure a => exact .pure hrefl a
  | throw e => exact .throw hrefl e
  | bind _ _ hp hf => exact .bind (fun hst htu ↦ Nat.le_trans htu hst) hp hf
  | peek => exact hrefl
  | atEnd => exact hrefl
  | check kind =>
    intro s
    unfold Parser.check
    rw [Computation.get_bind]
    cases s.rest with
    | nil => exact hrefl s
    | cons t rest => exact hrefl s
  | acceptIf wanted => exact Parser.shrinks_acceptIf wanted
  | note token fault => exact hrefl
  | freshId => exact hrefl
  | recover _ hp => exact hp.recover

/-- A rule that is a program on a vector. -/
def Parser.Indexable {α : Type} (p : Parser α) : Prop :=
  ∃ q, Indexes p q

namespace Parser.Indexable

variable {α β : Type}

theorem pure (a : α) : Indexable (Pure.pure a : Parser α) :=
  ⟨_, .pure a⟩

theorem bind {p : Parser α} {f : α → Parser β} (hp : Indexable p) (hf : ∀ a, Indexable (f a)) :
    Indexable (p >>= f) := by
  obtain ⟨q, hq⟩ := hp
  choose g hg using hf
  exact ⟨_, .bind hq hg⟩

theorem map (f : α → β) {p : Parser α} (hp : Indexable p) : Indexable (f <$> p) := by
  rw [map_eq_pure_bind]
  exact hp.bind fun a ↦ pure (f a)

theorem ite {p p' : Parser α} {b : Bool} (hp : Indexable p) (hp' : Indexable p') :
    Indexable (if b = true then p else p') := by
  cases b with
  | true => exact hp
  | false => exact hp'

theorem acceptIf (wanted : Kind → Bool) : Indexable (Parser.acceptIf wanted) :=
  ⟨_, .acceptIf wanted⟩

theorem check (kind : Kind) : Indexable (Parser.check kind) :=
  ⟨_, .check kind⟩

theorem atEnd : Indexable Parser.atEnd :=
  ⟨_, .atEnd⟩

theorem note (token : Token) (fault : SyntaxFault) : Indexable (Parser.note token fault) :=
  ⟨_, .note token fault⟩

theorem freshId : Indexable Parser.freshId :=
  ⟨_, .freshId⟩

theorem fail (fault : SyntaxFault) : Indexable (Parser.fail fault : Parser α) :=
  ⟨_, .bind .peek fun _ ↦ .throw _⟩

theorem recover {p : Parser α} (hp : Indexable p) : Indexable (Parser.recover p) := by
  obtain ⟨q, hq⟩ := hp
  exact ⟨_, .recover hq⟩

theorem accept (kind : Kind) : Indexable (Parser.accept kind) :=
  (acceptIf _).bind fun _ ↦ pure _

theorem expect (kind : Kind) (fault : SyntaxFault) : Indexable (Parser.expect kind fault) := by
  refine (acceptIf _).bind fun o ↦ ?_
  cases o with
  | some t => exact pure t
  | none => exact fail fault

theorem manyUntil {done : Parser Bool} {item : Parser α} (hdone : Indexable done)
    (hitem : Indexable item) (bound : Nat) : Indexable (Parser.manyUntil done item bound) := by
  induction bound with
  | zero => exact pure []
  | succ bound ih =>
    refine hdone.bind fun b ↦ ite (pure []) ?_
    exact hitem.bind fun _ ↦ ih.bind fun _ ↦ pure _

theorem limited {item : Parser α} (hitem : Indexable item) (fault : SyntaxFault) (index : Nat) :
    Indexable (Parser.limited fault item index) := by
  have hpeek : Indexable Parser.peek := ⟨_, .peek⟩
  unfold Parser.limited
  split
  · exact hpeek.bind fun t ↦ (note t fault).bind fun _ ↦ hitem
  · exact hitem

theorem commaSeparated {item : Nat → Parser α} (hitem : ∀ index, Indexable (item index))
    (bound : Nat) : ∀ index, Indexable (Parser.commaSeparated item bound index) := by
  induction bound with
  | zero => exact fun index ↦ (hitem index).bind fun _ ↦ pure _
  | succ bound ih =>
    intro index
    refine (hitem index).bind fun _ ↦ (accept .comma).bind fun b ↦ ite ?_ (pure _)
    exact (ih (index + 1)).bind fun _ ↦ pure _

theorem listed {item : Parser α} (hitem : Indexable item) (bound : Nat) (fault : SyntaxFault) :
    Indexable (Parser.listed bound fault item) :=
  (check .rightParen).bind fun _ ↦ ite (pure []) (commaSeparated (limited hitem fault) bound 0)

theorem chain (level : Level) {operand : Parser Expr} (hoperand : Indexable operand)
    (bound : Nat) : ∀ left, Indexable (Parser.chain level operand bound left) := by
  induction bound with
  | zero => exact fun left ↦ pure left
  | succ bound ih =>
    intro left
    refine (acceptIf _).bind fun o ↦ ?_
    cases o with
    | none => exact pure left
    | some op => exact hoperand.bind fun right ↦ ih _

theorem operators {operand : Parser Expr} (hoperand : Indexable operand) (bound : Nat)
    (levels : List Level) : Indexable (Parser.operators bound operand levels) := by
  induction levels with
  | nil => exact hoperand
  | cons level tighter ih => exact ih.bind fun left ↦ chain level ih bound left

section Nested

variable {nested : Parser Expr} (hnested : Indexable nested)

include hnested

theorem primary : Indexable (Parser.primary nested) := by
  refine (acceptIf _).bind fun o ↦ ?_
  cases o with
  | none => exact fail _
  | some token =>
    dsimp only
    unfold Parser.primaryAfter
    split
    · exact pure _
    · exact pure _
    · exact pure _
    · exact pure _
    · exact pure _
    · exact freshId.bind fun _ ↦ pure _
    · exact freshId.bind fun _ ↦ pure _
    · refine (expect .dot _).bind fun _ ↦ ?_
      refine (expect .identifier _).bind fun method ↦ ?_
      exact freshId.bind fun id ↦ pure _
    · exact hnested.bind fun _ ↦ (expect _ _).bind fun _ ↦ pure _

theorem arguments (bound : Nat) : Indexable (Parser.arguments bound nested) :=
  (listed hnested bound _).bind fun _ ↦ (expect _ _).bind fun _ ↦ pure _

theorem suffixes (bound rounds : Nat) :
    ∀ e, Indexable (Parser.suffixes bound nested rounds e) := by
  induction rounds with
  | zero => exact fun e ↦ pure e
  | succ rounds ih =>
    intro e
    refine (accept .leftParen).bind fun b ↦ ite ?_ ?_
    · exact (arguments hnested bound).bind fun a ↦ ih _
    · refine (accept .dot).bind fun b ↦ ite ?_ (pure e)
      exact (expect _ _).bind fun name ↦ ih _

omit hnested in
theorem signs {operand : Parser Expr} (hoperand : Indexable operand) (bound : Nat) :
    Indexable (Parser.signs operand bound) := by
  induction bound with
  | zero => exact hoperand
  | succ bound ih =>
    refine (acceptIf _).bind fun o ↦ ?_
    cases o with
    | none => exact hoperand
    | some op => exact ih.bind fun _ ↦ pure _

omit hnested in
theorem assignTo (target : Expr) (equals : Token) (value : Expr) :
    Indexable (Parser.assignTo target equals value) := by
  unfold Parser.assignTo
  split
  · exact freshId.bind fun _ ↦ pure _
  · exact pure _
  · exact (note equals _).bind fun _ ↦ pure _

theorem operation (bound : Nat) : Indexable (Parser.operation bound nested) := by
  have hcall : Indexable (do Parser.suffixes bound nested bound (← Parser.primary nested)) :=
    (primary hnested).bind fun e ↦ suffixes hnested bound bound e
  exact operators (signs hcall bound) bound levels

theorem assignment (bound : Nat) : Indexable (Parser.assignment bound nested) := by
  refine (operation hnested bound).bind fun target ↦ (acceptIf _).bind fun o ↦ ?_
  cases o with
  | none => exact pure target
  | some equals => exact hnested.bind fun value ↦ assignTo target equals value

end Nested

theorem expression (bound : Nat) : Indexable (Parser.expression bound) := by
  induction bound with
  | zero => exact fail _
  | succ bound ih => exact assignment ih (bound + 1)

/-! ### Statements -/

theorem optionalExpression (bound : Nat) (closing : Kind) :
    Indexable (Parser.optionalExpression bound closing) :=
  (check closing).bind fun _ ↦ ite (pure none) ((expression bound).bind fun _ ↦ pure _)

theorem initialValue (bound : Nat) : Indexable (Parser.initialValue bound) :=
  (accept .equal).bind fun _ ↦ ite ((expression bound).bind fun _ ↦ pure _) (pure none)

theorem variableDeclaration (bound : Nat) : Indexable (Parser.variableDeclaration bound) := by
  refine (expect .identifier _).bind fun name ↦ ?_
  refine (initialValue bound).bind fun initializer ↦ ?_
  exact (expect .semicolon _).bind fun _ ↦ pure _

theorem expressionStatement (bound : Nat) : Indexable (Parser.expressionStatement bound) :=
  (expression bound).bind fun _ ↦ (expect _ _).bind fun _ ↦ pure _

theorem blockEnd : Indexable Parser.blockEnd :=
  atEnd.bind fun _ ↦ (check .rightBrace).bind fun _ ↦ pure _

theorem forInitializer (bound : Nat) : Indexable (Parser.forInitializer bound) := by
  refine (accept .semicolon).bind fun _ ↦ ite (pure none) ?_
  refine (accept .varWord).bind fun _ ↦ ite ?_ ?_
  · exact (variableDeclaration bound).bind fun _ ↦ pure _
  · exact (expressionStatement bound).bind fun _ ↦ pure _

theorem superclass : Indexable Parser.superclass := by
  refine (accept .less).bind fun _ ↦ ite ?_ (pure none)
  exact (expect _ _).bind fun _ ↦ freshId.bind fun _ ↦ pure _

theorem printStatement (bound : Nat) : Indexable (Parser.printStatement bound) :=
  (expression bound).bind fun _ ↦ (expect _ _).bind fun _ ↦ pure _

theorem returnStatement (bound : Nat) (keyword : Token) :
    Indexable (Parser.returnStatement bound keyword) :=
  (optionalExpression bound _).bind fun _ ↦ (expect _ _).bind fun _ ↦ pure _

theorem jump (inLoop : Bool) (keyword : Token) (stray missingEnd : SyntaxFault)
    (node : Token → Stmt) : Indexable (Parser.jump inLoop keyword stray missingEnd node) := by
  have hend : Indexable (do let _ ← Parser.expect .semicolon missingEnd; return node keyword) :=
    (expect _ _).bind fun _ ↦ pure _
  cases inLoop with
  | true => exact hend
  | false => exact (note keyword stray).bind fun _ ↦ hend

section Bodies

variable {statement : Bool → Parser Stmt} {declaration : Bool → Parser (Option Stmt)}
  (hstatement : ∀ inLoop, Indexable (statement inLoop))
  (hdeclaration : ∀ inLoop, Indexable (declaration inLoop))

include hdeclaration

theorem block (bound : Nat) (inLoop : Bool) :
    Indexable (Parser.block bound (declaration inLoop)) :=
  (manyUntil blockEnd (hdeclaration inLoop) bound).bind fun _ ↦ (expect _ _).bind fun _ ↦ pure _

theorem routine (bound : Nat) (kind : RoutineKind) :
    Indexable (Parser.routine bound kind declaration) := by
  have hparams := listed (expect .identifier .expectParameterName) bound .tooManyParameters
  refine (expect .identifier _).bind fun name ↦ ?_
  refine (expect .leftParen _).bind fun _ ↦ ?_
  refine hparams.bind fun params ↦ ?_
  refine (expect .rightParen _).bind fun _ ↦ ?_
  refine (expect .leftBrace _).bind fun _ ↦ ?_
  exact (block hdeclaration bound false).bind fun body ↦ pure _

theorem classDeclaration (bound : Nat) : Indexable (Parser.classDeclaration bound declaration) := by
  have hmethods := manyUntil blockEnd (routine hdeclaration bound .method) bound
  refine (expect .identifier _).bind fun name ↦ ?_
  refine superclass.bind fun superclass ↦ ?_
  refine (expect .leftBrace _).bind fun _ ↦ ?_
  refine hmethods.bind fun methods ↦ ?_
  exact (expect .rightBrace _).bind fun _ ↦ pure _

theorem declarationAfter (bound : Nat) (token : Token) :
    Indexable (Parser.declarationAfter bound declaration token) := by
  unfold Parser.declarationAfter
  split
  · exact classDeclaration hdeclaration bound
  · exact (routine hdeclaration bound _).map _
  · exact variableDeclaration bound

include hstatement
omit hdeclaration

theorem forStatement (bound : Nat) (inLoop : Bool) :
    Indexable (Parser.forStatement bound (statement inLoop)) := by
  refine (expect .leftParen _).bind fun _ ↦ ?_
  refine (forInitializer bound).bind fun initializer ↦ ?_
  refine (optionalExpression bound .semicolon).bind fun condition ↦ ?_
  refine (expect .semicolon _).bind fun _ ↦ ?_
  refine (optionalExpression bound .rightParen).bind fun increment ↦ ?_
  refine (expect .rightParen _).bind fun _ ↦ ?_
  exact (hstatement inLoop).bind fun body ↦ pure _

theorem ifStatement (bound : Nat) (inLoop : Bool) :
    Indexable (Parser.ifStatement bound (statement inLoop)) := by
  refine (expect .leftParen _).bind fun _ ↦ ?_
  refine (expression bound).bind fun condition ↦ ?_
  refine (expect .rightParen _).bind fun _ ↦ ?_
  refine (hstatement inLoop).bind fun thenBranch ↦ ?_
  refine (accept .elseWord).bind fun _ ↦ ite ?_ (pure _)
  exact (hstatement inLoop).bind fun elseBranch ↦ pure _

theorem whileStatement (bound : Nat) (inLoop : Bool) :
    Indexable (Parser.whileStatement bound (statement inLoop)) := by
  refine (expect .leftParen _).bind fun _ ↦ ?_
  refine (expression bound).bind fun condition ↦ ?_
  refine (expect .rightParen _).bind fun _ ↦ ?_
  exact (hstatement inLoop).bind fun body ↦ pure _

include hdeclaration

theorem statementAfter (bound : Nat) (inLoop : Bool) (token : Token) :
    Indexable (Parser.statementAfter bound statement declaration inLoop token) := by
  unfold Parser.statementAfter
  split
  · exact forStatement hstatement bound true
  · exact ifStatement hstatement bound inLoop
  · exact printStatement bound
  · exact returnStatement bound token
  · exact whileStatement hstatement bound true
  · exact (block hdeclaration bound inLoop).map _
  · exact jump inLoop token _ _ _
  · exact jump inLoop token _ _ _

end Bodies

/-- By induction on the bound: every rule is a program on a vector. -/
theorem declaration_and_statement (bound : Nat) :
    (∀ inLoop, Indexable (Parser.declaration bound inLoop)) ∧
      ∀ inLoop, Indexable (Parser.statement bound inLoop) := by
  induction bound with
  | zero =>
    refine ⟨fun inLoop ↦ ?_, fun inLoop ↦ ?_⟩
    · rw [Parser.declaration]
      exact (fail _).recover
    · rw [Parser.statement]
      exact fail _
  | succ bound ih =>
    obtain ⟨hdeclaration, hstatement⟩ := ih
    refine ⟨fun inLoop ↦ ?_, fun inLoop ↦ ?_⟩
    · rw [Parser.declaration]
      refine ((acceptIf _).bind fun o ↦ ?_).recover
      cases o with
      | none => exact hstatement inLoop
      | some token => exact declarationAfter hdeclaration bound token
    · rw [Parser.statement]
      refine (acceptIf _).bind fun o ↦ ?_
      cases o with
      | none => exact expressionStatement bound
      | some token => exact statementAfter hstatement hdeclaration bound inLoop token

/-- A rule that is a program on a vector never gives tokens back. -/
theorem shrinks {p : Parser α} (h : Indexable p) : Shrinks p := by
  obtain ⟨q, hq⟩ := h
  exact hq.shrinks

end Parser.Indexable

end Lox
