import Lox.Proofs.Parser.Bounds
import Lox.Proofs.Parser.Likeness
import Mathlib.Data.List.TakeWhile

/-!
# Reading ends, within the tokens

Any vector of tokens is read, with an end token behind it if it does not end with one.  Reading ends
whatever the tokens are, looks at no index outside the vector, takes a token with every declaration,
and sees nothing behind the first end token.
-/

namespace Lox.Parser

/-- The vector that is read: an end token is added behind tokens that do not end with one. -/
def closed (tokens : List Token) : List Token :=
  if tokens.getLast?.any (·.kind = .endOfInput) then tokens
  else tokens ++ [⟨.endOfInput, "", (tokens.getLast?.map (·.line)).getD 1, 0⟩]

/-- The index of the first end token. -/
def firstEnd (tokens : List Token) : Nat :=
  tokens.findIdx (·.kind = .endOfInput)

/-- The tokens up to the first end token, which is the last of them. -/
def upToEnd (tokens : List Token) : List Token :=
  tokens.take (firstEnd tokens + 1)

variable {tokens : List Token} {s : State} {c : Place}

theorem firstEnd_append {passed later : List Token} {stop : Token}
    (hpassed : ∀ t ∈ passed, t.kind ≠ .endOfInput) (hstop : stop.kind = .endOfInput) :
    firstEnd (passed ++ stop :: later) = passed.length := by
  unfold firstEnd
  induction passed with
  | nil => simp [List.findIdx_cons, hstop]
  | cons t passed ih =>
    rw [List.forall_mem_cons] at hpassed
    rw [List.cons_append, List.findIdx_cons, decide_eq_false hpassed.1, ih hpassed.2]
    rfl

theorem upToEnd_append {passed later : List Token} {stop : Token}
    (hpassed : ∀ t ∈ passed, t.kind ≠ .endOfInput) (hstop : stop.kind = .endOfInput) :
    upToEnd (passed ++ stop :: later) = passed ++ [stop] := by
  rw [upToEnd, firstEnd_append hpassed hstop, List.take_length_add_append]
  rfl

theorem State.start_append (n : NodeId) {rest : List Token} (later : List Token) {stop : Token}
    (hrest : ∀ t ∈ rest, t.kind ≠ .endOfInput) (hstop : stop.kind = .endOfInput) :
    State.start n (rest ++ stop :: later) = ⟨rest, stop, n, #[]⟩ := by
  have htaken : (rest ++ stop :: later).takeWhile (·.kind ≠ .endOfInput) = rest := by
    rw [List.takeWhile_append_of_pos fun t ht ↦ decide_eq_true (hrest t ht),
      List.takeWhile_cons_of_neg (by simpa using hstop), List.append_nil]
  have hfind : (rest ++ stop :: later).find? (·.kind = .endOfInput) = some stop := by
    rw [List.find?_eq_some_iff_append]
    exact ⟨decide_eq_true hstop, rest, later, rfl, fun t ht ↦ by simpa using hrest t ht⟩
  unfold State.start stopOf
  rw [htaken, hfind]
  rfl

theorem State.kind_of_mem_start (n : NodeId) (tokens : List Token) :
    ∀ t ∈ (State.start n tokens).rest, t.kind ≠ .endOfInput := by
  intro t ht
  have htaken : t ∈ tokens.takeWhile (·.kind ≠ .endOfInput) := ht
  have hkind := List.mem_takeWhile_imp htaken
  exact of_decide_eq_true hkind

theorem kind_stopOf (tokens : List Token) : (stopOf tokens).kind = .endOfInput := by
  unfold stopOf
  cases hfind : tokens.find? (·.kind = .endOfInput) with
  | some stop =>
    have hkind := List.find?_some hfind
    exact of_decide_eq_true hkind
  | none => rfl

/-- The vector starts with the tokens in front of the first end token and that token. -/
theorem exists_closed_eq (n : NodeId) (tokens : List Token) :
    ∃ later, closed tokens = (State.start n tokens).rest ++ stopOf tokens :: later := by
  cases hfind : tokens.find? (·.kind = .endOfInput) with
  | some stop =>
    obtain ⟨hstop, passed, later, rfl, hpassed⟩ := List.find?_eq_some_iff_append.1 hfind
    have hkinds : ∀ t ∈ passed, t.kind ≠ .endOfInput := fun t ht ↦ by simpa using hpassed t ht
    have hstart := State.start_append n later hkinds (of_decide_eq_true hstop)
    change ∃ later, _ = (State.start n _).rest ++ (State.start n _).stop :: later
    rw [hstart]
    unfold closed
    split
    · exact ⟨later, rfl⟩
    · exact ⟨later ++ [_], List.append_assoc ..⟩
  | none =>
    -- Nothing ends the tokens, so the last one does not, and an end token is added.
    have hkinds : ∀ t ∈ tokens, t.kind ≠ .endOfInput := by
      simpa using hfind
    have hrest : tokens.takeWhile (·.kind ≠ .endOfInput) = tokens := by
      rw [List.takeWhile_eq_self_iff]
      exact fun t ht ↦ decide_eq_true (hkinds t ht)
    have hlast : tokens.getLast?.any (·.kind = .endOfInput) = false := by
      rw [Option.any_eq_false]
      exact fun t ht ↦ decide_eq_false (hkinds t (List.mem_of_getLast? ht))
    unfold State.start stopOf closed
    rw [hrest, hlast, hfind]
    exact ⟨[], rfl⟩

theorem State.stands_start (n : NodeId) (tokens : List Token) :
    (State.start n tokens).Stands (closed tokens) ⟨0, n, #[]⟩ := by
  obtain ⟨later, hclosed⟩ := exists_closed_eq n tokens
  exact ⟨⟨[], later, hclosed, rfl, List.forall_mem_nil _⟩, State.kind_of_mem_start n tokens,
    kind_stopOf tokens, rfl, rfl⟩

theorem State.Stands.position_add (h : s.Stands tokens c) :
    c.position + s.rest.length = firstEnd tokens := by
  obtain ⟨passed, later, htokens, hposition, hpassed⟩ := h.split
  have hkinds : ∀ t ∈ passed ++ s.rest, t.kind ≠ .endOfInput :=
    List.forall_mem_append.2 ⟨hpassed, h.rest⟩
  calc c.position + s.rest.length
    _ = (passed ++ s.rest).length := by rw [List.length_append, hposition]
    _ = firstEnd (passed ++ s.rest ++ s.stop :: later) := (firstEnd_append hkinds h.stop).symm
    _ = firstEnd tokens := by rw [htokens, List.append_assoc]

/-- At every place in front of the first end token or at it some state stands. -/
theorem exists_stands (tokens : List Token) (hc : c.position ≤ firstEnd (closed tokens)) :
    ∃ s : State, s.Stands (closed tokens) c := by
  obtain ⟨later, hclosed⟩ := exists_closed_eq 0 tokens
  have hkinds := State.kind_of_mem_start 0 tokens
  generalize (State.start 0 tokens).rest = passed at hclosed hkinds
  rw [hclosed, firstEnd_append hkinds (kind_stopOf tokens)] at hc
  refine ⟨⟨passed.drop c.position, stopOf tokens, c.nextId, c.errors⟩,
    ⟨passed.take c.position, later, ?_, List.length_take_of_le hc, ?_⟩, ?_, kind_stopOf tokens,
    rfl, rfl⟩
  · rw [hclosed, ← List.append_assoc, List.take_append_drop]
  · exact fun t ht ↦ hkinds t (List.mem_of_mem_take ht)
  · exact fun t ht ↦ hkinds t (List.mem_of_mem_drop ht)

/-- Declarations are read until no token is left, if there are rounds enough. -/
theorem manyUntil_declaration (bound : Nat) (inLoop : Bool) {rounds : Nat}
    (hrounds : s.rest.length ≤ rounds) :
    ∃ os t, manyUntil atEnd (declaration bound inLoop) rounds s = .ok os t ∧ t.rest = [] := by
  induction rounds generalizing s with
  | zero =>
    exact ⟨[], s, rfl, List.length_eq_zero_iff.1 (Nat.le_zero.1 hrounds)⟩
  | succ rounds ih =>
    have hend : atEnd s = .ok s.rest.isEmpty s := rfl
    unfold manyUntil
    rw [Computation.bind_of_ok hend]
    cases hrest : s.rest with
    | nil => exact ⟨[], s, rfl, hrest⟩
    | cons token rest =>
      have hne : s.rest ≠ [] := hrest ▸ List.cons_ne_nil token rest
      obtain ⟨o, t, hdeclaration, hlt⟩ := declaration_advances bound inLoop hne
      obtain ⟨os, u, hmany, hnil⟩ := ih (Nat.le_of_lt_succ (Nat.lt_of_lt_of_le hlt hrounds))
      refine ⟨o :: os, u, ?_, hnil⟩
      rw [List.isEmpty_cons, if_neg Bool.false_ne_true, Computation.bind_of_ok hdeclaration]
      exact Computation.bind_of_ok hmany

theorem length_start (n : NodeId) (tokens : List Token) :
    (State.start n tokens).rest.length = firstEnd (closed tokens) := by
  have hposition := (State.stands_start n tokens).position_add
  rwa [Nat.zero_add] at hposition

/-- A program is read in the same way with all bounds that are large enough. -/
theorem readProgram_eq_of_manyUntil {n : NodeId} {bound rounds : Nat}
    (hbound : 2 * (State.start n tokens).rest.length + 1 ≤ bound)
    (hrounds : (State.start n tokens).rest.length ≤ rounds) {os : List (Option Stmt)} {t : State}
    (hmany : manyUntil atEnd (declaration bound false) rounds (.start n tokens) = .ok os t) :
    readProgram n tokens = ⟨os.reduceOption, t.errors.toList, t.nextId⟩ := by
  have hend : ∀ s : State, ∃ b, atEnd s = .ok b s ∧ (s.rest = [] → b = true) :=
    fun s ↦ ⟨_, rfl, fun hrest ↦ List.isEmpty_iff.2 hrest⟩
  -- The bounds of the reading itself are the least of those for which the rules agree.
  have hitem : Agree (State.start n tokens).rest.length
      (declaration (2 * (State.start n tokens).rest.length + 1) false) (declaration bound false) :=
    (Agree.statement_and_declaration _).2 false (Nat.le_refl _) hbound
  have hagree := hitem.manyUntil hend (fun _ _ _ ↦ lt_of_declaration) (Nat.le_refl _) hrounds
  unfold readProgram
  dsimp only
  rw [hagree _ (Nat.le_refl _), hmany]

/-- A program is read to the end of the tokens. -/
theorem exists_readProgram_eq (n : NodeId) {bound : Nat}
    (hbound : 2 * firstEnd (closed tokens) + 1 ≤ bound) :
    ∃ os t, manyUntil atEnd (declaration bound false) bound (.start n tokens) = .ok os t ∧
      t.rest = [] ∧ readProgram n tokens = ⟨os.reduceOption, t.errors.toList, t.nextId⟩ := by
  rw [← length_start n tokens] at hbound
  have hrounds : (State.start n tokens).rest.length ≤ bound := by omega
  obtain ⟨os, t, hmany, hnil⟩ := manyUntil_declaration bound false hrounds
  exact ⟨os, t, hmany, hnil, readProgram_eq_of_manyUntil hbound hrounds hmany⟩

/-- An expression is read in the same way with all larger bounds. -/
theorem exists_readExpression_eq (n : NodeId) {bound : Nat}
    (hbound : firstEnd (closed tokens) ≤ bound) :
    (∃ e t, expression bound (.start n tokens) = .ok e t ∧
      readExpression n tokens = ⟨some e, t.errors.toList, t.nextId⟩) ∨
    ∃ e t, expression bound (.start n tokens) = .error e t ∧
      readExpression n tokens = ⟨none, (t.errors.push e).toList, t.nextId⟩ := by
  rw [← length_start n tokens] at hbound
  have hagree := Agree.expression (Nat.le_refl _) hbound (.start n tokens) (Nat.le_refl _)
  unfold readExpression
  dsimp only
  rw [hagree]
  cases expression bound (.start n tokens) with
  | ok e t => exact .inl ⟨e, t, rfl, rfl⟩
  | error e t => exact .inr ⟨e, t, rfl, rfl⟩

theorem State.start_upToEnd (n : NodeId) (tokens : List Token) :
    State.start n (upToEnd (closed tokens)) = State.start n tokens := by
  obtain ⟨later, hclosed⟩ := exists_closed_eq n tokens
  have hkinds := State.kind_of_mem_start n tokens
  have hstop := kind_stopOf tokens
  rw [hclosed, upToEnd_append hkinds hstop, State.start_append n [] hkinds hstop]
  rfl

theorem readProgram_upToEnd (n : NodeId) (tokens : List Token) :
    readProgram n (upToEnd (closed tokens)) = readProgram n tokens := by
  unfold readProgram
  rw [State.start_upToEnd]

theorem readExpression_upToEnd (n : NodeId) (tokens : List Token) :
    readExpression n (upToEnd (closed tokens)) = readExpression n tokens := by
  unfold readExpression
  rw [State.start_upToEnd]

/-! ### Whole readings -/

theorem firstEnd_closed_lt (tokens : List Token) :
    firstEnd (closed tokens) < (closed tokens).length := by
  let last : Place := ⟨firstEnd (closed tokens), 0, #[]⟩
  have hlast : last.position ≤ firstEnd (closed tokens) := Nat.le_refl _
  obtain ⟨s, hs⟩ := exists_stands tokens hlast
  exact hs.position_lt

/-- As a program on the vector, reading a program ends at the first end token. -/
theorem program_ends (n : NodeId) {bound : Nat}
    (hbound : 2 * firstEnd (closed tokens) + 1 ≤ bound) {q : Indexed (List (Option Stmt))}
    (hq : Indexes (manyUntil atEnd (declaration bound false) bound) q) :
    ∃ os c, q (closed tokens) ⟨0, n, #[]⟩ = .ok os c ∧
      c.position = firstEnd (closed tokens) ∧
      readProgram n tokens = ⟨os.reduceOption, c.errors.toList, c.nextId⟩ := by
  obtain ⟨os, t, hmany, hnil, hread⟩ := exists_readProgram_eq n hbound
  have hends := hq.related (closed tokens) _ _ (State.stands_start n tokens)
  rw [hmany] at hends
  generalize q (closed tokens) ⟨0, n, #[]⟩ = r at hends ⊢
  cases hends with
  | @ok _ _ _ c hos hc =>
    subst hos
    have hposition := hc.position_add
    rw [hnil, List.length_nil, Nat.add_zero] at hposition
    rw [hc.errors, hc.nextId] at hread
    exact ⟨os, c, rfl, hposition, hread⟩

/-- As a program on the vector, reading an expression ends at the first end token or in front of
it. -/
theorem expression_ends (n : NodeId) {bound : Nat} (hbound : firstEnd (closed tokens) ≤ bound)
    {q : Indexed Expr} (hq : Indexes (expression bound) q) :
    (∃ e c, q (closed tokens) ⟨0, n, #[]⟩ = .ok e c ∧
      c.position ≤ firstEnd (closed tokens) ∧
      readExpression n tokens = ⟨some e, c.errors.toList, c.nextId⟩) ∨
    ∃ e c, q (closed tokens) ⟨0, n, #[]⟩ = .error (.syntaxError e) c ∧
      c.position ≤ firstEnd (closed tokens) ∧
      readExpression n tokens = ⟨none, (c.errors.push e).toList, c.nextId⟩ := by
  have hends := hq.related (closed tokens) _ _ (State.stands_start n tokens)
  rcases exists_readExpression_eq n hbound with
    ⟨e, t, hexpression, hread⟩ | ⟨e, t, hexpression, hread⟩
  · left
    rw [hexpression] at hends
    generalize q (closed tokens) ⟨0, n, #[]⟩ = r at hends ⊢
    cases hends with
    | @ok _ _ _ c he hc =>
      subst he
      rw [hc.errors, hc.nextId] at hread
      exact ⟨e, c, rfl, hc.position_add ▸ Nat.le_add_right _ _, hread⟩
  · right
    rw [hexpression] at hends
    generalize q (closed tokens) ⟨0, n, #[]⟩ = r at hends ⊢
    cases hends with
    | @error _ _ _ c he hc =>
      subst he
      rw [hc.errors, hc.nextId] at hread
      exact ⟨e, c, rfl, hc.position_add ▸ Nat.le_add_right _ _, hread⟩

/-- As a program on the vector, a declaration in front of the first end token takes a token and does
not pass the first end token. -/
theorem declaration_ends {bound : Nat} {inLoop : Bool} {q : Indexed (Option Stmt)}
    (hq : Indexes (declaration bound inLoop) q) (hc : c.position < firstEnd (closed tokens)) :
    ∃ o c', q (closed tokens) c = .ok o c' ∧ c.position < c'.position ∧
      c'.position ≤ firstEnd (closed tokens) := by
  -- The position grows by as much as the tokens still to be read become fewer.
  obtain ⟨s, hs⟩ := exists_stands tokens (Nat.le_of_lt hc)
  have hbefore := hs.position_add
  have hne : s.rest ≠ [] := by
    rw [← List.length_pos_iff]
    omega
  obtain ⟨o, t, hdeclaration, hlt⟩ := declaration_advances bound inLoop hne
  have hends := hq.related (closed tokens) _ _ hs
  rw [hdeclaration] at hends
  generalize q (closed tokens) c = r at hends ⊢
  cases hends with
  | @ok _ o' _ c' _ hc' =>
    have hafter := hc'.position_add
    exact ⟨o', c', rfl, by omega, by omega⟩

/-- Reading ends within the tokens, on any vector of tokens and with every bound that is large
enough.  As programs on the vector, the rules for programs and expressions look at no index outside
it.  A program is read exactly up to the first end token; every declaration in front of it takes a
token, whether it succeeds or not; and up to identifiers, what is read depends on the tokens up to
the first end token alone. -/
theorem reading_ends (n : NodeId) (tokens : List Token) :
    firstEnd (closed tokens) < (closed tokens).length ∧
      (∀ bound, 2 * firstEnd (closed tokens) + 1 ≤ bound →
        ∃ q, Indexes (manyUntil atEnd (declaration bound false) bound) q ∧
          ∃ os c, q (closed tokens) ⟨0, n, #[]⟩ = .ok os c ∧
            c.position = firstEnd (closed tokens) ∧
            readProgram n tokens = ⟨os.reduceOption, c.errors.toList, c.nextId⟩) ∧
      (∀ bound, firstEnd (closed tokens) ≤ bound →
        ∃ q, Indexes (expression bound) q ∧
          ((∃ e c, q (closed tokens) ⟨0, n, #[]⟩ = .ok e c ∧
              c.position ≤ firstEnd (closed tokens) ∧
              readExpression n tokens = ⟨some e, c.errors.toList, c.nextId⟩) ∨
            ∃ e c, q (closed tokens) ⟨0, n, #[]⟩ = .error (.syntaxError e) c ∧
              c.position ≤ firstEnd (closed tokens) ∧
              readExpression n tokens = ⟨none, (c.errors.push e).toList, c.nextId⟩)) ∧
      (∀ bound inLoop, ∃ q, Indexes (declaration bound inLoop) q ∧
        ∀ c : Place, c.position < firstEnd (closed tokens) →
          ∃ o c', q (closed tokens) c = .ok o c' ∧ c.position < c'.position ∧
            c'.position ≤ firstEnd (closed tokens)) ∧
      ∀ (n' : NodeId) (tokens' : List Token),
        upToEnd (closed tokens') = upToEnd (closed tokens) →
          Reading.Alike Eq (List.Forall₂ (Stmt.Similar Eq)) (readProgram n tokens)
            (readProgram n' tokens') ∧
          Reading.Alike Eq (Option.Rel (Expr.Similar Eq)) (readExpression n tokens)
            (readExpression n' tokens') := by
  refine ⟨firstEnd_closed_lt tokens, fun bound hbound ↦ ?_, fun bound hbound ↦ ?_,
    fun bound inLoop ↦ ?_, fun n' tokens' htokens ↦ ?_⟩
  · obtain ⟨q, hq⟩ := Indexable.manyUntil .atEnd
      ((Indexable.declaration_and_statement bound).1 false) bound
    exact ⟨q, hq, program_ends n hbound hq⟩
  · obtain ⟨q, hq⟩ := Indexable.expression bound
    exact ⟨q, hq, expression_ends n hbound hq⟩
  · obtain ⟨q, hq⟩ := (Indexable.declaration_and_statement bound).1 inLoop
    exact ⟨q, hq, fun c hc ↦ declaration_ends hq hc⟩
  · have hsame : List.Forall₂ Eq (upToEnd (closed tokens)) (upToEnd (closed tokens)) :=
      List.forall₂_same.2 fun t _ ↦ rfl
    constructor
    · rw [← readProgram_upToEnd n tokens, ← readProgram_upToEnd n' tokens', htokens]
      exact .readProgram Token.faithful_eq hsame rfl n n'
    · rw [← readExpression_upToEnd n tokens, ← readExpression_upToEnd n' tokens', htokens]
      exact .readExpression Token.faithful_eq hsame rfl n n'

/-- A bracket that starts no declaration is stepped over, and a word behind the end token is not
seen. -/
theorem reading_ends_at_bracket :
    (∃ q, Indexes (manyUntil atEnd (declaration 3 false) 3) q ∧
        ∃ os c, q [⟨.rightParen, ")", 1, 1⟩, ⟨.endOfInput, "", 1, 2⟩, ⟨.printWord, "print", 1, 3⟩,
            ⟨.endOfInput, "", 1, 0⟩] ⟨0, 0, #[]⟩ = .ok os c ∧ c.position = 1) ∧
      List.Forall₂ (SyntaxError.Alike Eq)
        (readProgram 0 [⟨.rightParen, ")", 1, 1⟩, ⟨.endOfInput, "", 1, 2⟩,
          ⟨.printWord, "print", 1, 3⟩]).errors
        (readProgram 7 [⟨.rightParen, ")", 1, 1⟩, ⟨.endOfInput, "", 1, 2⟩]).errors := by
  obtain ⟨-, hprogram, -, -, hsame⟩ := reading_ends 0 [⟨.rightParen, ")", 1, 1⟩,
    ⟨.endOfInput, "", 1, 2⟩, ⟨.printWord, "print", 1, 3⟩]
  constructor
  · obtain ⟨q, hq, os, c, hresult, hposition, -⟩ := hprogram 3 (by decide)
    exact ⟨q, hq, os, c, hresult, hposition⟩
  · exact (hsame 7 [⟨.rightParen, ")", 1, 1⟩, ⟨.endOfInput, "", 1, 2⟩] (by decide)).1.errors

end Lox.Parser
