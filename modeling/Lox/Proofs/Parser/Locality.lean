import Lox.Proofs.Parser.Termination
import Mathlib.Data.List.ReduceOption

/-!
# Recovery is local

Declarations without errors are read as they are, whatever follows them, and leave nothing behind
but the identifiers that they have used up.  So what follows is read as if it stood alone, with all
its errors and recoveries (`readProgram_append`).  The one exception is an `else`, which could still
belong to the last of the declarations.
-/

namespace Lox

open Grammar

namespace Parser

/-- Declarations that are derived are read one by one in front of any tokens but an `else`, and then
reading goes on with these. -/
theorem manyUntil_append {bound : Nat} {ts : List Token} {body : List Stmt}
    (h : Program true ts body) (hbound : 2 * ts.length + 1 ≤ bound) (n : NodeId) :
    ∃ os n', ∀ rest stop errors, Stops (· = .elseWord) rest →
      ∀ rounds os' t,
        manyUntil atEnd (declaration bound false) rounds ⟨rest, stop, n', errors⟩ = .ok os' t →
        manyUntil atEnd (declaration bound false) (body.length + rounds)
          ⟨ts ++ rest, stop, n, errors⟩ = .ok (os ++ os') t := by
  induction body generalizing ts n with
  | nil =>
    cases h with
    | nil =>
      refine ⟨[], n, fun rest stop errors _ rounds os' t hrest ↦ ?_⟩
      rw [List.length_nil, Nat.zero_add]
      exact hrest
  | cons s body ih =>
    cases h with
    | @cons _ dangling us vs _ _ hs hbody =>
      rw [List.length_append] at hbound
      obtain ⟨o, n₁, -, hfirst⟩ :=
        (Complete.declaration_and_statement bound).1 false dangling us s hs (by omega) n
      obtain ⟨os, n', hlater⟩ := ih hbody (by omega) n₁
      refine ⟨o :: os, n', fun rest stop errors hrest rounds os' t hmany ↦ ?_⟩
      -- Behind the first declaration there is another one or `rest`, and so no `else`.
      have hstops : Stops (· = .elseWord) (vs ++ rest) := by
        cases hbody with
        | nil => exact hrest
        | cons hnext _ =>
          rw [List.append_assoc]
          exact begins_eq_false_of_begins hnext.begins rfl _
      have hend : atEnd ⟨us ++ (vs ++ rest), stop, n, errors⟩ =
          .ok false ⟨us ++ (vs ++ rest), stop, n, errors⟩ := by
        have hne : us ++ (vs ++ rest) ≠ [] :=
          List.append_ne_nil_of_left_ne_nil (List.ne_nil_of_length_pos hs.length_pos) _
        change EStateM.Result.ok (us ++ (vs ++ rest)).isEmpty _ = _
        rw [List.isEmpty_eq_false_iff.2 hne]
      rw [List.length_cons, Nat.add_right_comm, manyUntil, List.append_assoc,
        Computation.bind_of_ok hend, if_neg Bool.false_ne_true,
        Computation.bind_of_ok (hfirst _ stop errors fun _ ↦ hstops)]
      exact Computation.bind_of_ok (hlater rest stop errors hrest rounds os' t hmany)

/-- A program without errors is read with any bounds that are large enough in front of any tokens
but an `else`. -/
theorem manyUntil_readProgram {n : NodeId} {tokens : List Token}
    (htokens : ∀ t ∈ tokens, t.kind ≠ .endOfInput) (herrors : (readProgram n tokens).errors = [])
    {bound : Nat} (hbound : 2 * tokens.length + 1 ≤ bound) :
    ∃ os, (readProgram n tokens).result = os.reduceOption ∧
      ∀ rest stop errors, Stops (· = .elseWord) rest → ∀ rounds os' t,
        manyUntil atEnd (declaration bound false) rounds
          ⟨rest, stop, (readProgram n tokens).nextId, errors⟩ = .ok os' t →
        manyUntil atEnd (declaration bound false)
          ((readProgram n tokens).result.length + rounds) ⟨tokens ++ rest, stop, n, errors⟩ =
            .ok (os ++ os') t := by
  have hrest : tokens.takeWhile (·.kind ≠ .endOfInput) = tokens :=
    List.takeWhile_eq_self_iff.2 fun t ht ↦ decide_eq_true (htokens t ht)
  have hprogram := program_of_errors_eq_nil herrors
  rw [hrest] at hprogram
  obtain ⟨os, n', happend⟩ := manyUntil_append hprogram hbound n
  -- With nothing behind them the declarations are the whole program.
  have halone := happend [] (stopOf tokens) #[] rfl bound [] ⟨[], stopOf tokens, n', #[]⟩ ?_
  · have hstart : State.start n tokens = ⟨tokens ++ [], stopOf tokens, n, #[]⟩ := by
      rw [List.append_nil, State.start, hrest]
    rw [← hstart] at halone
    have hlength : (State.start n tokens).rest.length = tokens.length :=
      congrArg List.length hrest
    have hread := readProgram_eq_of_manyUntil (by omega) (by omega) halone
    rw [List.append_nil] at hread
    have hnext : (readProgram n tokens).nextId = n' := by rw [hread]
    refine ⟨os, by rw [hread], ?_⟩
    rw [hnext]
    exact happend
  · cases bound with
    | zero => rfl
    | succ bound => rfl

end Parser

/-- Whatever identifiers it starts with, a program is read with the same errors. -/
theorem errors_readProgram_eq (n n' : NodeId) (tokens : List Token) :
    (readProgram n tokens).errors = (readProgram n' tokens).errors := by
  have htokens : List.Forall₂ Eq tokens tokens := List.forall₂_same.2 fun _ _ ↦ rfl
  have herrors := (Reading.Alike.readProgram Token.faithful_eq htokens rfl n n').errors
  rw [← List.forall₂_eq_eq_eq]
  refine herrors.imp fun e e' he ↦ ?_
  obtain ⟨token, fault⟩ := e
  obtain ⟨token', fault'⟩ := e'
  obtain ⟨rfl, rfl⟩ := he
  rfl

/-- Whatever identifiers it starts with, a program is read as the same statements up to them. -/
theorem renumbered_readProgram (n n' : NodeId) (tokens : List Token) :
    List.Forall₂ Stmt.Renumbered (readProgram n tokens).result (readProgram n' tokens).result :=
  have htokens : List.Forall₂ Eq tokens tokens := List.forall₂_same.2 fun _ _ ↦ rfl
  (Reading.Alike.readProgram Token.faithful_eq htokens rfl n n').result

/-- A program without errors leaves nothing behind: what follows is read as if it stood alone, from
the next identifier on. -/
theorem readProgram_append_eq (n : NodeId) {first later : List Token} {stop : Token}
    (hfirst : ∀ t ∈ first, t.kind ≠ .endOfInput) (hlater : ∀ t ∈ later, t.kind ≠ .endOfInput)
    (hstop : stop.kind = .endOfInput) (herrors : (readProgram n first).errors = [])
    (helse : Parser.Stops (· = .elseWord) later) :
    let alone := readProgram (readProgram n first).nextId (later ++ [stop])
    readProgram n (first ++ later ++ [stop]) =
      ⟨(readProgram n first).result ++ alone.result, alone.errors, alone.nextId⟩ := by
  intro alone
  obtain ⟨bound, hbound⟩ : ∃ bound, bound = 2 * (first.length + later.length) + 1 := ⟨_, rfl⟩
  have hfits : 2 * first.length + 1 ≤ bound := by omega
  have hrounds : later.length ≤ bound := by omega
  have hboth : ∀ t ∈ first ++ later, t.kind ≠ .endOfInput :=
    List.forall_mem_append.2 ⟨hfirst, hlater⟩
  obtain ⟨os, hresult, happend⟩ := Parser.manyUntil_readProgram hfirst herrors hfits
  have hstart := Parser.State.start_append (readProgram n first).nextId [] hlater hstop
  have hstartBoth := Parser.State.start_append n [] hboth hstop
  obtain ⟨os', t, hmany, -⟩ := Parser.manyUntil_declaration bound false
    (s := ⟨later, stop, (readProgram n first).nextId, #[]⟩) hrounds
  have halone : alone = ⟨os'.reduceOption, t.errors.toList, t.nextId⟩ :=
    Parser.readProgram_eq_of_manyUntil (by rw [hstart]; dsimp only; omega)
      (by rw [hstart]; dsimp only; omega) (hstart ▸ hmany)
  have hmanyBoth := happend later stop #[] helse bound os' t hmany
  rw [← hstartBoth] at hmanyBoth
  have hread := Parser.readProgram_eq_of_manyUntil
    (by rw [hstartBoth, List.length_append]; omega)
    (by rw [hstartBoth, List.length_append]; omega) hmanyBoth
  rw [hread, halone, hresult, List.reduceOption_append]

/-- Recovery is local.  Tokens that are read without errors may stand in front of any others that do
not begin with `else`: first their declarations are read, and then the others as if they stood
alone, with exactly the errors they have alone.  Identifiers are given out from one to the other,
and apart from them it does not matter where they start. -/
theorem readProgram_append (n : NodeId) {first later : List Token} {stop : Token}
    (hfirst : ∀ t ∈ first, t.kind ≠ .endOfInput) (hlater : ∀ t ∈ later, t.kind ≠ .endOfInput)
    (hstop : stop.kind = .endOfInput) (herrors : (readProgram n first).errors = [])
    (helse : ∀ t ∈ later.head?, t.kind ≠ .elseWord) :
    let alone := readProgram (readProgram n first).nextId (later ++ [stop])
    let both := readProgram n (first ++ later ++ [stop])
    both = ⟨(readProgram n first).result ++ alone.result, alone.errors, alone.nextId⟩ ∧
      ∀ n₁ n₂, both.errors = (readProgram n₂ (later ++ [stop])).errors ∧
        List.Forall₂ Stmt.Renumbered
          ((readProgram n₁ first).result ++ (readProgram n₂ (later ++ [stop])).result)
          both.result := by
  intro alone both
  have hstops : Parser.Stops (· = .elseWord) later := by
    cases later with
    | nil => rfl
    | cons t later => exact decide_eq_false (helse t rfl)
  have hboth : both = ⟨(readProgram n first).result ++ alone.result, alone.errors, alone.nextId⟩ :=
    readProgram_append_eq n hfirst hlater hstop herrors hstops
  refine ⟨hboth, fun n₁ n₂ ↦ ?_⟩
  rw [hboth]
  constructor
  · exact errors_readProgram_eq _ n₂ _
  · exact List.rel_append (renumbered_readProgram n₁ n first) (renumbered_readProgram n₂ _ _)

/-- Behind an `if` without `else`, a bracket that starts no declaration is reported once, and the
`print` behind it is read. -/
theorem readProgram_append_bracket :
    let first : List Token := [⟨.ifWord, "if", 1, 1⟩, ⟨.leftParen, "(", 1, 4⟩,
      ⟨.identifier, "a", 1, 5⟩, ⟨.rightParen, ")", 1, 6⟩, ⟨.leftBrace, "\x7b", 1, 8⟩,
      ⟨.rightBrace, "\x7d", 1, 9⟩]
    let later : List Token := [⟨.rightParen, ")", 2, 1⟩, ⟨.printWord, "print", 3, 1⟩,
      ⟨.identifier, "a", 3, 7⟩, ⟨.semicolon, ";", 3, 8⟩]
    let stop : Token := ⟨.endOfInput, "", 3, 9⟩
    (readProgram 0 (later ++ [stop])).errors.length = 1 ∧
      (readProgram 0 (first ++ later ++ [stop])).errors =
        (readProgram 0 (later ++ [stop])).errors ∧
      List.Forall₂ Stmt.Renumbered
        ((readProgram 0 first).result ++ (readProgram 0 (later ++ [stop])).result)
        (readProgram 0 (first ++ later ++ [stop])).result := by
  intro first later stop
  have hfirst : ∀ t ∈ first, t.kind ≠ .endOfInput := by decide
  have hlater : ∀ t ∈ later, t.kind ≠ .endOfInput := by decide
  have hstop : stop.kind = .endOfInput := rfl
  have herrors : (readProgram 0 first).errors = [] := by decide +kernel
  have hlocal := readProgram_append 0 hfirst hlater hstop herrors (by decide)
  exact ⟨by decide +kernel, hlocal.2 0 0⟩

end Lox
