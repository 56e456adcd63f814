import Lox.Proofs.Machine.Unaddressed
import Lox.Proofs.Session.Splitting

/-!
# Evaluating an expression is running a print statement

A session evaluates an expression without resolving it, and runs a program only once it is resolved.
For an expression by itself it makes no difference: resolution finds no scope in which to look for a
variable, so it records nothing, and the tokens of the expression only move to other columns.
-/

namespace Lox

/-- The source of a statement that prints the value of an expression. -/
def printing (source : String) : String :=
  "print " ++ source ++ "\n;"

theorem Position.line_after {p p' : Position} (h : p.line = p'.line) (text : List Char) :
    (p.after text).line = (p'.after text).line := by
  induction text generalizing p p' with
  | nil => exact h
  | cons c text ih =>
    refine ih ?_
    unfold Position.advance
    split
    · exact congrArg (· + 1) h
    · exact h

/-- Segments that start on the same line yield the same, perhaps in other columns. -/
theorem Item.ofSegments_sameLine {p p' : Position} (h : p.line = p'.line)
    (segments : List Segment) :
    List.Forall₂ (Item.Alike Token.SameLine) (ofSegments p segments) (ofSegments p' segments) := by
  induction segments generalizing p p' with
  | nil => exact .cons (.token ⟨p'.column, by rw [endToken, endToken, h]⟩) .nil
  | cons s rest ih =>
    obtain ⟨role, text⟩ := s
    have hafter := Position.line_after h text
    have hrest := ih hafter
    cases role with
    | token kind => exact .cons (.token ⟨p'.column, by rw [h]⟩) hrest
    | fault cause =>
      refine .cons ?_ hrest
      rw [hafter]
      exact .fault _ cause
    | blank => exact hrest
    | comment => exact hrest

theorem scan_print (source : String) :
    scan ("print " ++ source) =
      .token ⟨.printWord, "print", 1, 1⟩ :: Item.ofSegments ⟨1, 7⟩ (segments source.toList) := by
  unfold scan
  rw [String.toList_append]
  change Item.ofSegments .start
    (segments ('p' :: ('r' :: 'i' :: 'n' :: 't' :: ' ' :: source.toList))) = _
  rw [segments_cons]
  change Item.ofSegments .start (⟨.token (.ofWord "print"), "print".toList⟩ ::
    segments (' ' :: source.toList)) = _
  rw [segments_cons]
  rfl

section Reading

variable {source : String}

/-- The tokens of a print statement are a keyword, those of the expression in other columns, and a
semicolon before the end. -/
theorem tokens_printing (hlexical : lexicalErrors (scan source) = []) :
    lexicalErrors (scan (printing source)) = [] ∧ ∃ moved semicolon stop,
      tokens (printing source) = ⟨.printWord, "print", 1, 1⟩ :: (moved ++ [semicolon, stop]) ∧
      List.Forall₂ Token.SameLine ((tokens source).takeWhile (·.kind ≠ .endOfInput)) moved ∧
      semicolon.kind = .semicolon ∧ stop.kind = .endOfInput := by
  have hline : Position.start.line = (⟨1, 7⟩ : Position).line := rfl
  have hmoved := Item.ofSegments_sameLine hline (segments source.toList)
  have hscan := scan_print source
  have hprefix : lexicalErrors (scan ("print " ++ source)) = [] := by
    have herrors := Item.Alike.lexicalErrors hmoved
    rw [show Item.ofSegments .start (segments source.toList) = scan source from rfl, hlexical,
      List.forall₂_nil_left_iff] at herrors
    rw [hscan]
    exact herrors
  have hsource : printing source = "print " ++ source ++ "\n" ++ ";" :=
    (String.append_assoc : _ = "print " ++ source ++ ("\n" ++ ";")).symm
  refine ⟨?_, (((Item.ofSegments ⟨1, 7⟩ (segments source.toList)).filterMap Item.token?).takeWhile
    (·.kind ≠ .endOfInput)), ⟨.semicolon, ";", 1 + lastLine ("print " ++ source), 1⟩,
    ⟨.endOfInput, "", 1 + lastLine ("print " ++ source), 2⟩, ?_, ?_, rfl, rfl⟩
  · rw [hsource]
    exact lexicalErrors_newline hprefix (by decide +kernel)
  · have hsemicolon : tokens ";" = [⟨.semicolon, ";", 1, 1⟩, ⟨.endOfInput, "", 1, 2⟩] := by
      decide +kernel
    rw [hsource, tokens_newline hprefix, hsemicolon]
    unfold tokens
    rw [hscan]
    rfl
  · have htokens := Item.Alike.tokens hmoved
    have hend := stopOf_alike Token.faithful_sameLine htokens (exists_endOfInput source)
    exact (Reading.Alike.start Token.faithful_sameLine htokens hend 0 0).rest

/-- A source that is one expression is read as this expression. -/
theorem readExpression_of_derived {e : Expr}
    (he : Grammar.Expression ((tokens source).takeWhile (·.kind ≠ .endOfInput)) e) (n : NodeId) :
    ∃ read, (readExpression n (tokens source)).result = some read ∧
      (readExpression n (tokens source)).errors = [] ∧ e.Renumbered read ∧
      Grammar.Expression ((tokens source).takeWhile (·.kind ≠ .endOfInput)) read := by
  obtain ⟨read, next, hread, hparse⟩ := Parser.Complete.expression _ _ _ he (Nat.le_refl _) n
  have hends := hparse [] (Parser.stopOf (tokens source)) #[] rfl
  rw [List.append_nil] at hends
  have hreading : readExpression n (tokens source) = ⟨some read, [], next⟩ := by
    unfold readExpression Parser.State.start
    dsimp only
    rw [hends]
  have hsound := Parser.Sound.expression _ _ _ _ hends rfl
  obtain ⟨-, ts, hts, hderived⟩ := hsound
  rw [List.append_nil] at hts
  dsimp only at hts
  rw [hreading]
  refine ⟨read, rfl, rfl, hread, ?_⟩
  rw [hts]
  exact hderived

/-- The expression that a whole source is, if it is one. -/
def wholeExpression? (source : String) : Option Expr :=
  match Parser.expression (tokens source).length (.start 0 (tokens source)) with
  | .ok e s => if s.rest.isEmpty && s.errors.isEmpty then some e else none
  | .error _ _ => none

theorem derived_of_wholeExpression {e : Expr} (h : wholeExpression? source = some e) :
    Grammar.Expression ((tokens source).takeWhile (·.kind ≠ .endOfInput)) e := by
  unfold wholeExpression? at h
  cases hr : Parser.expression (tokens source).length (.start 0 (tokens source)) with
  | error =>
    rw [hr] at h
    cases h
  | ok read s =>
    rw [hr] at h
    obtain ⟨hwhole, hread⟩ := Option.ite_none_right_eq_some.1 h
    cases hread
    rw [Bool.and_eq_true, List.isEmpty_iff, Array.isEmpty_iff] at hwhole
    obtain ⟨-, ts, hts, hderived⟩ := Parser.Sound.expression _ _ _ _ hr hwhole.2
    rw [hwhole.1, List.append_nil] at hts
    subst hts
    exact hderived

theorem readProgram_printing (hlexical : lexicalErrors (scan source) = []) {e : Expr}
    (he : Grammar.Expression ((tokens source).takeWhile (·.kind ≠ .endOfInput)) e) (n : NodeId) :
    (readProgram n (tokens (printing source))).errors = [] ∧ ∃ read,
      (readProgram n (tokens (printing source))).result = [.print read] ∧
      e.Similar Token.SameLine read := by
  obtain ⟨-, moved, semicolon, stop, htokens, hmoved, hsemicolon, hstop⟩ := tokens_printing hlexical
  rw [htokens]
  -- Where nothing has moved the grammar tells what is read; moving changes columns only.
  generalize hts : (tokens source).takeWhile (·.kind ≠ .endOfInput) = ts at he hmoved
  have hkinds : ∀ t ∈ ts, t.kind ≠ .endOfInput := by
    intro t ht
    rw [← hts] at ht
    exact of_decide_eq_true (List.all_eq_true.1 List.all_takeWhile t ht)
  have hbefore : (⟨.printWord, "print", 1, 1⟩ :: (ts ++ [semicolon, stop]) : List Token).takeWhile
      (·.kind ≠ .endOfInput) = ⟨.printWord, "print", 1, 1⟩ :: (ts ++ [semicolon]) := by
    rw [List.takeWhile_cons_of_pos (by simp), List.takeWhile_append_of_pos (by simpa using hkinds)]
    simp [hsemicolon, hstop]
  have hderived : Grammar.Program true
      ((⟨.printWord, "print", 1, 1⟩ :: (ts ++ [semicolon, stop]) : List Token).takeWhile
        (·.kind ≠ .endOfInput)) [.print e] := by
    rw [hbefore, ← List.append_nil (_ :: _)]
    exact .cons (.statement (.print rfl he hsemicolon)) .nil
  obtain ⟨hnone, hread⟩ := errors_eq_nil_of_program n hderived
  have hsame : ∀ t : Token, t.SameLine t := fun t ↦ ⟨t.column, rfl⟩
  have hall : List.Forall₂ Token.SameLine (⟨.printWord, "print", 1, 1⟩ :: (ts ++ [semicolon, stop]))
      (⟨.printWord, "print", 1, 1⟩ :: (moved ++ [semicolon, stop])) :=
    .cons (hsame _) (List.rel_append hmoved (.cons (hsame _) (.cons (hsame _) .nil)))
  have hends := stopOf_alike Token.faithful_sameLine hall ⟨stop, by simp, hstop⟩
  obtain ⟨hresult, herrors⟩ := Reading.Alike.readProgram Token.faithful_sameLine hall hends n n
  rw [hnone, List.forall₂_nil_left_iff] at herrors
  refine ⟨herrors, ?_⟩
  have htrans := Stmt.Alike.transAll (fun t t' t'' ht ht' ↦ ht ▸ ht') hread hresult
  generalize (readProgram n _).result = result at htrans ⊢
  obtain ⟨s, hs, rfl⟩ : ∃ s, Stmt.Similar Token.SameLine (.print e) s ∧ result = [s] := by
    cases htrans with
    | cons hs hrest =>
      cases hrest
      exact ⟨_, hs, rfl⟩
  cases hs with
  | print hsimilar => exact ⟨_, rfl, hsimilar⟩

end Reading

/-! ### Resolution -/

mutual

/-- Whether `this` or `super` occurs in an expression. -/
def Expr.mentionsReceiver : Expr → Bool
  | literal _ => false
  | grouping inner => inner.mentionsReceiver
  | unary _ operand => operand.mentionsReceiver
  | binary _ left right => left.mentionsReceiver || right.mentionsReceiver
  | logical _ left right => left.mentionsReceiver || right.mentionsReceiver
  | var _ _ => false
  | assign _ _ value => value.mentionsReceiver
  | call callee _ arguments => callee.mentionsReceiver || Expr.mentionsReceiverAny arguments
  | get object _ => object.mentionsReceiver
  | set object _ value => object.mentionsReceiver || value.mentionsReceiver
  | this _ _ => true
  | super _ _ _ => true

def Expr.mentionsReceiverAny : List Expr → Bool
  | [] => false
  | e :: rest => e.mentionsReceiver || Expr.mentionsReceiverAny rest

end

/-- No rule is broken, and all variables are global. -/
def AllGlobal (found : List Finding) : Prop :=
  ∀ f ∈ found, f.violation? = none ∧ f.address? = none

theorem AllGlobal.append {found more : List Finding} (h : AllGlobal found) (h' : AllGlobal more) :
    AllGlobal (found ++ more) := by
  intro f hf
  rcases List.mem_append.1 hf with hf | hf
  · exact h f hf
  · exact h' f hf

theorem AllGlobal.of_alike {T : Token → Token → Prop} {found found' : List Finding}
    (h : List.Forall₂ (Finding.Alike T) found found') (hglobal : AllGlobal found) :
    AllGlobal found' := by
  induction h with
  | nil => exact hglobal
  | cons hf _ ih =>
    obtain ⟨hfirst, hrest⟩ := List.forall_mem_cons.1 hglobal
    refine List.forall_mem_cons.2 ⟨?_, ih hrest⟩
    cases hf with
    | use hname depth =>
      cases depth with
      | none => exact ⟨rfl, rfl⟩
      | some depth => cases hfirst.2
    | violation htoken fault => cases hfirst.1

mutual

theorem Expr.allGlobal_findings : (e : Expr) → e.mentionsReceiver = false →
    AllGlobal (e.findings {} [])
  | .literal _, _ => by
    rw [Expr.findings]
    exact nofun
  | .grouping inner, h => by
    rw [Expr.findings]
    exact inner.allGlobal_findings h
  | .unary _ operand, h => by
    rw [Expr.findings]
    exact operand.allGlobal_findings h
  | .binary _ left right, h => by
    rw [Expr.mentionsReceiver, Bool.or_eq_false_iff] at h
    rw [Expr.findings]
    exact (left.allGlobal_findings h.1).append (right.allGlobal_findings h.2)
  | .logical _ left right, h => by
    rw [Expr.mentionsReceiver, Bool.or_eq_false_iff] at h
    rw [Expr.findings]
    exact (left.allGlobal_findings h.1).append (right.allGlobal_findings h.2)
  | .var _ _, _ => by
    intro f hf
    cases List.mem_singleton.1 hf
    exact ⟨rfl, rfl⟩
  | .assign _ _ value, h => by
    rw [Expr.findings]
    refine (value.allGlobal_findings h).append fun f hf ↦ ?_
    cases List.mem_singleton.1 hf
    exact ⟨rfl, rfl⟩
  | .call callee _ arguments, h => by
    rw [Expr.mentionsReceiver, Bool.or_eq_false_iff] at h
    rw [Expr.findings]
    exact (callee.allGlobal_findings h.1).append (Expr.allGlobal_findingsAll arguments h.2)
  | .get object _, h => by
    rw [Expr.findings]
    exact object.allGlobal_findings h
  | .set object _ value, h => by
    rw [Expr.mentionsReceiver, Bool.or_eq_false_iff] at h
    rw [Expr.findings]
    exact (value.allGlobal_findings h.2).append (object.allGlobal_findings h.1)
  | .this _ _, h => by cases h
  | .super _ _ _, h => by cases h

theorem Expr.allGlobal_findingsAll : (es : List Expr) → Expr.mentionsReceiverAny es = false →
    AllGlobal (Expr.findingsAll {} [] es)
  | [], _ => by
    rw [Expr.findingsAll]
    exact nofun
  | e :: rest, h => by
    rw [Expr.mentionsReceiverAny, Bool.or_eq_false_iff] at h
    rw [Expr.findingsAll]
    exact (e.allGlobal_findings h.1).append (Expr.allGlobal_findingsAll rest h.2)

end

/-- Where all variables are global there is nothing to record. -/
theorem Machine.record_of_allGlobal {found : List Finding} (h : AllGlobal found) (m : Machine) :
    m.record found = m := by
  have hnone : found.filterMap Finding.address? = [] :=
    List.filterMap_eq_nil_iff.2 fun f hf ↦ (h f hf).2
  unfold Machine.record
  rw [hnone]
  rfl

/-! ### Sessions -/

/-- Steps with the same effect: they end and report the same, and leave the same heap, the same
depths and the same world behind, except for how often the output has been flushed. -/
structure Step.SameEffect (step step' : Step) : Prop where
  outcome : step.outcome = step'.outcome
  reported : step.reported = step'.reported
  heap : step.session.machine.heap = step'.session.machine.heap
  current : step.session.machine.current = step'.session.machine.current
  addresses : step.session.machine.addresses = step'.session.machine.addresses
  log : step.session.machine.host.log = step'.session.machine.host.log
  host : ∃ flushes, step'.session.machine.host =
    { step.session.machine.host with out := { step.session.machine.host.out with flushes } }
  hadError : step.session.hadError = step'.session.hadError
  hadRuntimeError : step.session.hadRuntimeError = step'.session.hadRuntimeError

/-- A flush that does not fail is all that a print statement does beyond printing a value. -/
theorem Run.program_print (fuel : Nat) (e : Expr) (m : Machine) :
    Run.program (fuel + 1) [.print e] m =
      ((do Run.printLine (← Run.evaluate fuel e).display) >>= fun _ ↦ Run.flush) m := by
  rw [Run.program, Run.program, Run.execute, Run.executeWith]
  simp only [Run.liftM_self, bind_assoc, pure_bind]

namespace Session

variable {s : Session} {m : Machine}

/-- A computation and a flush behind it have the effect of the computation. -/
theorem sameEffect_perform {x y : Run Unit} (hx : Run.Sparing x)
    (hflush : ∀ n, s.machine.host.out.flushFailure n = none)
    (hxy : y s.machine = (x >>= fun _ ↦ Run.flush) s.machine) (n n' : NodeId) :
    Option.Rel Step.SameEffect (Session.perform { s with nextId := n } x)
      (Session.perform { s with nextId := n' } y) := by
  unfold Session.perform
  dsimp only
  rw [hxy]
  cases hr : x s.machine with
  | ok _ m =>
    have hnever : ∀ k, m.host.out.flushFailure k = none := by
      rw [(hx.of_ok hr).follows.host.flushFailure]
      exact hflush
    have hflushed : (m.host.flush .out).2 =
        { m.host with out := { m.host.out with flushes := m.host.out.flushes + 1 } } := by
      unfold Host.flush
      dsimp only [Host.sink, Host.setSink]
      rw [hnever]
    rw [Computation.bind_of_ok hr, Run.flush_eq, (Host.alike_flush_out hnever).1]
    dsimp only
    rw [hflushed]
    exact .some ⟨rfl, rfl, rfl, rfl, rfl, rfl, ⟨_, rfl⟩, rfl, rfl⟩
  | error halt m =>
    rw [Computation.bind_of_error hr]
    dsimp only
    cases halt.diagnostic? with
    | none => exact .none
    | some d => exact .some ⟨rfl, rfl, rfl, rfl, rfl, rfl, ⟨_, rfl⟩, rfl, rfl⟩

theorem evaluate_of_derived {source : String} (hlexical : lexicalErrors (scan source) = [])
    {read : Expr} (hresult : (readExpression s.nextId (tokens source)).result = some read)
    (herrors : (readExpression s.nextId (tokens source)).errors = []) (fuel : Nat) :
    s.evaluate fuel source =
      Session.perform { s with nextId := (readExpression s.nextId (tokens source)).nextId }
        (do Run.printLine (← Run.evaluate fuel read).display) := by
  cases s.expressionFate source with
  | misread hsome _ => exact absurd (expressionErrors_eq_nil_iff.2 ⟨hlexical, herrors⟩) hsome
  | used e he _ _ hstep =>
    rw [he] at hresult
    cases hresult
    exact hstep _

/-- A statement that prints one expression is run if its variables are all global. -/
theorem run_of_derived {source : String} (hlexical : lexicalErrors (scan source) = [])
    {read : Expr} (hresult : (readProgram s.nextId (tokens source)).result = [.print read])
    (herrors : (readProgram s.nextId (tokens source)).errors = [])
    (hglobal : AllGlobal (read.findings {} [])) (fuel : Nat) :
    s.run fuel source =
      Session.perform { s with nextId := (readProgram s.nextId (tokens source)).nextId }
        (Run.program fuel [.print read]) := by
  have hresolve : resolve [.print read] = read.findings {} [] := by
    rw [resolve, Stmt.findingsAll, Stmt.findings, Stmt.findingsAll]
    exact List.append_nil _
  have hquiet : Quiet (resolve (readProgram s.nextId (tokens source)).result) := by
    rw [hresult, hresolve]
    exact fun f hf ↦ (hglobal f hf).1
  cases s.programFate source with
  | misread hsome _ => exact absurd (programErrors_eq_nil_iff.2 ⟨hlexical, herrors⟩) hsome
  | violating _ _ hsome _ => exact absurd (violations_eq_nil_iff.2 hquiet) hsome
  | executed _ _ _ hstep =>
    calc s.run fuel source
      _ = (s.resolved source).perform
          (Run.program fuel (readProgram s.nextId (tokens source)).result) := hstep _
      _ = Session.perform { s with nextId := (readProgram s.nextId (tokens source)).nextId }
          (Run.program fuel [.print read]) := by
        rw [resolved, hresult, hresolve, Machine.record_of_allGlobal hglobal]

/-- No depth is recorded for nodes that have just been read. -/
theorem unaddressed_of_issued
    (hrecorded : ∀ id depth, s.machine.addresses[id]? = some depth → id < s.nextId) {high : NodeId}
    {ids : List NodeId} (hissued : Issued s.nextId high ids) :
    ∀ i ∈ ids, s.machine.addresses[i]? = none := by
  intro i hi
  apply Option.eq_none_iff_forall_ne_some.2
  intro depth hdepth
  exact Nat.not_lt_of_le (hissued.bounds hi).1 (hrecorded i depth hdepth)

end Session

/-- The two ways to evaluate an expression agree: to evaluate a source that is one expression
without `this` and `super`, and to run a statement that prints it.  The statement takes one unit of
fuel. -/
theorem Session.Reachable.evaluate_printing {s : Session} {known : List Site}
    (hs : s.Reachable known) (hflush : ∀ n, s.machine.host.out.flushFailure n = none)
    {source : String} (hlexical : lexicalErrors (scan source) = []) {e : Expr}
    (he : Grammar.Expression ((tokens source).takeWhile (·.kind ≠ .endOfInput)) e)
    (hreceiver : e.mentionsReceiver = false) (fuel : Nat) :
    Option.Rel Step.SameEffect (s.evaluate fuel source)
      (s.run (fuel + 1) ("print " ++ source ++ "\n;")) := by
  have hrecorded := hs.alike.recorded
  obtain ⟨read, hresult, herrors, hread, hderived⟩ := readExpression_of_derived he s.nextId
  obtain ⟨herrors', read', hresult', hmoved⟩ := readProgram_printing hlexical hderived s.nextId
  have hglobal : AllGlobal (read'.findings {} []) := by
    have hfound := e.allGlobal_findings hreceiver
    have hfound' := AllGlobal.of_alike (hread.findings Token.faithful_eq {} []) hfound
    exact AllGlobal.of_alike (hmoved.findings Token.faithful_sameLine {} []) hfound'
  have hids : ∀ i ∈ read.ids, s.machine.addresses[i]? = none := by
    have hissued := (issued_readExpression s.nextId (tokens source)).2
    rw [hresult] at hissued
    exact Session.unaddressed_of_issued hrecorded hissued
  have hids' : ∀ i ∈ read'.ids, s.machine.addresses[i]? = none := by
    have hissued := (issued_readProgram s.nextId (tokens (printing source))).2
    rw [hresult', Stmt.idsAll, Stmt.ids, Stmt.idsAll, List.append_nil] at hissued
    exact Session.unaddressed_of_issued hrecorded hissued
  have halike : read.Alike Token.SameLine (Unaddressed s.machine.addresses) read' :=
    hmoved.renumber (fun _ _ ht ↦ ht)
      (forall₂_of_mem hmoved.ids fun i hi i' hi' ↦ ⟨hids i hi, hids' i' hi'⟩)
  rw [Session.evaluate_of_derived hlexical hresult herrors]
  rw [show "print " ++ source ++ "\n;" = printing source from rfl,
    Session.run_of_derived (tokens_printing hlexical).1 hresult' herrors' hglobal]
  have hsparing : ∀ v : Value, Run.Sparing (Run.printLine v.display) := fun _ ↦ .printLine _
  refine Session.sameEffect_perform (((Run.Sparing.evaluate_and_execute fuel).1 read).bind hsparing)
    hflush ?_ _ _
  have hsame := (Run.SameWith.evaluate fuel halike).bind fun v ↦ .refl (hsparing v)
  have hflushed := hsame.bind fun _ ↦ .refl Run.Sparing.flush
  rw [Run.program_print]
  exact (hflushed.eq_of rfl).symm

/-- An expression that calls a function of an earlier source, which assigns a global variable. -/
theorem Session.evaluate_printing_call : ∃ s known, Session.Reachable s known ∧
    (s.evaluate 9 "f(a + \"c\")").map (·.session.machine.host.written .out) = some "bbc\n" ∧
    Option.Rel Step.SameEffect (s.evaluate 9 "f(a + \"c\")")
      (s.run 10 ("print " ++ "f(a + \"c\")" ++ "\n;")) := by
  have hprints : ((Session.start {}).run 9 "var a = \"b\"; fun f(d) { a = a + d; return a; }").any
      (fun step ↦ (Session.evaluate 9
        { step.session with machine := { step.session.machine with host := {} } }
        "f(a + \"c\")").map (·.session.machine.host.written .out) = some "bbc\n") = true := by
    decide +kernel
  have hread : (wholeExpression? "f(a + \"c\")").any (!·.mentionsReceiver) = true := by
    decide +kernel
  obtain ⟨step, hstep, hprints⟩ := (Option.any_eq_true _ _).1 hprints
  obtain ⟨e, he, hreceiver⟩ := (Option.any_eq_true _ _).1 hread
  have hs := ((Session.Reachable.start {}).serve 9 (.run _) hstep).host {}
  exact ⟨_, _, hs, of_decide_eq_true hprints, hs.evaluate_printing (fun _ ↦ rfl) (by decide +kernel)
    (derived_of_wholeExpression he) (Bool.not_eq_true' _ ▸ hreceiver) 9⟩

end Lox
