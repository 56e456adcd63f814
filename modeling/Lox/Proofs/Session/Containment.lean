import Lox.Proofs.Machine.Containment
import Lox.Proofs.Session.Lasting
import Lox.Proofs.Session.Splitting

/-!
# Signals never escape

A jump is a signal that travels outwards until something stops it: a loop, a call, or the end of the
program, which would drop it silently.  In a session nothing is ever dropped.  The statements of an
accepted program end normally, and no body of a function ends with a jump out of a loop, nor that of
an initializer with a value, in any run and at any depth.
-/

namespace Lox

-- No source is read to know that its jumps are contained.
attribute [local irreducible] readProgram readExpression

namespace Session

/-- Run a program, with a guard at the end of every body. -/
def runGuarded (guard : Function → Flow → Run Unit) (fuel : Nat) (s : Session) (source : String) :
    Option Step :=
  s.runWith (Run.programGuarded guard fuel) source

/-- Print the value of an expression, with a guard at the end of every body. -/
def evaluateGuarded (guard : Function → Flow → Run Unit) (fuel : Nat) (s : Session)
    (source : String) : Option Step :=
  s.withExpression source fun e ↦ do
    let value ← Run.evaluateGuarded guard fuel e
    Run.printLine value.display

/-- With a guard that lets everything pass these are the steps of a session. -/
theorem guarded_pure (fuel : Nat) (s : Session) (source : String) :
    s.runGuarded (fun _ _ ↦ pure ()) fuel source = s.run fuel source ∧
      s.evaluateGuarded (fun _ _ ↦ pure ()) fuel source = s.evaluate fuel source := by
  obtain ⟨hevaluate, hexecute⟩ := Run.guarded_pure fuel
  have hprogram : Run.programGuarded (fun _ _ ↦ pure ()) fuel = Run.program fuel := by
    funext program
    induction program with
    | nil => rfl
    | cons s rest ih => rw [Run.programGuarded, Run.program, hexecute, ih]
  constructor
  · rw [Session.runGuarded, Session.run, hprogram]
  · rw [Session.evaluateGuarded, Session.evaluate, hevaluate]

variable {s : Session} {source : String}

/-- The grammar and resolution together contain the jumps of a program. -/
theorem contained_readProgram {n : NodeId} (herrors : (readProgram n (tokens source)).errors = [])
    (hquiet : Quiet (resolve (readProgram n (tokens source)).result)) :
    Stmt.ContainedAll false .none (readProgram n (tokens source)).result := by
  have hprogram := program_of_errors_eq_nil herrors
  generalize (readProgram n (tokens source)).result = program at hprogram hquiet ⊢
  exact hprogram.contained hquiet

/-- Whatever a session is asked for, its functions contain their jumps. -/
theorem contained_lasting : Machine.Lasting fun m ↦ m.heap.Contained where
  start host := by
    -- The globals of a new session are builtins, which have no body.
    refine ⟨fun scope name value hvalue ↦ ?_, nofun⟩
    obtain ⟨b, -, rfl⟩ := Heap.exists_builtin_of_get?_start hvalue
    trivial
  host _ hm := hm
  record _ hm := hm
  program fuel herrors hquiet hm :=
    (Run.Matching.program .exhausted fuel (contained_readProgram herrors hquiet)).endsIn hm
  expression fuel _ _ hm := ((Run.Matching.evaluate_and_execute .exhausted fuel).1 _).endsIn hm

/-- Programs and expressions run alike with and without the guard. -/
theorem guarded_of_contained (hs : s.machine.heap.Contained) (alarm : Halt) (fuel : Nat)
    (source : String) :
    s.runGuarded (Run.demandEnd alarm) fuel source = s.run fuel source ∧
      s.evaluateGuarded (Run.demandEnd alarm) fuel source = s.evaluate fuel source := by
  constructor
  · apply runWith_congr
    intro herrors hquiet
    have hresolved : (s.resolved source).machine.heap.Contained := hs
    exact (Run.Matching.program alarm fuel (contained_readProgram herrors hquiet)).eq hresolved
  · apply withExpression_congr
    intro e _ _
    exact Computation.bind_eq_bind (((Run.Matching.evaluate_and_execute alarm fuel).1 e).eq hs)

/-- Signals never escape.  However a statement of an accepted program is executed, it ends normally
if it ends.  And a guard at the end of every body, which halts with any chosen alarm if the body
ends with a jump out of a loop, or that of an initializer with a value, is never noticed. -/
theorem Reachable.signals_contained {known : List Site} (hs : s.Reachable known) (alarm : Halt)
    (fuel : Nat) (source : String) :
    (Accepted source → ∀ statement ∈ (readProgram s.nextId (tokens source)).result,
      ∀ fuel m flow m', Run.execute fuel statement m = .ok flow m' → flow = .normal) ∧
      s.runGuarded (Run.demandEnd alarm) fuel source = s.run fuel source ∧
      s.evaluateGuarded (Run.demandEnd alarm) fuel source = s.evaluate fuel source := by
  refine ⟨fun haccepted statement hmem fuel m flow m' hends ↦ ?_,
    guarded_of_contained (hs.lasting contained_lasting) alarm fuel source⟩
  obtain ⟨herrors, hquiet⟩ := haccepted.at_id s.nextId
  have hcontained := (Stmt.containedAll_iff.1 (contained_readProgram herrors hquiet)) statement hmem
  exact (Run.yields_execute fuel statement false .none hcontained m flow m' hends).eq_normal

/-- A function with a loop and a class with an initializer that returns early, in one program, and
calls of both in the next. -/
theorem signals_contained_calls : ∃ step known,
    (Session.start {}).serve 40 (.run
      "fun f() { while (true) { break; } return true; } class C { init() { return; } }") =
        some step ∧ step.session.Reachable known ∧
      (∀ statement ∈ (readProgram step.session.nextId (tokens "print f(); C();")).result,
        ∀ fuel m flow m', Run.execute fuel statement m = .ok flow m' → flow = .normal) ∧
      step.session.runGuarded (Run.demandEnd (.output "escaped")) 40 "print f(); C();" =
        step.session.run 40 "print f(); C();" := by
  have hsome : ((Session.start {}).serve 40 (.run
      "fun f() { while (true) { break; } return true; } class C { init() { return; } }")).isSome =
        true := by
    decide +kernel
  obtain ⟨step, hstep⟩ := Option.isSome_iff_exists.1 hsome
  have hreachable := (Session.Reachable.start {}).serve 40 _ hstep
  have hcontained := hreachable.signals_contained (.output "escaped") 40 "print f(); C();"
  exact ⟨step, _, hstep, hreachable, hcontained.1 (by decide +kernel), hcontained.2.1⟩

end Session

end Lox
