import Lox.Proofs.Machine.Frame
import Lox.Proofs.Session.Scoping

/-!
# Where the machine stands

Blocks and calls take the machine to another scope.  However they end, and however deep inside they
fail, the machine comes back to the scope it stood in.  So every request finds it in the global
scope.
-/

namespace Lox

namespace Run

/-- However a computation ends, the machine stands where it stood before. -/
def Restores {α : Type} (x : Run α) : Prop :=
  Computation.Moves (fun m m' ↦ m'.current = m.current) x

theorem Sparing.restores {α : Type} {x : Run α} (h : Sparing x) : Restores x :=
  h.mono fun _ _ hspares ↦ hspares.follows.current

/-- The scope in which the machine stands is always put back: behind expressions, statements, blocks
in any scope, class declarations and calls, from any state, with any tree and whatever the result or
the failure.  Hence a session stands in the global scope between its requests. -/
theorem current_restored (fuel : Nat) :
    (∀ e, Restores (evaluate fuel e)) ∧ (∀ s, Restores (execute fuel s)) ∧
      (∀ scope body, Restores (inScope scope (sequence (execute fuel) body))) ∧
      (∀ name superclass methods,
        Restores (declareClass (evaluate fuel) name superclass methods)) ∧
      (∀ closure methods,
        inScope closure (do methodsOf (← get).current methods) = methodsOf closure methods) ∧
      (∀ callee line arguments, Restores (call (execute fuel) callee line arguments)) ∧
      ∀ (s : Session) (known : List Site), s.Reachable known →
        s.machine.current = Machine.globals := by
  obtain ⟨hevaluate, hexecute⟩ := Sparing.evaluate_and_execute fuel
  refine ⟨fun e ↦ (hevaluate e).restores, fun s ↦ (hexecute s).restores, fun scope body ↦ ?_,
    fun name superclass methods ↦ ?_, inScope_methodsOf, fun callee line arguments ↦ ?_,
    fun s known hs ↦ ?_⟩
  · exact ((Sparing.sequence hexecute body).inScope scope).restores
  · exact (Sparing.declareClass hevaluate name superclass methods).restores
  · exact (Sparing.call hexecute callee line arguments).restores
  · exact hs.sound.home.1

/-- A program that fails in a block of a function that another one calls. -/
theorem current_restored_behind_fault : ∃ step known,
    (Session.start {}).serve 40 (.run
        "fun f(n) { { var a = n; return missing; } } fun g() { return f(true); } g();") =
        some step ∧
      step.outcome = .runtimeError ∧ step.session.Reachable known ∧
      step.session.machine.current = Machine.globals := by
  have hsome : ((Session.start {}).serve 40 (.run
      "fun f(n) { { var a = n; return missing; } } fun g() { return f(true); } g();")).map
        Step.outcome = some .runtimeError := by
    decide +kernel
  obtain ⟨step, hstep, houtcome⟩ := Option.map_eq_some_iff.1 hsome
  have hreachable := (Session.Reachable.start {}).serve 40 _ hstep
  obtain ⟨-, -, -, -, -, -, hhome⟩ := current_restored 40
  exact ⟨step, _, hstep, houtcome, hreachable, hhome _ _ hreachable⟩

end Run

end Lox
