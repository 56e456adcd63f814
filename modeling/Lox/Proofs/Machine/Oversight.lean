import Lox.Machine.Evaluation

/-!
# Overseen execution

The interpreter with a check before every expression that is evaluated and another one before every
statement that is executed, anywhere and at any depth.  With checks that always pass this is the
interpreter itself.  So what a check finds out about the machine is known of every state in which a
program ever evaluates or executes anything, if the checks can be made without changing what
happens.
-/

namespace Lox

/-- Checks before expressions and before statements. -/
structure Oversight where
  expression : Expr → Run Unit
  statement : Stmt → Run Unit

namespace Oversight

/-- A watch on expressions alone. -/
def ofWatch (watch : Expr → Run Unit) : Oversight :=
  ⟨watch, fun _ ↦ pure ()⟩

/-- Checks that always pass. -/
def blind : Oversight :=
  ofWatch fun _ ↦ pure ()

end Oversight

namespace Run

/-- Halt with an alarm unless the machine has a property. -/
noncomputable def ensure (property : Machine → Prop) (alarm : Halt) : Run Unit := fun m ↦
  open Classical in if property m then .ok () m else .error alarm m

theorem ensure_of_property {property : Machine → Prop} {m : Machine} (h : property m)
    (alarm : Halt) : ensure property alarm m = .ok () m :=
  if_pos h

theorem ensure_of_not {property : Machine → Prop} {m : Machine} (h : ¬property m) (alarm : Halt) :
    ensure property alarm m = .error alarm m :=
  if_neg h

theorem ensure_true (alarm : Halt) : ensure (fun _ ↦ True) alarm = pure () :=
  funext fun _ ↦ ensure_of_property trivial alarm

theorem property_of_ensure {property : Machine → Prop} {alarm : Halt} {m m' : Machine}
    (h : ensure property alarm m = .ok () m') : property m := by
  by_cases hm : property m
  · exact hm
  · rw [ensure_of_not hm] at h
    cases h

theorem eq_alarm_of_ensure {property : Machine → Prop} {alarm halt : Halt} {m m' : Machine}
    (h : ensure property alarm m = .error halt m') : halt = alarm := by
  by_cases hm : property m
  · rw [ensure_of_property hm] at h
    cases h
  · rw [ensure_of_not hm] at h
    cases h
    rfl

mutual

def evaluateOverseen (oversight : Oversight) : (fuel : Nat) → Expr → Run Value
  | 0, _ => throw .exhausted
  | fuel + 1, e => do
    oversight.expression e
    evaluateWith (evaluateOverseen oversight fuel) (executeOverseen oversight fuel) e

def executeOverseen (oversight : Oversight) : (fuel : Nat) → Stmt → Run Flow
  | 0, _ => throw .exhausted
  | fuel + 1, s => do
    oversight.statement s
    executeWith (evaluateOverseen oversight fuel) (executeOverseen oversight fuel) fuel s

end

def programOverseen (oversight : Oversight) (fuel : Nat) : List Stmt → Run Unit
  | [] => flush
  | s :: rest => do
    let _ ← executeOverseen oversight fuel s
    programOverseen oversight fuel rest

theorem overseen_blind (fuel : Nat) :
    evaluateOverseen .blind fuel = evaluate fuel ∧ executeOverseen .blind fuel = execute fuel := by
  induction fuel with
  | zero => exact ⟨rfl, rfl⟩
  | succ fuel ih =>
    obtain ⟨hevaluate, hexecute⟩ := ih
    refine ⟨funext fun e ↦ ?_, funext fun s ↦ ?_⟩
    · rw [evaluateOverseen, evaluate, hevaluate, hexecute]
      exact pure_bind ..
    · rw [executeOverseen, execute, hevaluate, hexecute]
      exact pure_bind ..

theorem programOverseen_blind (fuel : Nat) (statements : List Stmt) :
    programOverseen .blind fuel statements = program fuel statements := by
  induction statements with
  | nil => rfl
  | cons s rest ih => rw [programOverseen, program, ih, (overseen_blind fuel).2]

end Run

end Lox
