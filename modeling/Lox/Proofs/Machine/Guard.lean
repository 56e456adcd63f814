import Lox.Machine.Evaluation
import Lox.Proofs.Computation
import Lox.Proofs.Grammar.Contained

/-!
# Jumps out of statements and bodies

How a statement may end that contains its jumps, whatever the machine.  And the interpreter with a
guard: whenever the body of a function has been executed, anywhere and at any depth, the guard sees
how the body ended.  With a guard that lets everything pass this is the interpreter itself.
-/

namespace Lox

/-- The flows that can leave a statement, given what is around it. -/
def Flow.Within (inLoop : Bool) (kind : FunctionContext) : Flow → Prop
  | .normal => True
  | .return value => kind ≠ .none ∧ (kind = .initializer → value = .nil)
  | .break => inLoop = true
  | .continue => inLoop = true

/-- Outside loops and functions there is nothing to jump out of. -/
theorem Flow.Within.eq_normal {flow : Flow} (h : flow.Within false .none) : flow = .normal := by
  cases flow with
  | normal => rfl
  | «return» value => exact absurd rfl h.1
  | «break» => cases h
  | «continue» => cases h

/-- How the body of a function may end: normally or with `return`, and in an initializer without a
value. -/
def Flow.endsBody (isInitializer : Bool) : Flow → Bool
  | .normal => true
  | .return .nil => true
  | .return _ => !isInitializer
  | .break => false
  | .continue => false

namespace Run

open Lox.Computation (Yields)

section Flows

variable {evaluate : Expr → Run Value} {execute : Stmt → Run Flow} {inLoop : Bool}
  {kind : FunctionContext}

theorem yields_inScope {α : Type} {P : α → Prop} {x : Run α} (hx : Yields P x) (scope : ScopeRef) :
    Yields P (inScope scope x) := by
  intro m a m' h
  unfold inScope at h
  dsimp only at h
  split at h
  · rename_i hinside
    cases h
    exact hx _ _ _ hinside
  · cases h

/-- How statements end that contain their jumps. -/
def ExecutesWithin (execute : Stmt → Run Flow) : Prop :=
  ∀ s inLoop kind, s.Contained inLoop kind → Yields (Flow.Within inLoop kind) (execute s)

theorem yields_sequence (hexecute : ExecutesWithin execute) {ss : List Stmt}
    (hss : Stmt.ContainedAll inLoop kind ss) :
    Yields (Flow.Within inLoop kind) (sequence execute ss) := by
  induction ss with
  | nil => exact .pure trivial
  | cons s rest ih =>
    rw [Stmt.ContainedAll] at hss
    refine (hexecute s inLoop kind hss.1).bind fun flow hflow ↦ ?_
    cases flow with
    | normal => exact ih hss.2
    | «return» value => exact .pure hflow
    | «break» => exact .pure hflow
    | «continue» => exact .pure hflow

/-- A loop stops the jumps that belong to it and lets only a `return` pass. -/
theorem yields_loop {condition : Run Value} {body : Run Flow}
    (hbody : Yields (Flow.Within true kind) body) (rounds : Nat) :
    Yields (Flow.Within inLoop kind) (loop condition body rounds) := by
  induction rounds with
  | zero => exact .throw _
  | succ rounds ih =>
    refine .bind_any condition fun v ↦ ?_
    split
    · refine hbody.bind fun flow hflow ↦ ?_
      cases flow with
      | normal => exact ih
      | «return» value => exact .pure hflow
      | «break» => exact .pure trivial
      | «continue» => exact ih
    · exact .pure trivial

theorem yields_valueOrNil {o : Option Expr} (ho : kind = .initializer → o = none) :
    Yields (fun v ↦ kind = .initializer → v = .nil) (valueOrNil evaluate o) := by
  cases o with
  | none => exact .pure fun _ ↦ rfl
  | some e => exact fun _ v _ _ hkind ↦ absurd (ho hkind) (Option.some_ne_none e)

theorem yields_executeWith (hexecute : ExecutesWithin execute) (rounds : Nat) :
    ExecutesWithin (executeWith evaluate execute rounds) := by
  intro s inLoop kind hs
  cases s with
  | block body =>
    rw [Stmt.Contained] at hs
    refine .bind_any _ fun _ ↦ ?_
    refine .bind_any _ fun scope ↦ ?_
    exact yields_inScope (yields_sequence hexecute hs) scope
  | ifElse condition thenBranch elseBranch =>
    rw [Stmt.Contained] at hs
    refine .bind_any _ fun v ↦ ?_
    split
    · exact hexecute thenBranch inLoop kind hs.1
    · cases elseBranch with
      | none => exact .pure trivial
      | some s => exact hexecute s inLoop kind hs.2
  | «return» keyword value =>
    rw [Stmt.Contained] at hs
    exact (yields_valueOrNil hs.2).bind fun v hv ↦ .pure ⟨hs.1, hv⟩
  | «while» condition body =>
    rw [Stmt.Contained] at hs
    exact yields_loop (hexecute body true kind hs) rounds
  | «break» keyword =>
    rw [Stmt.Contained] at hs
    exact .pure hs
  | «continue» keyword =>
    rw [Stmt.Contained] at hs
    exact .pure hs
  | classDecl name superclass methods => exact .bind_any _ fun _ ↦ .pure trivial
  | expression e => exact .bind_any _ fun _ ↦ .pure trivial
  | function routine =>
    refine .bind_any _ fun _ ↦ ?_
    refine .bind_any _ fun _ ↦ ?_
    refine .bind_any _ fun _ ↦ ?_
    exact .pure trivial
  | print e => exact .bind_any _ fun _ ↦ .bind_any _ fun _ ↦ .pure trivial
  | var name initializer => exact .bind_any _ fun _ ↦ .bind_any _ fun _ ↦ .pure trivial

theorem yields_execute (fuel : Nat) : ExecutesWithin (Run.execute fuel) := by
  -- Expressions yield values, so statements alone carry the induction.
  induction fuel with
  | zero =>
    intro s inLoop kind _
    rw [Run.execute]
    exact .throw _
  | succ fuel ih =>
    intro s inLoop kind hs
    rw [Run.execute]
    exact yields_executeWith ih fuel s inLoop kind hs

end Flows

section Guarded

variable (guard : Function → Flow → Run Unit)

/-- Call a function, with a guard at the end of its body. -/
def callFunctionGuarded (execute : Stmt → Run Flow) (f : Function) (arguments : List Value) :
    Run Value := do
  let bindings := .ofList ((f.routine.params.map Token.lexeme).zip arguments)
  let scope ← openScope f.closure bindings
  let flow ← inScope scope (sequence execute f.routine.body)
  guard f flow
  if f.isInitializer then
    valueIn (some f.closure) "this" f.routine.name.line
  else
    match flow with
    | .return value => return value
    | _ => return .nil

/-- Make an instance of a class, with a guard at the end of its initializer. -/
def constructGuarded (execute : Stmt → Run Flow) (c : Class) (arguments : List Value) :
    Run Value := do
  let i ← onHeap (·.instantiate c)
  if let some init := c.findMethod? Class.initializerName then
    let _ ← callFunctionGuarded guard execute (← bindMethod init i) arguments
  return .instance i

def callGuarded (execute : Stmt → Run Flow) (callee : Callee) (line : Nat)
    (arguments : List Value) : Run Value :=
  match callee with
  | .builtin b => callBuiltin b line arguments
  | .function f => callFunctionGuarded guard execute f arguments
  | .cls c => constructGuarded guard execute c arguments

/-- Only calls differ from evaluation without a guard. -/
def evaluateWithGuarded (evaluate : Expr → Run Value) (execute : Stmt → Run Flow) :
    Expr → Run Value
  | .call callee paren arguments => do
    match (← evaluate callee).callee? with
    | none => fault paren.line .notCallable
    | some callee =>
      let values ← valuesOf evaluate arguments
      if values.length ≠ callee.arity then
        fault paren.line (.wrongArity callee.arity values.length)
      callGuarded guard execute callee paren.line values
  | e => evaluateWith evaluate execute e

mutual

/-- Evaluate an expression, with a guard at the end of every body. -/
def evaluateGuarded : (fuel : Nat) → Expr → Run Value
  | 0, _ => throw .exhausted
  | fuel + 1, e => evaluateWithGuarded guard (evaluateGuarded fuel) (executeGuarded fuel) e

/-- Execute a statement, with a guard at the end of every body. -/
def executeGuarded : (fuel : Nat) → Stmt → Run Flow
  | 0, _ => throw .exhausted
  | fuel + 1, s => executeWith (evaluateGuarded fuel) (executeGuarded fuel) fuel s

end

/-- Execute the statements of a program, with a guard at the end of every body. -/
def programGuarded (fuel : Nat) : List Stmt → Run Unit
  | [] => flush
  | s :: rest => do
    let _ ← executeGuarded guard fuel s
    programGuarded fuel rest

end Guarded

/-- Halt with an alarm if the body of a function ends otherwise than a body may. -/
def demandEnd (alarm : Halt) (f : Function) (flow : Flow) : Run Unit :=
  if flow.endsBody f.isInitializer then return () else throw alarm

example (alarm : Halt) (f : Function) (m : Machine) :
    demandEnd alarm f .break m = .error alarm m := rfl

theorem evaluateWithGuarded_pure (evaluate : Expr → Run Value) (execute : Stmt → Run Flow) :
    evaluateWithGuarded (fun _ _ ↦ pure ()) evaluate execute = evaluateWith evaluate execute := by
  have hfunction : ∀ f arguments, callFunctionGuarded (fun _ _ ↦ pure ()) execute f arguments =
      callFunction execute f arguments := by
    intro f arguments
    refine bind_congr fun scope ↦ bind_congr fun flow ↦ ?_
    exact pure_bind _ _
  have hconstruct : ∀ c arguments, constructGuarded (fun _ _ ↦ pure ()) execute c arguments =
      construct execute c arguments := by
    intro c arguments
    refine bind_congr fun i ↦ ?_
    cases c.findMethod? Class.initializerName with
    | none => rfl
    | some init => exact bind_congr fun f ↦ congrArg (· >>= _) (hfunction f arguments)
  have hcall : ∀ callee line arguments, callGuarded (fun _ _ ↦ pure ()) execute callee line
      arguments = call execute callee line arguments := by
    intro callee line arguments
    cases callee with
    | builtin b => rfl
    | function f => exact hfunction f arguments
    | cls c => exact hconstruct c arguments
  funext e
  cases e with
  | call callee paren arguments =>
    refine bind_congr fun v ↦ ?_
    cases v.callee? with
    | none => rfl
    | some target =>
      refine bind_congr fun values ↦ ?_
      simp only [hcall]
      rfl
  | _ => rfl

/-- A guard that lets everything pass changes nothing. -/
theorem guarded_pure (fuel : Nat) :
    evaluateGuarded (fun _ _ ↦ pure ()) fuel = evaluate fuel ∧
      executeGuarded (fun _ _ ↦ pure ()) fuel = execute fuel := by
  induction fuel with
  | zero => exact ⟨rfl, rfl⟩
  | succ fuel ih =>
    obtain ⟨hevaluate, hexecute⟩ := ih
    refine ⟨funext fun e ↦ ?_, funext fun s ↦ ?_⟩
    · rw [evaluateGuarded, evaluate, hevaluate, hexecute, evaluateWithGuarded_pure]
    · rw [executeGuarded, execute, hevaluate, hexecute]

end Run

end Lox
