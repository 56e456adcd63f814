import Lox.Proofs.Machine.Steady
import Lox.Proofs.Text.Lines

/-!
# A diary of lines read

The interpreter with a diary, in which it notes what each call of `readline` comes to.  The diary is
kept beside the machine and never consulted, so a machine does the same with and without one
(`Told.evaluate_and_execute`); and it tells that each call has read the line next to that of the
call before (`Reads`).
-/

namespace Lox

/-- A machine and what every call of `readline` has come to so far: a value, or nothing if it
halted. -/
structure Diary where
  machine : Machine
  answers : List (Option Value) := []

/-- A computation of a machine with a diary. -/
abbrev Told := EStateM Halt Diary

namespace Told

/-- A computation of which nothing is noted. -/
def quietly {α : Type} (x : Run α) : Told α := fun d ↦
  match x d.machine with
  | .ok a machine => .ok a { d with machine }
  | .error halt machine => .error halt { d with machine }

/-- A computation of which it is noted what it comes to. -/
def noting (x : Run Value) : Told Value := fun d ↦
  match x d.machine with
  | .ok value machine => .ok value ⟨machine, d.answers ++ [some value]⟩
  | .error halt machine => .error halt ⟨machine, d.answers ++ [none]⟩

def inScope {α : Type} (scope : ScopeRef) (action : Told α) : Told α := fun d ↦
  let home := d.machine.current
  match action { d with machine := { d.machine with current := scope } } with
  | .ok a d => .ok a { d with machine := { d.machine with current := home } }
  | .error halt d => .error halt { d with machine := { d.machine with current := home } }

/-- Only of `readline` it is noted what it comes to. -/
def callBuiltin (b : Builtin) (line : Nat) (arguments : List Value) : Told Value :=
  match b with
  | .readline => noting (Run.callBuiltin .readline line arguments)
  | b => quietly (Run.callBuiltin b line arguments)

instance : MonadLift Run Told where
  monadLift := quietly

instance : Run.Interprets Told where
  inScope := inScope
  callBuiltin := callBuiltin

mutual

/-- Evaluate an expression and keep the diary. -/
def evaluate : (fuel : Nat) → Expr → Told Value
  | 0, _ => throw .exhausted
  | fuel + 1, e => Run.evaluateWith (evaluate fuel) (execute fuel) e

/-- Execute a statement and keep the diary. -/
def execute : (fuel : Nat) → Stmt → Told Flow
  | 0, _ => throw .exhausted
  | fuel + 1, s => Run.executeWith (evaluate fuel) (execute fuel) fuel s

end

/-- Execute the statements of a program and keep the diary. -/
def program (fuel : Nat) : List Stmt → Told Unit
  | [] => Run.flush
  | s :: rest => do
    let _ ← execute fuel s
    program fuel rest

end Told

/-- What `readline` comes to where some input is left: the next line without what is trimmed, nil if
there is none, and nothing if it is not text. -/
def answerTo (input : List UInt8) : Option Value :=
  if input = [] then some .nil
  else
    match Utf8.decode (splitLine 10 input).1 with
    | .ok text => some (.string (Run.trimLine text))
    | .error _ => none

/-- Answers that are given one after another to what is left of the input, and what they leave. -/
inductive Reads : List UInt8 → List (Option Value) → List UInt8 → Prop
  | nil (input : List UInt8) : Reads input [] input
  | cons {input left : List UInt8} {answers : List (Option Value)}
      (hrest : Reads (splitLine 10 input).2 answers left) :
      Reads input (answerTo input :: answers) left

namespace Reads

variable {input between left : List UInt8} {answers more : List (Option Value)}

theorem append (first : Reads input answers between) (second : Reads between more left) :
    Reads input (answers ++ more) left := by
  induction first with
  | nil input => exact second
  | cons hrest ih => exact .cons (ih second)

theorem single (input : List UInt8) : Reads input [answerTo input] (splitLine 10 input).2 :=
  .cons (.nil _)

end Reads

/-- What the diary tells beyond an earlier one are answers to the input that was left then. -/
def Diary.Leads (d d' : Diary) : Prop :=
  ∃ answers, d'.answers = d.answers ++ answers ∧
    Reads d.machine.host.input answers d'.machine.host.input

theorem Diary.Leads.refl (d : Diary) : d.Leads d :=
  ⟨[], (List.append_nil _).symm, .nil _⟩

/-- A diary that was empty at first tells all that was read. -/
theorem Diary.Leads.reads {m : Machine} {d : Diary} (h : Leads ⟨m, []⟩ d) :
    Reads m.host.input d.answers d.machine.host.input := by
  obtain ⟨answers, hanswers, hreads⟩ := h
  rw [List.nil_append] at hanswers
  rw [hanswers]
  exact hreads

theorem Diary.Leads.trans {d d' d'' : Diary} (first : d.Leads d') (second : d'.Leads d'') :
    d.Leads d'' := by
  obtain ⟨answers, hanswers, hreads⟩ := first
  obtain ⟨more, hmore, hreads'⟩ := second
  refine ⟨answers ++ more, ?_, hreads.append hreads'⟩
  rw [hmore, hanswers, List.append_assoc]

/-! ### Steps and runs -/

theorem Machine.steady_input : Machine.Steady fun m m' ↦ m'.host.input = m.host.input where
  refl _ := rfl
  trans first second := second.trans first
  heap _ := rfl
  host h := h

namespace Run

open Lox.Computation (Moves)

/-- However a computation ends, the input is as it was. -/
abbrev KeepsInput {α : Type} (x : Run α) : Prop :=
  Moves (fun m m' ↦ m'.host.input = m.host.input) x

theorem keepsInput_define (name : String) (value : Value) : KeepsInput (define name value) :=
  fun _ ↦ rfl

theorem keepsInput_assignIn (scope : Option ScopeRef) (name : Token) (value : Value) :
    KeepsInput (assignIn scope name value) := by
  rw [assignIn_eq]
  refine Moves.get fun m ↦ ?_
  split
  · exact fun _ ↦ rfl
  · exact Machine.steady_input.fault _ _

theorem keepsInput_assign (id : NodeId) (name : Token) (value : Value) :
    KeepsInput (assign id name value) := by
  rw [assign_eq]
  exact Moves.get fun m ↦ keepsInput_assignIn (m.scopeOf? id) name value

theorem keepsInput_finishClass (name : Token) (make : Layer → Class)
    (methods : List (String × Function)) : KeepsInput (finishClass name make methods) :=
  Machine.steady_input.bind (fun _ ↦ rfl) fun _ ↦ Moves.get fun _ ↦ keepsInput_assignIn _ _ _

/-- What a call of `readline` comes to, and what it leaves of the input. -/
theorem readLine_spec (line : Nat) (m : Machine) :
    match readLine line m with
    | .ok value m' =>
      answerTo m.host.input = some value ∧ m'.host.input = (splitLine 10 m.host.input).2
    | .error _ m' =>
      answerTo m.host.input = none ∧ m'.host.input = (splitLine 10 m.host.input).2 := by
  have hread : onHost (·.readLine) m =
      .ok m.host.readLine.1 { m with host := m.host.readLine.2 } := rfl
  rw [readLine, Computation.bind_of_ok hread]
  unfold Host.readLine answerTo
  cases m.host.input with
  | nil => exact ⟨rfl, rfl⟩
  | cons b rest =>
    dsimp only
    rw [if_neg (List.cons_ne_nil b rest), splitLine_eq]
    cases Utf8.decode ((b :: rest).takeWhile (· ≠ 10) ++
        ((b :: rest).dropWhile (· ≠ 10)).take 1) with
    | ok text => exact ⟨rfl, rfl⟩
    | error malformed => exact ⟨rfl, rfl⟩

end Run

namespace Told

open Lox.Computation (Related Moves)

variable {α β : Type} {start : Diary}

/-- From a machine and a diary two computations do the same, one with the diary and one without, and
the diary tells what was read. -/
abbrev Tells (start : Diary) (x : Told α) (y : Run α) : Prop :=
  Related (fun d m ↦ d.machine = m ∧ start.Leads d) Eq Eq x y

namespace Tells

theorem pure (a : α) : Tells start (Pure.pure a) (Pure.pure a) :=
  Related.pure rfl

theorem bind {x : Told α} {y : Run α} {f : α → Told β} {g : α → Run β} (hx : Tells start x y)
    (hf : ∀ a, Tells start (f a) (g a)) : Tells start (x >>= f) (y >>= g) := by
  refine Related.bind hx ?_
  rintro a _ rfl
  exact hf a

/-- Nothing needs to be noted of what leaves the input alone. -/
theorem quietly {x : Run α} (hx : Run.KeepsInput x) :
    Tells start (liftM x) x := by
  rintro d _ ⟨rfl, hd⟩
  have hinput := hx d.machine
  change Computation.Alike _ _ _ (Told.quietly x d) (x d.machine)
  unfold Told.quietly
  cases hr : x d.machine with
  | ok a m =>
    rw [hr] at hinput
    exact .ok rfl ⟨rfl, hd.trans ⟨[], (List.append_nil _).symm, hinput ▸ .nil _⟩⟩
  | error halt m =>
    rw [hr] at hinput
    exact .error rfl ⟨rfl, hd.trans ⟨[], (List.append_nil _).symm, hinput ▸ .nil _⟩⟩

theorem fault (line : Nat) (cause : RuntimeFault) :
    Tells start (liftM (Run.fault line cause : Run α)) (Run.fault line cause) :=
  quietly (Machine.steady_input.fault line cause)

theorem get {f : Machine → Told α} {g : Machine → Run α} (hf : ∀ m, Tells start (f m) (g m)) :
    Tells start (liftM (MonadState.get : Run Machine) >>= f) (MonadState.get >>= g) :=
  (quietly fun _ ↦ rfl).bind hf

theorem inScope {x : Told α} {y : Run α} (h : Tells start x y) (scope : ScopeRef) :
    Tells start (Told.inScope scope x) (Run.inScope scope y) := by
  rintro d _ ⟨rfl, hd⟩
  have hinside := h { d with machine := { d.machine with current := scope } } _ ⟨rfl, hd⟩
  unfold Told.inScope Run.inScope
  dsimp only
  generalize x { d with machine := { d.machine with current := scope } } = r at hinside ⊢
  generalize y { d.machine with current := scope } = r' at hinside ⊢
  cases hinside with
  | ok ha hs =>
    obtain ⟨rfl, hleads⟩ := hs
    exact .ok ha ⟨rfl, hleads⟩
  | error he hs =>
    obtain ⟨rfl, hleads⟩ := hs
    exact .error he ⟨rfl, hleads⟩

theorem callBuiltin (b : Builtin) (line : Nat) (arguments : List Value) :
    Tells start (Told.callBuiltin b line arguments) (Run.callBuiltin b line arguments) := by
  by_cases hb : b = .readline
  · subst hb
    rintro d _ ⟨rfl, hd⟩
    have hspec := Run.readLine_spec line d.machine
    change Computation.Alike _ _ _ (Told.noting (Run.readLine line) d) (Run.readLine line d.machine)
    unfold Told.noting
    cases hr : Run.readLine line d.machine with
    | ok value m =>
      rw [hr] at hspec
      obtain ⟨hanswer, hleft⟩ := hspec
      refine .ok rfl ⟨rfl, hd.trans ⟨[some value], rfl, ?_⟩⟩
      dsimp only
      rw [hleft, ← hanswer]
      exact .single _
    | error halt m =>
      rw [hr] at hspec
      obtain ⟨hanswer, hleft⟩ := hspec
      refine .error rfl ⟨rfl, hd.trans ⟨[none], rfl, ?_⟩⟩
      dsimp only
      rw [hleft, ← hanswer]
      exact .single _
  · have hquiet : Told.callBuiltin b line arguments =
        Told.quietly (Run.callBuiltin b line arguments) := by
      cases b with
      | readline => exact absurd rfl hb
      | _ => rfl
    rw [hquiet]
    exact quietly (Machine.steady_input.callBuiltin hb line arguments)

section Steps

variable {tell : Expr → Told Value} {evaluate : Expr → Run Value} {act : Stmt → Told Flow}
  {execute : Stmt → Run Flow}

theorem sequence (hexecute : ∀ s, Tells start (act s) (execute s)) (ss : List Stmt) :
    Tells start (Run.sequence act ss) (Run.sequence execute ss) := by
  induction ss with
  | nil => exact pure _
  | cons s rest ih =>
    refine (hexecute s).bind fun flow ↦ ?_
    cases flow with
    | normal => exact ih
    | _ => exact pure _

theorem valuesOf (hevaluate : ∀ e, Tells start (tell e) (evaluate e)) (es : List Expr) :
    Tells start (Run.valuesOf tell es) (Run.valuesOf evaluate es) := by
  induction es with
  | nil => exact pure _
  | cons e rest ih => exact (hevaluate e).bind fun v ↦ ih.bind fun vs ↦ pure _

theorem valueOrNil (hevaluate : ∀ e, Tells start (tell e) (evaluate e)) (o : Option Expr) :
    Tells start (Run.valueOrNil tell o) (Run.valueOrNil evaluate o) := by
  cases o with
  | none => exact pure _
  | some e => exact hevaluate e

theorem loop {tellCondition : Told Value} {condition : Run Value} {actBody : Told Flow}
    {body : Run Flow} (hcondition : Tells start tellCondition condition)
    (hbody : Tells start actBody body) (rounds : Nat) :
    Tells start (Run.loop tellCondition actBody rounds) (Run.loop condition body rounds) := by
  induction rounds with
  | zero => exact quietly (Computation.Moves.throw Machine.steady_input.refl _)
  | succ rounds ih =>
    refine hcondition.bind fun v ↦ ?_
    cases v.isTruthy with
    | false => exact pure _
    | true =>
      refine hbody.bind fun flow ↦ ?_
      cases flow with
      | normal => exact ih
      | «return» value => exact pure _
      | «break» => exact pure _
      | «continue» => exact ih

theorem block (hexecute : ∀ s, Tells start (act s) (execute s)) (body : List Stmt) :
    Tells start (Run.block act body) (Run.block execute body) := by
  refine get fun m ↦ ?_
  refine (quietly (Machine.steady_input.openScope m.current {})).bind fun scope ↦ ?_
  exact (sequence hexecute body).inScope scope

theorem callFunction (hexecute : ∀ s, Tells start (act s) (execute s)) (f : Function)
    (arguments : List Value) :
    Tells start (Run.callFunction act f arguments) (Run.callFunction execute f arguments) := by
  refine (quietly (Machine.steady_input.openScope _ _)).bind fun scope ↦ ?_
  refine ((sequence hexecute f.routine.body).inScope scope).bind fun flow ↦ ?_
  split
  · exact quietly (Machine.steady_input.valueIn _ _ _)
  · cases flow with
    | «return» value => exact pure _
    | _ => exact pure _

theorem construct (hexecute : ∀ s, Tells start (act s) (execute s)) (c : Class)
    (arguments : List Value) :
    Tells start (Run.construct act c arguments) (Run.construct execute c arguments) := by
  refine (quietly (Machine.steady_input.instantiate c)).bind fun i ↦ ?_
  cases c.findMethod? Class.initializerName with
  | none => exact pure _
  | some init =>
    refine (quietly (Machine.steady_input.bindMethod init i)).bind fun f ↦ ?_
    refine (callFunction hexecute f arguments).bind fun _ ↦ ?_
    exact pure _

theorem call (hexecute : ∀ s, Tells start (act s) (execute s)) (callee : Callee) (line : Nat)
    (arguments : List Value) :
    Tells start (Run.call act callee line arguments) (Run.call execute callee line arguments) := by
  cases callee with
  | builtin b => exact callBuiltin b line arguments
  | function f => exact callFunction hexecute f arguments
  | cls c => exact construct hexecute c arguments

theorem declareClass (hevaluate : ∀ e, Tells start (tell e) (evaluate e)) (name : Token)
    (superclass : Option Expr) (methods : List (Routine Stmt)) :
    Tells start (Run.declareClass tell name superclass methods)
      (Run.declareClass evaluate name superclass methods) := by
  have hI := Machine.steady_input
  rw [Run.declareClass_eq_methodsOf, Run.declareClass_eq_methodsOf]
  refine (quietly (Run.keepsInput_define _ _)).bind fun _ ↦ ?_
  cases superclass with
  | none =>
    refine get fun m ↦ (quietly (hI.methodsOf m.current methods)).bind fun fs ↦ ?_
    exact quietly (Run.keepsInput_finishClass name .root fs)
  | some e =>
    refine (hevaluate e).bind fun v ↦ ?_
    cases v with
    | cls c =>
      refine get fun m ↦ (quietly (hI.openScope m.current _)).bind fun closure ↦ ?_
      refine (quietly (hI.methodsOf closure methods)).bind fun fs ↦ ?_
      exact quietly (Run.keepsInput_finishClass name (.derived · c) fs)
    | _ => exact fault _ _

theorem evaluateWith (hevaluate : ∀ e, Tells start (tell e) (evaluate e))
    (hexecute : ∀ s, Tells start (act s) (execute s)) (e : Expr) :
    Tells start (Run.evaluateWith tell act e) (Run.evaluateWith evaluate execute e) := by
  have hI := Machine.steady_input
  cases e with
  | literal value => exact pure _
  | grouping inner => exact hevaluate inner
  | unary op operand => exact (hevaluate operand).bind fun v ↦ quietly (hI.ofExcept _ _)
  | binary op left right =>
    exact (hevaluate left).bind fun a ↦ (hevaluate right).bind fun b ↦ quietly (hI.ofExcept _ _)
  | logical op left right =>
    refine (hevaluate left).bind fun a ↦ ?_
    cases a.decides op.kind with
    | true => exact pure a
    | false => exact hevaluate right
  | var id name => exact quietly (hI.lookUp id name)
  | assign id name value =>
    refine (hevaluate value).bind fun v ↦ ?_
    refine (quietly (Run.keepsInput_assign id name v)).bind fun _ ↦ ?_
    exact pure v
  | call callee paren arguments =>
    refine (hevaluate callee).bind fun v ↦ ?_
    cases v.callee? with
    | none => exact fault _ _
    | some target =>
      refine (valuesOf hevaluate arguments).bind fun vs ↦ ?_
      dsimp only
      split
      · exact (fault _ _).bind fun _ ↦ call hexecute _ _ _
      · exact call hexecute _ _ _
  | get object name =>
    refine (hevaluate object).bind fun v ↦ ?_
    cases v with
    | «instance» i => exact quietly (hI.property i name)
    | _ => exact fault _ _
  | set object name value =>
    refine (hevaluate object).bind fun v ↦ ?_
    cases v with
    | «instance» i =>
      refine (hevaluate value).bind fun w ↦ ?_
      refine (quietly (hI.setField i name.lexeme w)).bind fun _ ↦ ?_
      exact pure w
    | _ => exact fault _ _
  | this id keyword => exact quietly (hI.lookUp id keyword)
  | super id keyword method => exact quietly (hI.superMethod id keyword method)

theorem executeWith (hevaluate : ∀ e, Tells start (tell e) (evaluate e))
    (hexecute : ∀ s, Tells start (act s) (execute s)) (rounds : Nat) (s : Stmt) :
    Tells start (Run.executeWith tell act rounds s)
      (Run.executeWith evaluate execute rounds s) := by
  have hI := Machine.steady_input
  cases s with
  | block body => exact block hexecute body
  | classDecl name superclass methods =>
    exact (declareClass hevaluate name superclass methods).bind fun _ ↦ pure _
  | expression e => exact (hevaluate e).bind fun _ ↦ pure _
  | function routine =>
    refine get fun m ↦ (quietly (hI.newFunction routine m.current false)).bind fun f ↦ ?_
    exact (quietly (Run.keepsInput_define routine.name.lexeme (.function f))).bind fun _ ↦ pure _
  | ifElse condition thenBranch elseBranch =>
    refine (hevaluate condition).bind fun v ↦ ?_
    cases v.isTruthy with
    | true => exact hexecute thenBranch
    | false =>
      cases elseBranch with
      | none => exact pure _
      | some s => exact hexecute s
  | print e =>
    exact (hevaluate e).bind fun v ↦ (quietly (hI.printLine _)).bind fun _ ↦ pure _
  | «return» keyword value => exact (valueOrNil hevaluate value).bind fun _ ↦ pure _
  | var name initializer =>
    refine (valueOrNil hevaluate initializer).bind fun v ↦ ?_
    refine (quietly (Run.keepsInput_define name.lexeme v)).bind fun _ ↦ ?_
    exact pure _
  | «while» condition body => exact loop (hevaluate condition) (hexecute body) rounds
  | «break» keyword => exact pure _
  | «continue» keyword => exact pure _

end Steps

end Tells

/-- Whatever a machine evaluates and executes, it does so too with a diary, which tells what was
read. -/
theorem evaluate_and_execute (fuel : Nat) :
    (∀ e, Tells start (Told.evaluate fuel e) (Run.evaluate fuel e)) ∧
      ∀ s, Tells start (Told.execute fuel s) (Run.execute fuel s) := by
  induction fuel with
  | zero =>
    refine ⟨fun e ↦ ?_, fun s ↦ ?_⟩
    · rw [Told.evaluate, Run.evaluate]
      exact Related.throw rfl
    · rw [Told.execute, Run.execute]
      exact Related.throw rfl
  | succ fuel ih =>
    obtain ⟨hevaluate, hexecute⟩ := ih
    refine ⟨fun e ↦ ?_, fun s ↦ ?_⟩
    · rw [Told.evaluate, Run.evaluate]
      exact .evaluateWith hevaluate hexecute e
    · rw [Told.execute, Run.execute]
      exact .executeWith hevaluate hexecute fuel s

theorem tells_program (fuel : Nat) (statements : List Stmt) :
    Tells start (Told.program fuel statements) (Run.program fuel statements) := by
  induction statements with
  | nil => exact .quietly Machine.steady_input.flush
  | cons s rest ih => exact ((evaluate_and_execute fuel).2 s).bind fun _ ↦ ih

end Told

end Lox
