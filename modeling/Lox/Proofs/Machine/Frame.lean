import Lox.Proofs.Machine.Agreement
import Lox.Proofs.Machine.Likeness

/-!
# What running leaves alone

Whatever a machine evaluates or executes, from whatever state and however it ends: the machine is
back in the scope it came from, scopes keep their places and their names, no depth is recorded, and
nothing is reported.  No assumption about trees or heaps is needed for this.
-/

namespace Lox

/-- What running does to the world: the output fails when it would have failed, and the stream of
diagnostics is as it was. -/
structure Host.Serves (h h' : Host) : Prop where
  keeps : h.Keeps h'
  err : h'.err = h.err
  reported : Channel.err.pieces h'.log = Channel.err.pieces h.log

namespace Host.Serves

theorem refl (h : Host) : h.Serves h :=
  ⟨⟨rfl, rfl⟩, rfl, rfl⟩

theorem write (h : Host) (text : String) : h.Serves (h.write .out text).2 := by
  refine ⟨h.keeps_write text, ?_, ?_⟩
  · unfold Host.write
    dsimp only [Host.sink, Host.setSink]
    split
    · rfl
    · rfl
  · unfold Host.write
    dsimp only [Host.sink, Host.setSink]
    split
    · rfl
    · rw [Channel.pieces_push]
      exact List.append_nil _

theorem flush (h : Host) : h.Serves (h.flush .out).2 := by
  unfold Host.flush
  dsimp only [Host.sink, Host.setSink]
  split
  · exact ⟨⟨rfl, rfl⟩, rfl, rfl⟩
  · exact ⟨⟨rfl, rfl⟩, rfl, rfl⟩

theorem of_consults {b : Builtin} {h h' : Host} (hhost : b.Consults h h') : h.Serves h' :=
  ⟨.of_consults hhost, hhost.err, congrArg _ hhost.log⟩

end Host.Serves

/-- What every computation leaves alone. -/
structure Machine.Spares (m m' : Machine) : Prop where
  follows : m.Follows m'
  host : m.host.Serves m'.host

namespace Machine.Spares

theorem refl (m : Machine) : m.Spares m :=
  ⟨.refl m, .refl _⟩

theorem trans {m m' m'' : Machine} (first : m.Spares m') (second : m'.Spares m'') :
    m.Spares m'' where
  follows := first.follows.trans second.follows
  host :=
    { keeps := (first.follows.trans second.follows).host
      err := second.host.err.trans first.host.err
      reported := second.host.reported.trans first.host.reported }

theorem of_heap {m : Machine} {heap : Heap} (h : m.heap.Extends heap) :
    m.Spares { m with heap } :=
  ⟨⟨h, rfl, rfl, rfl, rfl⟩, .refl _⟩

theorem of_host {m : Machine} {host : Host} (h : m.host.Serves host) :
    m.Spares { m with host } :=
  ⟨⟨.refl _, rfl, rfl, h.keeps⟩, h⟩

end Machine.Spares

namespace Run

variable {α β : Type}

/-- A computation that leaves alone what it should, however it ends. -/
abbrev Sparing (x : Run α) : Prop :=
  Computation.Moves Machine.Spares x

namespace Sparing

theorem pure (a : α) : Sparing (Pure.pure a : Run α) :=
  Computation.Moves.pure Machine.Spares.refl a

theorem throw (halt : Halt) : Sparing (MonadExcept.throw halt : Run α) :=
  Computation.Moves.throw Machine.Spares.refl halt

theorem bind {x : Run α} {f : α → Run β} (hx : Sparing x) (hf : ∀ a, Sparing (f a)) :
    Sparing (x >>= f) :=
  Computation.Moves.bind Machine.Spares.trans hx hf

theorem get {f : Machine → Run α} (hf : ∀ m, Sparing (f m)) : Sparing (MonadState.get >>= f) :=
  fun m ↦ hf m m

theorem fault (line : Nat) (cause : RuntimeFault) : Sparing (Run.fault line cause : Run α) :=
  throw _

theorem onHeap {change : Heap → α × Heap} (h : ∀ heap : Heap, heap.Extends (change heap).2) :
    Sparing (Run.onHeap change) :=
  fun m ↦ .of_heap (h m.heap)

theorem onHost {change : Host → α × Host} (h : ∀ host : Host, host.Serves (change host).2) :
    Sparing (Run.onHost change) :=
  fun m ↦ .of_host (h m.host)

theorem modifyHeap {change : Machine → Heap} (h : ∀ m : Machine, m.heap.Extends (change m)) :
    Sparing (modify fun m ↦ { m with heap := change m } : Run Unit) :=
  fun m ↦ .of_heap (h m)

/-- The scope a computation runs in is left again however it ends. -/
theorem inScope {x : Run α} (hx : Sparing x) (scope : ScopeRef) :
    Sparing (Run.inScope scope x) := by
  intro m
  have hinside := hx { m with current := scope }
  unfold Run.inScope
  dsimp only
  generalize x { m with current := scope } = r at hinside ⊢
  cases r with
  | ok a m' =>
    obtain ⟨⟨hheap, -, haddresses, hkeeps⟩, hhost⟩ := hinside
    exact ⟨⟨hheap, rfl, haddresses, hkeeps⟩, hhost⟩
  | error e m' =>
    obtain ⟨⟨hheap, -, haddresses, hkeeps⟩, hhost⟩ := hinside
    exact ⟨⟨hheap, rfl, haddresses, hkeeps⟩, hhost⟩

theorem printLine (text : String) : Sparing (Run.printLine text) := by
  refine (onHost fun host ↦ .write host _).bind fun result ↦ ?_
  cases result with
  | ok _ => exact pure _
  | error failure => exact throw _

theorem flush : Sparing Run.flush := by
  refine (onHost .flush).bind fun result ↦ ?_
  cases result with
  | ok _ => exact pure _
  | error failure => exact throw _

theorem valueIn (scope : Option ScopeRef) (name : String) (line : Nat) :
    Sparing (Run.valueIn scope name line) := by
  refine get fun m ↦ ?_
  split
  · exact pure _
  · exact fault _ _

theorem lookUp (id : NodeId) (name : Token) : Sparing (Run.lookUp id name) :=
  get fun _ ↦ valueIn _ _ _

theorem assignIn (scope : Option ScopeRef) (name : Token) (value : Value) :
    Sparing (Run.assignIn scope name value) := by
  rw [assignIn_eq]
  refine get fun m ↦ ?_
  split
  · exact modifyHeap fun m ↦ m.heap.extends_define _ _ _
  · exact fault _ _

theorem assign (id : NodeId) (name : Token) (value : Value) :
    Sparing (Run.assign id name value) := by
  rw [assign_eq]
  exact get fun _ ↦ assignIn _ _ _

theorem define (name : String) (value : Value) : Sparing (Run.define name value) :=
  modifyHeap fun m ↦ m.heap.extends_define _ _ _

theorem openScope (parent : ScopeRef) (bindings : Bindings Value) :
    Sparing (Run.openScope parent bindings) :=
  onHeap fun heap ↦ heap.extends_openScope _ _

theorem newFunction (routine : Routine Stmt) (closure : ScopeRef) (isInitializer : Bool) :
    Sparing (Run.newFunction routine closure isInitializer) :=
  (onHeap Heap.extends_freshIdentity).bind fun _ ↦ pure _

theorem bindMethod (method : Function) (i : Instance) : Sparing (Run.bindMethod method i) :=
  (openScope _ _).bind fun _ ↦ newFunction _ _ _

theorem callBuiltin (b : Builtin) (line : Nat) (arguments : List Value) :
    Sparing (Run.callBuiltin b line arguments) :=
  moves_callBuiltin b line arguments fun _ _ hhost ↦ .of_host (.of_consults hhost)

/-! ### Steps and runs -/

section Steps

variable {evaluate : Expr → Run Value} {execute : Stmt → Run Flow}

theorem sequence (hexecute : ∀ s, Sparing (execute s)) (ss : List Stmt) :
    Sparing (Run.sequence execute ss) := by
  induction ss with
  | nil => exact pure _
  | cons s rest ih =>
    refine (hexecute s).bind fun flow ↦ ?_
    cases flow with
    | normal => exact ih
    | _ => exact pure _

theorem valuesOf (hevaluate : ∀ e, Sparing (evaluate e)) (es : List Expr) :
    Sparing (Run.valuesOf evaluate es) := by
  induction es with
  | nil => exact pure _
  | cons e rest ih => exact (hevaluate e).bind fun _ ↦ ih.bind fun _ ↦ pure _

theorem valueOrNil (hevaluate : ∀ e, Sparing (evaluate e)) (o : Option Expr) :
    Sparing (Run.valueOrNil evaluate o) := by
  cases o with
  | none => exact pure _
  | some e => exact hevaluate e

theorem loop {condition : Run Value} {body : Run Flow} (hcondition : Sparing condition)
    (hbody : Sparing body) (rounds : Nat) : Sparing (Run.loop condition body rounds) := by
  induction rounds with
  | zero => exact throw _
  | succ rounds ih =>
    refine hcondition.bind fun v ↦ ?_
    split
    · refine hbody.bind fun flow ↦ ?_
      cases flow with
      | normal => exact ih
      | «return» value => exact pure _
      | «break» => exact pure _
      | «continue» => exact ih
    · exact pure _

theorem block (hexecute : ∀ s, Sparing (execute s)) (body : List Stmt) :
    Sparing (Run.block execute body) :=
  get fun _ ↦ (openScope _ _).bind fun scope ↦ (sequence hexecute body).inScope scope

theorem callFunction (hexecute : ∀ s, Sparing (execute s)) (f : Function)
    (arguments : List Value) : Sparing (Run.callFunction execute f arguments) := by
  refine (openScope _ _).bind fun scope ↦ ?_
  refine ((sequence hexecute f.routine.body).inScope scope).bind fun flow ↦ ?_
  split
  · exact valueIn _ _ _
  · cases flow with
    | «return» value => exact pure _
    | _ => exact pure _

theorem construct (hexecute : ∀ s, Sparing (execute s)) (c : Class) (arguments : List Value) :
    Sparing (Run.construct execute c arguments) := by
  refine (onHeap fun heap ↦ heap.extends_instantiate c).bind fun i ↦ ?_
  cases c.findMethod? Class.initializerName with
  | none => exact pure _
  | some init =>
    refine (bindMethod init i).bind fun f ↦ ?_
    refine (callFunction hexecute f arguments).bind fun _ ↦ ?_
    exact pure _

theorem call (hexecute : ∀ s, Sparing (execute s)) (callee : Callee) (line : Nat)
    (arguments : List Value) : Sparing (Run.call execute callee line arguments) := by
  cases callee with
  | builtin b => exact callBuiltin b line arguments
  | function f => exact callFunction hexecute f arguments
  | cls c => exact construct hexecute c arguments

theorem property (i : Instance) (name : Token) : Sparing (Run.property i name) := by
  refine get fun m ↦ ?_
  split
  · exact pure _
  · split
    · exact (bindMethod _ _).bind fun _ ↦ pure _
    · exact fault _ _

theorem superMethod (id : NodeId) (keyword method : Token) :
    Sparing (Run.superMethod id keyword method) := by
  refine get fun m ↦ ?_
  split
  · exact fault _ _
  · refine (valueIn _ _ _).bind fun superclass ↦ (valueIn _ _ _).bind fun object ↦ ?_
    split
    · split
      · exact (bindMethod _ _).bind fun _ ↦ pure _
      · exact fault _ _
    · exact fault _ _

theorem methodsOf (closure : ScopeRef) (methods : List (Routine Stmt)) :
    Sparing (Run.methodsOf closure methods) := by
  induction methods with
  | nil => exact pure _
  | cons method rest ih =>
    exact (newFunction _ _ _).bind fun _ ↦ ih.bind fun _ ↦ pure _

theorem finishClass (name : Token) (make : Layer → Class) (methods : List (String × Function)) :
    Sparing (Run.finishClass name make methods) :=
  (onHeap Heap.extends_freshIdentity).bind fun _ ↦ get fun _ ↦ assignIn _ _ _

theorem declareClass (hevaluate : ∀ e, Sparing (evaluate e)) (name : Token)
    (superclass : Option Expr) (methods : List (Routine Stmt)) :
    Sparing (Run.declareClass evaluate name superclass methods) := by
  refine (define _ _).bind fun _ ↦ ?_
  cases superclass with
  | none => exact get fun _ ↦ (methodsOf _ methods).bind fun fs ↦ finishClass _ _ fs
  | some e =>
    refine (hevaluate e).bind fun v ↦ ?_
    split
    · refine get fun _ ↦ (openScope _ _).bind fun closure ↦ ?_
      rw [inScope_methodsOf]
      exact (methodsOf closure methods).bind fun fs ↦ finishClass _ _ fs
    · exact fault _ _

theorem ofExcept (line : Nat) (result : Except RuntimeFault Value) :
    Sparing (Run.ofExcept line result) := by
  cases result with
  | ok v => exact pure _
  | error cause => exact fault _ _

theorem evaluateWith (hevaluate : ∀ e, Sparing (evaluate e)) (hexecute : ∀ s, Sparing (execute s))
    (e : Expr) : Sparing (Run.evaluateWith evaluate execute e) := by
  cases e with
  | literal value => exact pure _
  | grouping inner => exact hevaluate inner
  | unary op operand => exact (hevaluate operand).bind fun _ ↦ ofExcept _ _
  | binary op left right =>
    exact (hevaluate left).bind fun _ ↦ (hevaluate right).bind fun _ ↦ ofExcept _ _
  | logical op left right =>
    refine (hevaluate left).bind fun a ↦ ?_
    split
    · exact pure _
    · exact hevaluate right
  | var id name => exact lookUp id name
  | assign id name value =>
    exact (hevaluate value).bind fun v ↦ (assign id name v).bind fun _ ↦ pure _
  | call callee paren arguments =>
    refine (hevaluate callee).bind fun v ↦ ?_
    split
    · exact fault _ _
    · refine (valuesOf hevaluate arguments).bind fun vs ↦ ?_
      split
      · exact (fault _ _).bind fun _ ↦ call hexecute _ _ _
      · exact call hexecute _ _ _
  | get object name =>
    refine (hevaluate object).bind fun v ↦ ?_
    split
    · exact property _ name
    · exact fault _ _
  | set object name value =>
    refine (hevaluate object).bind fun v ↦ ?_
    split
    · refine (hevaluate value).bind fun w ↦ ?_
      refine (modifyHeap fun m ↦ m.heap.extends_setField _ _ _).bind fun _ ↦ ?_
      exact pure _
    · exact fault _ _
  | this id keyword => exact lookUp id keyword
  | super id keyword method => exact superMethod id keyword method

theorem executeWith (hevaluate : ∀ e, Sparing (evaluate e)) (hexecute : ∀ s, Sparing (execute s))
    (rounds : Nat) (s : Stmt) : Sparing (Run.executeWith evaluate execute rounds s) := by
  cases s with
  | block body => exact block hexecute body
  | classDecl name superclass methods =>
    exact (declareClass hevaluate name superclass methods).bind fun _ ↦ pure _
  | expression e => exact (hevaluate e).bind fun _ ↦ pure _
  | function routine =>
    exact get fun _ ↦ (newFunction _ _ _).bind fun f ↦ (define _ _).bind fun _ ↦ pure _
  | ifElse condition thenBranch elseBranch =>
    refine (hevaluate condition).bind fun v ↦ ?_
    split
    · exact hexecute thenBranch
    · cases elseBranch with
      | none => exact pure _
      | some s => exact hexecute s
  | print e => exact (hevaluate e).bind fun v ↦ (printLine _).bind fun _ ↦ pure _
  | «return» keyword value => exact (valueOrNil hevaluate value).bind fun _ ↦ pure _
  | var name initializer =>
    exact (valueOrNil hevaluate initializer).bind fun v ↦ (define _ _).bind fun _ ↦ pure _
  | «while» condition body => exact loop (hevaluate condition) (hexecute body) rounds
  | «break» keyword => exact pure _
  | «continue» keyword => exact pure _

end Steps

theorem evaluate_and_execute (fuel : Nat) :
    (∀ e, Sparing (Run.evaluate fuel e)) ∧ ∀ s, Sparing (Run.execute fuel s) := by
  induction fuel with
  | zero =>
    refine ⟨fun e ↦ ?_, fun s ↦ ?_⟩
    · rw [Run.evaluate]
      exact throw _
    · rw [Run.execute]
      exact throw _
  | succ fuel ih =>
    obtain ⟨hevaluate, hexecute⟩ := ih
    refine ⟨fun e ↦ ?_, fun s ↦ ?_⟩
    · rw [Run.evaluate]
      exact evaluateWith hevaluate hexecute e
    · rw [Run.execute]
      exact executeWith hevaluate hexecute fuel s

theorem program (fuel : Nat) (statements : List Stmt) :
    Sparing (Run.program fuel statements) := by
  induction statements with
  | nil => exact flush
  | cons s rest ih => exact ((evaluate_and_execute fuel).2 s).bind fun _ ↦ ih

end Sparing

end Run

end Lox
