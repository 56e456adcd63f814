import Lox.Proofs.Bindings
import Lox.Proofs.Machine.Guard
import Lox.Proofs.Machine.Host
import Lox.Proofs.Machine.Mirror

/-!
# The guard is never noticed

Every function that a machine holds contains its jumps: it was declared by a program that was
accepted, and methods are only copied.  So no body ends in a way that a guard would object to.
-/

namespace Lox

/-- A function whose body contains its jumps.  An initializer must be one for the body, too. -/
def Function.Contained (f : Function) : Prop :=
  ∃ kind, kind ≠ .none ∧ (f.isInitializer = true → kind = .initializer) ∧
    Stmt.ContainedAll false kind f.routine.body

def Class.Contained (c : Class) : Prop :=
  ∀ name f, c.findMethod? name = some f → f.Contained

def Value.Contained : Value → Prop
  | .function f => f.Contained
  | .cls c => c.Contained
  | .instance i => i.cls.Contained
  | _ => True

/-- All functions that a heap holds contain their jumps. -/
structure Heap.Contained (h : Heap) : Prop where
  bound : ∀ scope name value, h.get? scope name = some value → value.Contained
  fields : ∀ i name value, (h.fieldsOf i).get? name = some value → value.Contained

def Callee.Contained : Callee → Prop
  | .builtin _ => True
  | .function f => f.Contained
  | .cls c => c.Contained

/-- A value that is returned is contained. -/
def Flow.Contained (flow : Flow) : Prop :=
  ∀ value, flow = .return value → value.Contained

theorem Flow.contained_normal : Flow.normal.Contained := by
  intro value h
  cases h

theorem Value.contained_of_isData {v : Value} (hv : v.IsData) : v.Contained := by
  cases v with
  | nil => trivial
  | bool value => trivial
  | number value => trivial
  | string text => trivial
  | _ => exact hv.elim

theorem Value.Contained.callee? {v : Value} (hv : v.Contained) {callee : Callee}
    (h : v.callee? = some callee) : callee.Contained := by
  cases v with
  | builtin b =>
    cases h
    trivial
  | function f =>
    cases h
    exact hv
  | cls c =>
    cases h
    exact hv
  | _ => cases h

/-- Once its jumps are contained, a body ends as a body should. -/
theorem Flow.Within.endsBody {kind : FunctionContext} {isInitializer : Bool} {flow : Flow}
    (h : flow.Within false kind) (hkind : isInitializer = true → kind = .initializer) :
    flow.endsBody isInitializer = true := by
  cases flow with
  | normal => rfl
  | «break» => cases h
  | «continue» => cases h
  | «return» value =>
    cases isInitializer with
    | true =>
      rw [h.2 (hkind rfl)]
      rfl
    | false => cases value <;> rfl

namespace Heap.Contained

variable {h : Heap}

theorem openScope (hh : h.Contained) (parent : Option ScopeRef) {bindings : Bindings Value}
    (hbindings : ∀ name value, bindings.get? name = some value → value.Contained) :
    (h.openScope parent bindings).2.Contained where
  bound scope name value hvalue := by
    rcases Heap.get?_of_openScope hvalue with hold | ⟨-, hnew⟩
    · exact hh.bound scope name value hold
    · exact hbindings name value hnew
  fields := hh.fields

theorem define (hh : h.Contained) (scope : ScopeRef) (name : String) {value : Value}
    (hvalue : value.Contained) : (h.define scope name value).Contained where
  bound other key found hfound := by
    rcases Heap.get?_of_define hfound with hold | ⟨-, -, rfl⟩
    · exact hh.bound other key found hold
    · exact hvalue
  fields := hh.fields

theorem instantiate (hh : h.Contained) (c : Class) : (h.instantiate c).2.Contained where
  bound := hh.bound
  fields i name value hvalue := by
    rw [Heap.fieldsOf_instantiate] at hvalue
    exact hh.fields i name value hvalue

theorem setField (hh : h.Contained) (i : Instance) (name : String) {value : Value}
    (hvalue : value.Contained) : (h.setField i name value).Contained where
  bound := hh.bound
  fields j key found hfound := by
    rcases Heap.get?_of_setField hfound with hold | rfl
    · exact hh.fields j key found hold
    · exact hvalue

theorem freshIdentity (hh : h.Contained) : h.freshIdentity.2.Contained where
  bound := hh.bound
  fields := hh.fields

end Heap.Contained

/-! ### Two computations -/

namespace Run

open Lox.Computation (EndsIn Related Yields)

variable {α β : Type}

/-- From a machine whose functions contain their jumps two computations do the same, and leave such
a machine behind. -/
def Matching (Q : α → Prop) (x y : Run α) : Prop :=
  Related (fun m m' ↦ m = m' ∧ m.heap.Contained) Eq (fun a a' ↦ a = a' ∧ Q a) x y

namespace Matching

variable {Q : α → Prop} {R : β → Prop} {x y : Run α} {f g : α → Run β}

theorem pure {a : α} (ha : Q a) : Matching Q (Pure.pure a) (Pure.pure a) :=
  Related.pure ⟨rfl, ha⟩

theorem throw (halt : Halt) : Matching Q (MonadExcept.throw halt) (MonadExcept.throw halt) :=
  Related.throw rfl

theorem bind (hx : Matching Q x y) (hf : ∀ a, Q a → Matching R (f a) (g a)) :
    Matching R (x >>= f) (y >>= g) := by
  refine Related.bind hx ?_
  rintro a _ ⟨rfl, ha⟩
  exact hf a ha

theorem get {f g : Machine → Run α} (h : ∀ m, m.heap.Contained → Matching Q (f m) (g m)) :
    Matching Q (MonadState.get >>= f) (MonadState.get >>= g) := by
  rintro m _ ⟨rfl, hm⟩
  exact h m hm m m ⟨rfl, hm⟩

theorem and_yields {P : α → Prop} (h : Matching Q x y) (hx : Yields P x) :
    Matching (fun a ↦ Q a ∧ P a) x y :=
  (Related.and_yields h hx).mono fun _ _ ⟨⟨heq, hQ⟩, hP⟩ ↦ ⟨heq, hQ, hP⟩

theorem fault (line : Nat) (cause : RuntimeFault) :
    Matching Q (Run.fault line cause) (Run.fault line cause) :=
  throw _

theorem onHeap {change : Heap → α × Heap}
    (h : ∀ heap, heap.Contained → (change heap).2.Contained ∧ Q (change heap).1) :
    Matching Q (Run.onHeap change) (Run.onHeap change) := by
  rintro m _ ⟨rfl, hm⟩
  obtain ⟨hheap, hresult⟩ := h m.heap hm
  exact .ok ⟨rfl, hresult⟩ ⟨rfl, hheap⟩

/-- What changes nothing but the host leaves the functions of a machine alone. -/
theorem of_hostOnly (hx : HostOnly x) (hQ : Yields Q x) : Matching Q x x := by
  rintro m _ ⟨rfl, hm⟩
  cases hr : x m with
  | ok a m' =>
    obtain ⟨host, rfl⟩ := hx.of_ok hr
    exact .ok ⟨rfl, hQ m a _ hr⟩ ⟨rfl, hm⟩
  | error halt m' =>
    obtain ⟨host, rfl⟩ := hx.of_error hr
    exact .error rfl ⟨rfl, hm⟩

theorem modifyHeap {change : Machine → Heap} (h : ∀ m, m.heap.Contained → (change m).Contained) :
    Matching (fun _ ↦ True) (modify fun m ↦ { m with heap := change m } : Run Unit)
      (modify fun m ↦ { m with heap := change m }) := by
  rintro m _ ⟨rfl, hm⟩
  exact .ok ⟨rfl, trivial⟩ ⟨rfl, h m hm⟩

theorem inScope (h : Matching Q x y) (scope : ScopeRef) :
    Matching Q (Run.inScope scope x) (Run.inScope scope y) := by
  rintro m _ ⟨rfl, hm⟩
  have hinside := h { m with current := scope } _ ⟨rfl, hm⟩
  unfold Run.inScope
  dsimp only
  generalize x { m with current := scope } = r at hinside ⊢
  generalize y { m with current := scope } = r' at hinside ⊢
  cases hinside with
  | ok ha hs =>
    obtain ⟨rfl, hheap⟩ := hs
    exact .ok ha ⟨rfl, hheap⟩
  | error he hs =>
    obtain ⟨rfl, hheap⟩ := hs
    exact .error he ⟨rfl, hheap⟩

theorem eq {m : Machine} (h : Matching Q x y) (hm : m.heap.Contained) : y m = x m := by
  have hends := h m m ⟨rfl, hm⟩
  generalize x m = r at hends ⊢
  generalize y m = r' at hends ⊢
  cases hends with
  | ok ha hs => rw [ha.1, hs.1]
  | error he hs => rw [he, hs.1]

theorem endsIn {m : Machine} (h : Matching Q x y) (hm : m.heap.Contained) :
    EndsIn (fun m' ↦ m'.heap.Contained) x m := by
  have hends := h m m ⟨rfl, hm⟩
  unfold EndsIn
  generalize x m = r at hends ⊢
  generalize y m = r' at hends
  cases hends with
  | ok _ hs => exact hs.2
  | error _ hs => exact hs.2

theorem printLine (text : String) :
    Matching (fun _ ↦ True) (Run.printLine text) (Run.printLine text) :=
  of_hostOnly (.printLine text) (.any _)

theorem valueIn (scope : Option ScopeRef) (name : String) (line : Nat) :
    Matching Value.Contained (Run.valueIn scope name line) (Run.valueIn scope name line) := by
  refine get fun m hm ↦ ?_
  split
  · rename_i value hvalue
    obtain ⟨target, -, hget⟩ := Option.bind_eq_some_iff.1 hvalue
    exact pure (hm.bound target name value hget)
  · exact fault _ _

theorem lookUp (id : NodeId) (name : Token) :
    Matching Value.Contained (Run.lookUp id name) (Run.lookUp id name) :=
  get fun _ _ ↦ valueIn _ _ _

theorem assignIn (scope : Option ScopeRef) (name : Token) {value : Value}
    (hvalue : value.Contained) :
    Matching (fun _ ↦ True) (Run.assignIn scope name value) (Run.assignIn scope name value) := by
  rw [assignIn_eq]
  refine get fun m hm ↦ ?_
  split
  · exact modifyHeap fun m hm ↦ hm.define _ _ hvalue
  · exact fault _ _

theorem assign (id : NodeId) (name : Token) {value : Value} (hvalue : value.Contained) :
    Matching (fun _ ↦ True) (Run.assign id name value) (Run.assign id name value) := by
  rw [assign_eq]
  exact get fun _ _ ↦ assignIn _ _ hvalue

theorem define (name : String) {value : Value} (hvalue : value.Contained) :
    Matching (fun _ ↦ True) (Run.define name value) (Run.define name value) :=
  modifyHeap fun _ hm ↦ hm.define _ _ hvalue

theorem openScope (parent : ScopeRef) {bindings : Bindings Value}
    (hbindings : ∀ name value, bindings.get? name = some value → value.Contained) :
    Matching (fun _ ↦ True) (Run.openScope parent bindings) (Run.openScope parent bindings) :=
  onHeap fun _ hheap ↦ ⟨hheap.openScope _ hbindings, trivial⟩

theorem newFunction (routine : Routine Stmt) (closure : ScopeRef) (isInitializer : Bool) :
    Matching (fun f ↦ f.routine = routine ∧ f.isInitializer = isInitializer)
      (Run.newFunction routine closure isInitializer)
      (Run.newFunction routine closure isInitializer) :=
  (onHeap (Q := fun _ ↦ True) fun _ hheap ↦ ⟨hheap.freshIdentity, trivial⟩).bind fun _ _ ↦
    pure ⟨rfl, rfl⟩

/-- A method that is bound to an instance keeps its body. -/
theorem bindMethod {method : Function} (hmethod : method.Contained) {i : Instance}
    (hi : i.cls.Contained) :
    Matching Function.Contained (Run.bindMethod method i) (Run.bindMethod method i) := by
  refine (openScope _ fun name value hvalue ↦ ?_).bind fun scope _ ↦ ?_
  · obtain ⟨rfl, rfl⟩ := Bindings.eq_of_get?_single hvalue
    exact hi
  · obtain ⟨kind, hkind, hinitializer, hbody⟩ := hmethod
    refine Related.mono (newFunction _ scope _) ?_
    rintro f _ ⟨rfl, hroutine, hflag⟩
    refine ⟨rfl, kind, hkind, ?_, ?_⟩
    · rw [hflag]
      exact hinitializer
    · rw [hroutine]
      exact hbody

theorem callBuiltin (b : Builtin) (line : Nat) (arguments : List Value) :
    Matching Value.Contained (Run.callBuiltin b line arguments)
      (Run.callBuiltin b line arguments) :=
  (of_hostOnly (.callBuiltin b line arguments) (yields_callBuiltin b line arguments)).mono
    fun _ _ ⟨heq, hdata⟩ ↦ ⟨heq, Value.contained_of_isData hdata⟩

/-! ### Steps and runs -/

section Steps

variable {evaluate evaluate' : Expr → Run Value} {execute execute' : Stmt → Run Flow}

/-- How expressions are evaluated without and with the guard. -/
def Evaluates (evaluate evaluate' : Expr → Run Value) : Prop :=
  ∀ e, Matching Value.Contained (evaluate e) (evaluate' e)

/-- How statements that contain their jumps are executed without and with the guard. -/
def Executes (execute execute' : Stmt → Run Flow) : Prop :=
  ∀ s inLoop kind, s.Contained inLoop kind → Matching Flow.Contained (execute s) (execute' s)

theorem sequence (hexecute : Executes execute execute') {inLoop : Bool} {kind : FunctionContext}
    {ss : List Stmt} (hss : Stmt.ContainedAll inLoop kind ss) :
    Matching Flow.Contained (Run.sequence execute ss) (Run.sequence execute' ss) := by
  induction ss with
  | nil => exact pure Flow.contained_normal
  | cons s rest ih =>
    rw [Stmt.ContainedAll] at hss
    refine (hexecute s inLoop kind hss.1).bind fun flow hflow ↦ ?_
    cases flow with
    | normal => exact ih hss.2
    | «return» value => exact pure hflow
    | «break» => exact pure hflow
    | «continue» => exact pure hflow

theorem valuesOf (hevaluate : Evaluates evaluate evaluate') (es : List Expr) :
    Matching (fun vs ↦ ∀ v ∈ vs, v.Contained) (Run.valuesOf evaluate es)
      (Run.valuesOf evaluate' es) := by
  induction es with
  | nil => exact pure nofun
  | cons e rest ih =>
    refine (hevaluate e).bind fun v hv ↦ ?_
    refine ih.bind fun vs hvs ↦ ?_
    exact pure (List.forall_mem_cons.2 ⟨hv, hvs⟩)

theorem valueOrNil (hevaluate : Evaluates evaluate evaluate') (o : Option Expr) :
    Matching Value.Contained (Run.valueOrNil evaluate o) (Run.valueOrNil evaluate' o) := by
  cases o with
  | none => exact pure trivial
  | some e => exact hevaluate e

theorem loop {condition condition' : Run Value} {body body' : Run Flow}
    (hcondition : Matching Value.Contained condition condition')
    (hbody : Matching Flow.Contained body body') (rounds : Nat) :
    Matching Flow.Contained (Run.loop condition body rounds)
      (Run.loop condition' body' rounds) := by
  induction rounds with
  | zero => exact throw _
  | succ rounds ih =>
    refine hcondition.bind fun v _ ↦ ?_
    split
    · refine hbody.bind fun flow hflow ↦ ?_
      cases flow with
      | normal => exact ih
      | «return» value => exact pure hflow
      | «break» => exact pure Flow.contained_normal
      | «continue» => exact ih
    · exact pure Flow.contained_normal

/-- The guard is content with every body. -/
theorem callFunction (hexecute : Executes execute execute') (hwithin : ExecutesWithin execute)
    {f : Function} (hf : f.Contained) {arguments : List Value}
    (harguments : ∀ v ∈ arguments, v.Contained) (alarm : Halt) :
    Matching Value.Contained (Run.callFunction execute f arguments)
      (callFunctionGuarded (demandEnd alarm) execute' f arguments) := by
  obtain ⟨kind, -, hinitializer, hbody⟩ := hf
  refine (openScope _ fun name value hvalue ↦ ?_).bind fun scope _ ↦ ?_
  · exact harguments value (Bindings.mem_of_get?_zip hvalue).2
  · have hflow := (sequence hexecute hbody).and_yields (yields_sequence hwithin hbody)
    refine (hflow.inScope scope).bind fun flow hflow ↦ ?_
    have hguard : demandEnd alarm f flow = Pure.pure () := if_pos (hflow.2.endsBody hinitializer)
    rw [hguard, pure_bind]
    split
    · exact valueIn _ _ _
    · cases flow with
      | «return» value => exact pure (hflow.1 value rfl)
      | _ => exact pure trivial

theorem construct (hexecute : Executes execute execute') (hwithin : ExecutesWithin execute)
    {c : Class} (hc : c.Contained) {arguments : List Value}
    (harguments : ∀ v ∈ arguments, v.Contained) (alarm : Halt) :
    Matching Value.Contained (Run.construct execute c arguments)
      (constructGuarded (demandEnd alarm) execute' c arguments) := by
  refine (onHeap (Q := fun i ↦ i.cls = c) fun heap hheap ↦ ⟨hheap.instantiate c, rfl⟩).bind
    fun i hi ↦ ?_
  have hcls : i.cls.Contained := hi ▸ hc
  cases hinit : c.findMethod? Class.initializerName with
  | none => exact pure hcls
  | some init =>
    refine (bindMethod (hc _ init hinit) hcls).bind fun f hf ↦ ?_
    refine (callFunction hexecute hwithin hf harguments alarm).bind fun _ _ ↦ ?_
    exact pure hcls

theorem call (hexecute : Executes execute execute') (hwithin : ExecutesWithin execute)
    {callee : Callee} (hcallee : callee.Contained) (line : Nat) {arguments : List Value}
    (harguments : ∀ v ∈ arguments, v.Contained) (alarm : Halt) :
    Matching Value.Contained (Run.call execute callee line arguments)
      (callGuarded (demandEnd alarm) execute' callee line arguments) := by
  cases callee with
  | builtin b => exact callBuiltin b line arguments
  | function f => exact callFunction hexecute hwithin hcallee harguments alarm
  | cls c => exact construct hexecute hwithin hcallee harguments alarm

theorem property {i : Instance} (hi : i.cls.Contained) (name : Token) :
    Matching Value.Contained (Run.property i name) (Run.property i name) := by
  refine get fun m hm ↦ ?_
  split
  · rename_i value hvalue
    exact pure (hm.fields i _ value hvalue)
  · split
    · rename_i method hmethod
      exact (bindMethod (hi _ method hmethod) hi).bind fun f hf ↦ pure hf
    · exact fault _ _

theorem superMethod (id : NodeId) (keyword method : Token) :
    Matching Value.Contained (Run.superMethod id keyword method)
      (Run.superMethod id keyword method) := by
  refine get fun m _ ↦ ?_
  split
  · exact fault _ _
  · refine (valueIn _ _ _).bind fun superclass hsuperclass ↦ ?_
    refine (valueIn _ _ _).bind fun object hobject ↦ ?_
    split
    · split
      · rename_i found hfound
        exact (bindMethod (hsuperclass _ found hfound) hobject).bind fun f hf ↦ pure hf
      · exact fault _ _
    · exact fault _ _

/-- The methods of a class: the one that is bound as initializer has been read as one. -/
theorem methodsOf (closure : ScopeRef) {methods : List (Routine Stmt)}
    (hmethods : Stmt.ContainedMethods methods) :
    Matching (fun fs ↦ ∀ p ∈ fs, p.2.Contained) (Run.methodsOf closure methods)
      (Run.methodsOf closure methods) := by
  induction methods with
  | nil => exact pure nofun
  | cons method rest ih =>
    rw [Stmt.ContainedMethods, Stmt.containedRoutine_iff] at hmethods
    refine (newFunction _ _ _).bind fun f ⟨hroutine, hflag⟩ ↦ (ih hmethods.2).bind fun fs hfs ↦ ?_
    refine pure (List.forall_mem_cons.2 ⟨⟨.ofMethod method.name, ?_, ?_, ?_⟩, hfs⟩)
    · unfold FunctionContext.ofMethod
      split
      · exact nofun
      · exact nofun
    · intro hinitializer
      rw [hflag] at hinitializer
      exact if_pos (of_decide_eq_true hinitializer)
    · rw [hroutine]
      exact hmethods.1

theorem finishClass (name : Token) {make : Layer → Class}
    (hmake : ∀ own, (∀ name f, own.methods.get? name = some f → f.Contained) →
      (make own).Contained)
    {methods : List (String × Function)} (hmethods : ∀ p ∈ methods, p.2.Contained) :
    Matching (fun _ ↦ True) (Run.finishClass name make methods)
      (Run.finishClass name make methods) := by
  refine (onHeap (Q := fun _ ↦ True) fun _ hheap ↦ ⟨hheap.freshIdentity, trivial⟩).bind
    fun identity _ ↦ get fun _ _ ↦ assignIn _ _ ?_
  refine hmake _ fun key f hf ↦ ?_
  exact hmethods (key, f) (Bindings.mem_of_get?_ofList hf)

theorem declareClass (hevaluate : Evaluates evaluate evaluate') (name : Token)
    (superclass : Option Expr) {methods : List (Routine Stmt)}
    (hmethods : Stmt.ContainedMethods methods) :
    Matching (fun _ ↦ True) (Run.declareClass evaluate name superclass methods)
      (Run.declareClass evaluate' name superclass methods) := by
  have hnil : Value.nil.Contained := trivial
  refine (define _ hnil).bind fun _ _ ↦ ?_
  cases superclass with
  | none =>
    refine get fun _ _ ↦ (methodsOf _ hmethods).bind fun fs hfs ↦ finishClass _ ?_ hfs
    intro own hown key f hf
    rw [Class.findMethod?_root] at hf
    exact hown key f hf
  | some e =>
    refine (hevaluate e).bind fun v hv ↦ ?_
    split
    · rename_i c
      refine get fun _ _ ↦ (openScope _ fun key value hvalue ↦ ?_).bind fun closure _ ↦ ?_
      · obtain ⟨rfl, rfl⟩ := Bindings.eq_of_get?_single hvalue
        exact hv
      · rw [inScope_methodsOf]
        refine (methodsOf closure hmethods).bind fun fs hfs ↦ finishClass _ ?_ hfs
        intro own hown key f hf
        rw [Class.findMethod?_derived] at hf
        cases hkey : own.methods.get? key with
        | some found =>
          rw [hkey] at hf
          cases hf
          exact hown key _ hkey
        | none =>
          rw [hkey] at hf
          exact hv key f hf
    · exact fault _ _

theorem ofExcept (line : Nat) {result : Except RuntimeFault Value}
    (hresult : ∀ v, result = .ok v → v.Contained) :
    Matching Value.Contained (Run.ofExcept line result) (Run.ofExcept line result) := by
  cases result with
  | ok v => exact pure (hresult v rfl)
  | error cause => exact fault _ _

theorem evaluateWith (hevaluate : Evaluates evaluate evaluate')
    (hexecute : Executes execute execute') (hwithin : ExecutesWithin execute) (alarm : Halt) :
    Evaluates (Run.evaluateWith evaluate execute)
      (evaluateWithGuarded (demandEnd alarm) evaluate' execute') := by
  intro e
  cases e with
  | literal value => exact pure (Value.contained_of_isData (Value.isData_ofLiteral value))
  | grouping inner => exact hevaluate inner
  | unary op operand =>
    exact (hevaluate operand).bind fun _ _ ↦ ofExcept _ fun _ hv ↦
      Value.contained_of_isData (Value.isData_of_unary hv)
  | binary op left right =>
    refine (hevaluate left).bind fun _ _ ↦ ?_
    refine (hevaluate right).bind fun _ _ ↦ ?_
    exact ofExcept _ fun _ hv ↦ Value.contained_of_isData (Value.isData_of_binary hv)
  | logical op left right =>
    refine (hevaluate left).bind fun a ha ↦ ?_
    split
    · exact pure ha
    · exact hevaluate right
  | var id name => exact lookUp id name
  | assign id name value =>
    exact (hevaluate value).bind fun v hv ↦ (assign id name hv).bind fun _ _ ↦ pure hv
  | call callee paren arguments =>
    refine (hevaluate callee).bind fun v hv ↦ ?_
    cases htarget : v.callee? with
    | none => exact fault _ _
    | some target =>
      refine (valuesOf hevaluate arguments).bind fun vs hvs ↦ ?_
      have hcall := call hexecute hwithin (hv.callee? htarget) paren.line hvs alarm
      by_cases harity : vs.length ≠ target.arity
      · simp only [if_pos harity]
        exact (fault (Q := fun _ ↦ True) _ _).bind fun _ _ ↦ hcall
      · simp only [if_neg harity]
        exact hcall
  | get object name =>
    refine (hevaluate object).bind fun v hv ↦ ?_
    split
    · exact property hv name
    · exact fault _ _
  | set object name value =>
    refine (hevaluate object).bind fun v hv ↦ ?_
    split
    · refine (hevaluate value).bind fun w hw ↦ ?_
      refine (modifyHeap fun m hm ↦ hm.setField _ _ hw).bind fun _ _ ↦ ?_
      exact pure hw
    · exact fault _ _
  | this id keyword => exact lookUp id keyword
  | super id keyword method => exact superMethod id keyword method

theorem executeWith (hevaluate : Evaluates evaluate evaluate')
    (hexecute : Executes execute execute') (rounds : Nat) :
    Executes (Run.executeWith evaluate execute rounds)
      (Run.executeWith evaluate' execute' rounds) := by
  intro s inLoop kind hs
  cases s with
  | block body =>
    rw [Stmt.Contained] at hs
    have hempty : ∀ name value, ({} : Bindings Value).get? name = some value → value.Contained := by
      intro name value hvalue
      cases hvalue
    exact get fun _ _ ↦ (openScope _ hempty).bind fun scope _ ↦
      (sequence hexecute hs).inScope scope
  | classDecl name superclass methods =>
    rw [Stmt.Contained] at hs
    exact (declareClass hevaluate name superclass hs).bind fun _ _ ↦ pure Flow.contained_normal
  | expression e => exact (hevaluate e).bind fun _ _ ↦ pure Flow.contained_normal
  | function routine =>
    rw [Stmt.Contained, Stmt.containedRoutine_iff] at hs
    refine get fun _ _ ↦ (newFunction _ _ _).bind fun f ⟨hroutine, hflag⟩ ↦ ?_
    have hf : (Value.function f).Contained := by
      refine ⟨.function, nofun, fun hinitializer ↦ ?_, ?_⟩
      · rw [hflag] at hinitializer
        cases hinitializer
      · rw [hroutine]
        exact hs
    exact (define _ hf).bind fun _ _ ↦ pure Flow.contained_normal
  | ifElse condition thenBranch elseBranch =>
    rw [Stmt.Contained] at hs
    refine (hevaluate condition).bind fun v _ ↦ ?_
    split
    · exact hexecute thenBranch inLoop kind hs.1
    · cases elseBranch with
      | none => exact pure Flow.contained_normal
      | some s => exact hexecute s inLoop kind hs.2
  | print e =>
    exact (hevaluate e).bind fun v _ ↦ (printLine _).bind fun _ _ ↦ pure Flow.contained_normal
  | «return» keyword value =>
    refine (valueOrNil hevaluate value).bind fun v hv ↦ pure ?_
    rintro _ ⟨⟩
    exact hv
  | var name initializer =>
    refine (valueOrNil hevaluate initializer).bind fun v hv ↦ ?_
    refine (define _ hv).bind fun _ _ ↦ ?_
    exact pure Flow.contained_normal
  | «while» condition body =>
    rw [Stmt.Contained] at hs
    exact loop (hevaluate condition) (hexecute body true kind hs) rounds
  | «break» keyword => exact pure nofun
  | «continue» keyword => exact pure nofun

end Steps

theorem evaluate_and_execute (alarm : Halt) (fuel : Nat) :
    Evaluates (Run.evaluate fuel) (evaluateGuarded (demandEnd alarm) fuel) ∧
      Executes (Run.execute fuel) (executeGuarded (demandEnd alarm) fuel) := by
  -- A call inside an expression executes a body, so the two halves need each other.
  induction fuel with
  | zero =>
    refine ⟨fun e ↦ ?_, fun s inLoop kind _ ↦ ?_⟩
    · rw [Run.evaluate, evaluateGuarded]
      exact throw _
    · rw [Run.execute, executeGuarded]
      exact throw _
  | succ fuel ih =>
    obtain ⟨hevaluate, hexecute⟩ := ih
    refine ⟨fun e ↦ ?_, fun s inLoop kind hs ↦ ?_⟩
    · rw [Run.evaluate, evaluateGuarded]
      exact evaluateWith hevaluate hexecute (yields_execute fuel) alarm e
    · rw [Run.execute, executeGuarded]
      exact executeWith hevaluate hexecute fuel s inLoop kind hs

theorem program (alarm : Halt) (fuel : Nat) {statements : List Stmt} {inLoop : Bool}
    {kind : FunctionContext} (hstatements : Stmt.ContainedAll inLoop kind statements) :
    Matching (fun _ ↦ True) (Run.program fuel statements)
      (programGuarded (demandEnd alarm) fuel statements) := by
  induction statements with
  | nil => exact of_hostOnly .flush (.any _)
  | cons s rest ih =>
    rw [Stmt.ContainedAll] at hstatements
    exact ((evaluate_and_execute alarm fuel).2 s inLoop kind hstatements.1).bind fun _ _ ↦
      ih hstatements.2

end Matching

end Run

end Lox
