import Lox.Proofs.Machine.Demands
import Lox.Proofs.Machine.Housing
import Lox.Proofs.Machine.Pedigree

/-!
# Courses

What is known of a heap may grow while a machine runs, as new classes and instances come into being.
A course says what is known in a world, and that each operation on a heap leads to a world in which
as much is known or more.  Then so does whatever a machine evaluates or executes
(`Course.evaluate_and_execute_track`), from any state and however it ends.
-/

namespace Lox

open Lox.Computation

/-- Worlds of knowledge about heaps and values.  Which classes are made, and which fields may be
set, is left to the interpreter to say. -/
structure Course where
  World : Type
  Grows : World → World → Prop
  Covers : World → Heap → Prop
  Has : World → Value → Prop
  Made : Class → Prop
  MaySet : Instance → String → Prop
  refl : ∀ w, Grows w w
  trans : ∀ {w w' w''}, Grows w w' → Grows w' w'' → Grows w w''
  mono : ∀ {w w' v}, Grows w w' → Has w v → Has w' v
  hasData : ∀ {w} {v : Value}, v.IsData → Has w v
  hasFunction : ∀ w f, Has w (.function f)
  bound : ∀ {w} {h : Heap} {scope name v}, Covers w h → h.get? scope name = some v → Has w v
  field : ∀ {w} {h : Heap} {i name v}, Covers w h → (h.fieldsOf i).get? name = some v → Has w v
  openScope : ∀ {w h} {bindings : Bindings Value} parent, Covers w h →
    (∀ name v, bindings.get? name = some v → Has w v) → Covers w (h.openScope parent bindings).2
  define : ∀ {w h v} scope name, Covers w h → Has w v → Covers w (h.define scope name v)
  instantiate : ∀ {w h c}, Covers w h → Has w (.cls c) → ∃ w', Grows w w' ∧
    Covers w' (h.instantiate c).2 ∧ Has w' (.instance (h.instantiate c).1)
  setField : ∀ {w h i name v}, Covers w h → Has w (.instance i) → Has w v → MaySet i name →
    Covers w (h.setField i name v)
  freshIdentity : ∀ {w h}, Covers w h → Covers w h.freshIdentity.2
  declare : ∀ {w} {h : Heap} {c : Class}, Covers w h → Made c → c.identity = h.nextIdentity →
    (∀ superclass, c.superclass? = some superclass → Has w (.cls superclass)) →
    ∃ w', Grows w w' ∧ Covers w' h.freshIdentity.2 ∧ Has w' (.cls c)

namespace Course

variable {C : Course} {w : C.World} {m : Machine}

/-- Two computations do the same in a machine, and lead on from a world that covers it. -/
structure Tracks {α : Type} (C : Course) (w : C.World) (x y : Run α) (m : Machine)
    (Q : C.World → α → Prop) : Prop where
  alike : x m = y m
  of_ok : ∀ a m', x m = .ok a m' → ∃ w', C.Grows w w' ∧ C.Covers w' m'.heap ∧ Q w' a
  of_error : ∀ halt m', x m = .error halt m' → ∃ w', C.Grows w w' ∧ C.Covers w' m'.heap

namespace Tracks

variable {α β : Type} {x y : Run α} {f g : α → Run β} {Q : C.World → α → Prop}
  {R : C.World → β → Prop}

theorem of_eq {x' y' : Run α} {m' : Machine} (hx : x m = x' m') (hy : y m = y' m')
    (h : C.Tracks w x' y' m' Q) : C.Tracks w x y m Q where
  alike := by
    calc x m
      _ = x' m' := hx
      _ = y' m' := h.alike
      _ = y m := hy.symm
  of_ok a t hok := by
    rw [hx] at hok
    exact h.of_ok a t hok
  of_error halt t herror := by
    rw [hx] at herror
    exact h.of_error halt t herror

/-- What is known in every world to which it may lead holds in the end. -/
theorem endsIn (h : C.Tracks w x y m Q) {P : Machine → Prop}
    (hP : ∀ w' m', C.Covers w' m'.heap → P m') : EndsIn P y m := by
  refine .intro (fun a m' hok ↦ ?_) fun halt m' herror ↦ ?_
  · rw [← h.alike] at hok
    obtain ⟨w', -, hcovers, -⟩ := h.of_ok a m' hok
    exact hP w' m' hcovers
  · rw [← h.alike] at herror
    obtain ⟨w', -, hcovers⟩ := h.of_error halt m' herror
    exact hP w' m' hcovers

theorem mono {Q' : C.World → α → Prop} (h : C.Tracks w x y m Q)
    (himp : ∀ w' a, Q w' a → Q' w' a) : C.Tracks w x y m Q' where
  alike := h.alike
  of_ok a m' hok := by
    obtain ⟨w', hgrows, hcovers, hQ⟩ := h.of_ok a m' hok
    exact ⟨w', hgrows, hcovers, himp w' a hQ⟩
  of_error := h.of_error

/-- What leads to a larger world leads there from a smaller one. -/
theorem grown {w' : C.World} (hgrows : C.Grows w w') (h : C.Tracks w' x y m Q) :
    C.Tracks w x y m Q where
  alike := h.alike
  of_ok a m' hok := by
    obtain ⟨w'', hgrows', hrest⟩ := h.of_ok a m' hok
    exact ⟨w'', C.trans hgrows hgrows', hrest⟩
  of_error halt m' herror := by
    obtain ⟨w'', hgrows', hcovers⟩ := h.of_error halt m' herror
    exact ⟨w'', C.trans hgrows hgrows', hcovers⟩

theorem pure (hm : C.Covers w m.heap) {a : α} (hQ : Q w a) :
    C.Tracks w (Pure.pure a : Run α) (Pure.pure a) m Q where
  alike := rfl
  of_ok b m' hok := by
    cases hok
    exact ⟨w, C.refl w, hm, hQ⟩
  of_error halt m' herror := by cases herror

theorem throw (hm : C.Covers w m.heap) (halt : Halt) :
    C.Tracks w (MonadExcept.throw halt : Run α) (MonadExcept.throw halt) m Q where
  alike := rfl
  of_ok a m' hok := by cases hok
  of_error other m' herror := by
    cases herror
    exact ⟨w, C.refl w, hm⟩

theorem fault (hm : C.Covers w m.heap) (line : Nat) (cause : RuntimeFault) :
    C.Tracks w (Run.fault line cause : Run α) (Run.fault line cause) m Q :=
  throw hm _

/-- What follows may be told how the second computation has ended. -/
theorem bind_of_ok (hx : C.Tracks w x y m Q)
    (hf : ∀ a w' m', y m = .ok a m' → C.Grows w w' → C.Covers w' m'.heap → Q w' a →
      C.Tracks w' (f a) (g a) m' R) : C.Tracks w (x >>= f) (y >>= g) m R := by
  cases h : x m with
  | ok a m' =>
    have hy := hx.alike.symm.trans h
    obtain ⟨w', hgrows, hcovers, hQ⟩ := hx.of_ok a m' h
    exact of_eq (Computation.bind_of_ok h) (Computation.bind_of_ok hy)
      ((hf a w' m' hy hgrows hcovers hQ).grown hgrows)
  | error halt m' =>
    have hy := hx.alike.symm.trans h
    have hbind : (x >>= f) m = .error halt m' := bind_of_error h
    refine ⟨?_, fun b t hok ↦ ?_, fun other t herror ↦ ?_⟩
    · rw [hbind, bind_of_error hy]
    · rw [hbind] at hok
      cases hok
    · rw [hbind] at herror
      cases herror
      exact hx.of_error halt m' h

theorem bind (hx : C.Tracks w x y m Q)
    (hf : ∀ a w' m', C.Grows w w' → C.Covers w' m'.heap → Q w' a →
      C.Tracks w' (f a) (g a) m' R) : C.Tracks w (x >>= f) (y >>= g) m R :=
  bind_of_ok hx fun a w' m' _ ↦ hf a w' m'

theorem get {f g : Machine → Run β} (h : C.Tracks w (f m) (g m) m R) :
    C.Tracks w (MonadState.get >>= f) (MonadState.get >>= g) m R :=
  of_eq (get_bind f m) (get_bind g m) h

theorem onHeap {change : Heap → α × Heap} {w' : C.World} (hgrows : C.Grows w w')
    (hm : C.Covers w' (change m.heap).2) (hQ : Q w' (change m.heap).1) :
    C.Tracks w (Run.onHeap change) (Run.onHeap change) m Q where
  alike := rfl
  of_ok a m' hok := by
    cases hok
    exact ⟨w', hgrows, hm, hQ⟩
  of_error halt m' herror := by cases herror

theorem modifyHeap {change : Machine → Heap} {Q : C.World → Unit → Prop}
    (hm : C.Covers w (change m)) (hQ : Q w ()) :
    C.Tracks w (modify fun m ↦ { m with heap := change m } : Run Unit)
      (modify fun m ↦ { m with heap := change m }) m Q where
  alike := rfl
  of_ok a m' hok := by
    cases hok
    exact ⟨w, C.refl w, hm, hQ⟩
  of_error halt m' herror := by cases herror

theorem inScope {scope : ScopeRef} (h : C.Tracks w x y { m with current := scope } Q) :
    C.Tracks w (Run.inScope scope x) (Run.inScope scope y) m Q := by
  cases hx : x { m with current := scope } with
  | ok a m' =>
    have hy := h.alike.symm.trans hx
    refine ⟨by simp only [Run.inScope, hx, hy], fun b t hok ↦ ?_, fun halt t herror ↦ ?_⟩
    · simp only [Run.inScope, hx] at hok
      cases hok
      exact h.of_ok a m' hx
    · simp only [Run.inScope, hx] at herror
      cases herror
  | error halt m' =>
    have hy := h.alike.symm.trans hx
    refine ⟨by simp only [Run.inScope, hx, hy], fun b t hok ↦ ?_, fun other t herror ↦ ?_⟩
    · simp only [Run.inScope, hx] at hok
      cases hok
    · simp only [Run.inScope, hx] at herror
      cases herror
      exact h.of_error halt m' hx

theorem ite {c : Prop} [Decidable c] {x' y' : Run α} (hx : c → C.Tracks w x y m Q)
    (hy : ¬c → C.Tracks w x' y' m Q) :
    C.Tracks w (if c then x else x') (if c then y else y') m Q := by
  by_cases hc : c
  · rw [if_pos hc, if_pos hc]
    exact hx hc
  · rw [if_neg hc, if_neg hc]
    exact hy hc

theorem of_hostOnly (hm : C.Covers w m.heap) (hhost : Run.HostOnly x) {P : α → Prop}
    (hyields : Yields P x) : C.Tracks w x x m fun _ a ↦ P a where
  alike := rfl
  of_ok a m' hok := by
    obtain ⟨host, rfl⟩ := hhost.of_ok hok
    exact ⟨w, C.refl w, hm, hyields m a _ hok⟩
  of_error halt m' herror := by
    obtain ⟨host, rfl⟩ := hhost.of_error herror
    exact ⟨w, C.refl w, hm⟩

section Operations

variable (hm : C.Covers w m.heap)
include hm

theorem valueIn (scope : Option ScopeRef) (name : String) (line : Nat) :
    C.Tracks w (Run.valueIn scope name line) (Run.valueIn scope name line) m C.Has := by
  apply get
  cases hvalue : scope.bind (m.heap.get? · name) with
  | none => exact fault hm _ _
  | some value =>
    obtain ⟨target, -, hget⟩ := Option.bind_eq_some_iff.1 hvalue
    exact pure hm (C.bound hm hget)

theorem lookUp (id : NodeId) (name : Token) :
    C.Tracks w (Run.lookUp id name) (Run.lookUp id name) m C.Has :=
  get (valueIn hm _ _ _)

theorem define (name : String) {value : Value} (hvalue : C.Has w value) :
    C.Tracks w (Run.define name value) (Run.define name value) m fun _ _ ↦ True :=
  modifyHeap (C.define _ _ hm hvalue) trivial

theorem assignIn (scope : Option ScopeRef) (name : Token) {value : Value}
    (hvalue : C.Has w value) :
    C.Tracks w (Run.assignIn scope name value) (Run.assignIn scope name value) m
      fun _ _ ↦ True := by
  rw [Run.assignIn_eq]
  apply get
  cases scope.filter (m.heap.holds · name.lexeme) with
  | none => exact fault hm _ _
  | some target => exact modifyHeap (C.define _ _ hm hvalue) trivial

theorem assign (id : NodeId) (name : Token) {value : Value} (hvalue : C.Has w value) :
    C.Tracks w (Run.assign id name value) (Run.assign id name value) m fun _ _ ↦ True := by
  rw [Run.assign_eq]
  exact get (assignIn hm _ _ hvalue)

theorem openScope (parent : ScopeRef) {bindings : Bindings Value}
    (hbindings : ∀ name value, bindings.get? name = some value → C.Has w value) :
    C.Tracks w (Run.openScope parent bindings) (Run.openScope parent bindings) m
      fun _ _ ↦ True :=
  onHeap (C.refl w) (C.openScope _ hm hbindings) trivial

theorem newFunction (routine : Routine Stmt) (closure : ScopeRef) (isInitializer : Bool) :
    C.Tracks w (Run.newFunction routine closure isInitializer)
      (Run.newFunction routine closure isInitializer) m fun _ _ ↦ True :=
  bind (Q := fun _ _ ↦ True) (onHeap (C.refl w) (C.freshIdentity hm) trivial)
    fun _ _ _ _ hm' _ ↦ pure hm' trivial

theorem bindMethod (method : Function) {i : Instance} (hi : C.Has w (.instance i)) :
    C.Tracks w (Run.bindMethod method i) (Run.bindMethod method i) m fun _ _ ↦ True := by
  refine bind (openScope hm method.closure fun key value hvalue ↦ ?_)
    fun scope w' m' _ hm' _ ↦ newFunction hm' _ _ _
  obtain ⟨rfl, rfl⟩ := Bindings.eq_of_get?_single hvalue
  exact hi

theorem property {i : Instance} (hi : C.Has w (.instance i)) (name : Token) :
    C.Tracks w (Run.property i name) (Run.property i name) m C.Has := by
  apply get
  split
  · rename_i value hvalue
    exact pure hm (C.field hm hvalue)
  · split
    · exact bind (bindMethod hm _ hi) fun f w' m' _ hm' _ ↦ pure hm' (C.hasFunction w' f)
    · exact fault hm _ _

theorem superMethod (id : NodeId) (keyword method : Token) :
    C.Tracks w (Run.superMethod id keyword method) (Run.superMethod id keyword method) m
      C.Has := by
  apply get
  split
  · exact fault hm _ _
  · refine bind (valueIn hm _ _ _) fun superclass w₁ m₁ _ hm₁ _ ↦ ?_
    refine bind (valueIn hm₁ _ _ _) fun object w₂ m₂ _ hm₂ hobject ↦ ?_
    split
    · split
      · exact bind (bindMethod hm₂ _ hobject) fun f w₃ m₃ _ hm₃ _ ↦
          pure hm₃ (C.hasFunction w₃ f)
      · exact fault hm₂ _ _
    · exact fault hm₂ _ _

theorem ofExcept {line : Nat} {result : Except RuntimeFault Value}
    (hok : ∀ v, result = .ok v → v.IsData) :
    C.Tracks w (Run.ofExcept line result) (Run.ofExcept line result) m C.Has := by
  cases result with
  | ok v => exact pure hm (C.hasData (hok v rfl))
  | error cause => exact fault hm _ _

end Operations

end Tracks

/-! ### Interpreters and runs -/

def TracksExprs (C : Course) (evaluate evaluate' : Expr → Run Value) : Prop :=
  ∀ e w m, C.Covers w m.heap → C.Tracks w (evaluate e) (evaluate' e) m C.Has

def HasFlow (C : Course) (w : C.World) (flow : Flow) : Prop :=
  ∀ value, flow = .return value → C.Has w value

def TracksStmts (C : Course) (execute execute' : Stmt → Run Flow) : Prop :=
  ∀ s w m, C.Covers w m.heap → C.Tracks w (execute s) (execute' s) m C.HasFlow

/-- Of what can be called, only classes are of interest. -/
def HasCallee (C : Course) (w : C.World) (callee : Callee) : Prop :=
  ∀ c, callee = .cls c → C.Has w (.cls c)

theorem hasCallee_of_callee? {v : Value} {callee : Callee} (hv : C.Has w v)
    (hcallee : v.callee? = some callee) : C.HasCallee w callee := by
  rintro c rfl
  cases v <;> cases hcallee
  exact hv

/-- A class that is about to be made may be made. -/
def MayMake (C : Course) (evaluate : Expr → Run Value) (s : Stmt) (m : Machine) : Prop :=
  ∀ name superclass methods p m₁, s = .classDecl name superclass methods →
    Run.prepareClass evaluate name superclass methods m = .ok p m₁ →
    m₁.heap.holds m₁.current name.lexeme = true →
    C.Made (.make p.1 ⟨m₁.heap.nextIdentity, name.lexeme, .ofList p.2⟩)

/-- A field that is about to be set may be set. -/
def MaySetBy (C : Course) (evaluate : Expr → Run Value) (e : Expr) (m : Machine) : Prop :=
  ∀ object name value i m₁ v m₂, e = .set object name value →
    evaluate object m = .ok (.instance i) m₁ → evaluate value m₁ = .ok v m₂ →
    C.MaySet i name.lexeme

namespace Tracks

variable {evaluate evaluate' : Expr → Run Value} {execute execute' : Stmt → Run Flow}

theorem sequence (hexecute : C.TracksStmts execute execute') (ss : List Stmt) {w : C.World}
    {m : Machine} (hm : C.Covers w m.heap) :
    C.Tracks w (Run.sequence execute ss) (Run.sequence execute' ss) m C.HasFlow := by
  induction ss generalizing w m with
  | nil => exact pure hm nofun
  | cons s rest ih =>
    refine bind (hexecute s w m hm) fun flow w' m' _ hm' hflow ↦ ?_
    cases flow with
    | normal => exact ih hm'
    | _ => exact pure hm' hflow

theorem valuesOf (hevaluate : C.TracksExprs evaluate evaluate') (es : List Expr) {w : C.World}
    {m : Machine} (hm : C.Covers w m.heap) :
    C.Tracks w (Run.valuesOf evaluate es) (Run.valuesOf evaluate' es) m fun w' vs ↦
      ∀ v ∈ vs, C.Has w' v := by
  induction es generalizing w m with
  | nil => exact pure hm fun v hv ↦ absurd hv List.not_mem_nil
  | cons e rest ih =>
    refine bind (hevaluate e w m hm) fun v w' m' _ hm' hv ↦ ?_
    refine bind (ih hm') fun vs w'' m'' hgrows hm'' hvs ↦ ?_
    exact pure hm'' (List.forall_mem_cons.2 ⟨C.mono hgrows hv, hvs⟩)

theorem valueOrNil (hevaluate : C.TracksExprs evaluate evaluate') (o : Option Expr)
    (hm : C.Covers w m.heap) :
    C.Tracks w (Run.valueOrNil evaluate o) (Run.valueOrNil evaluate' o) m C.Has := by
  cases o with
  | none => exact pure hm (C.hasData trivial)
  | some e => exact hevaluate e w m hm

theorem loop (hevaluate : C.TracksExprs evaluate evaluate')
    (hexecute : C.TracksStmts execute execute') (condition : Expr) (body : Stmt) (rounds : Nat)
    {w : C.World} {m : Machine} (hm : C.Covers w m.heap) :
    C.Tracks w (Run.loop (evaluate condition) (execute body) rounds)
      (Run.loop (evaluate' condition) (execute' body) rounds) m C.HasFlow := by
  induction rounds generalizing w m with
  | zero => exact throw hm _
  | succ rounds ih =>
    refine bind (hevaluate condition w m hm) fun v w' m' _ hm' _ ↦ ?_
    apply ite
    · intro _
      refine bind (hexecute body w' m' hm') fun flow w'' m'' _ hm'' hflow ↦ ?_
      cases flow with
      | normal => exact ih hm''
      | «return» value => exact pure hm'' hflow
      | «break» => exact pure hm'' nofun
      | «continue» => exact ih hm''
    · intro _
      exact pure hm' nofun

theorem block (hexecute : C.TracksStmts execute execute') (body : List Stmt)
    (hm : C.Covers w m.heap) :
    C.Tracks w (Run.block execute body) (Run.block execute' body) m C.HasFlow := by
  refine get (bind (openScope hm _ fun name value hvalue ↦ ?_)
    fun scope w' m' _ hm' _ ↦ inScope (sequence hexecute body hm'))
  cases hvalue

theorem callFunction (hexecute : C.TracksStmts execute execute') (f : Function)
    {arguments : List Value} (harguments : ∀ v ∈ arguments, C.Has w v)
    (hm : C.Covers w m.heap) :
    C.Tracks w (Run.callFunction execute f arguments) (Run.callFunction execute' f arguments) m
      C.Has := by
  refine bind (openScope hm f.closure fun name value hvalue ↦ ?_) fun scope w₁ m₁ _ hm₁ _ ↦ ?_
  · exact harguments value (Bindings.mem_of_get?_zip hvalue).2
  · refine bind (inScope (sequence hexecute _ hm₁)) fun flow w₂ m₂ _ hm₂ hflow ↦ ?_
    apply ite
    · intro _
      exact valueIn hm₂ _ _ _
    · intro _
      cases flow with
      | «return» value => exact pure hm₂ (hflow value rfl)
      | _ => exact pure hm₂ (C.hasData trivial)

theorem construct (hexecute : C.TracksStmts execute execute') {c : Class} (hc : C.Has w (.cls c))
    {arguments : List Value} (harguments : ∀ v ∈ arguments, C.Has w v) (hm : C.Covers w m.heap) :
    C.Tracks w (Run.construct execute c arguments) (Run.construct execute' c arguments) m
      C.Has := by
  obtain ⟨w', hgrows, hcovers, hnew⟩ := C.instantiate hm hc
  refine bind (Q := fun w i ↦ C.Has w (.instance i)) (onHeap hgrows hcovers hnew)
    fun i w₁ m₁ hgrows₁ hm₁ hi ↦ ?_
  cases c.findMethod? Class.initializerName with
  | none => exact pure hm₁ hi
  | some init =>
    refine bind (bindMethod hm₁ init hi) fun f w₂ m₂ hgrows₂ hm₂ _ ↦ ?_
    have hvs : ∀ v ∈ arguments, C.Has w₂ v := fun v hv ↦
      C.mono (C.trans hgrows₁ hgrows₂) (harguments v hv)
    refine bind (callFunction hexecute f hvs hm₂) fun _ w₃ m₃ hgrows₃ hm₃ _ ↦ ?_
    exact pure hm₃ (C.mono (C.trans hgrows₂ hgrows₃) hi)

theorem call (hexecute : C.TracksStmts execute execute') {callee : Callee}
    (hcallee : C.HasCallee w callee) (line : Nat) {arguments : List Value}
    (harguments : ∀ v ∈ arguments, C.Has w v) (hm : C.Covers w m.heap) :
    C.Tracks w (Run.call execute callee line arguments) (Run.call execute' callee line arguments) m
      C.Has := by
  cases callee with
  | builtin b =>
    exact (of_hostOnly hm (.callBuiltin b line arguments)
      (Run.yields_callBuiltin b line arguments)).mono fun _ _ ↦ C.hasData
  | function f => exact callFunction hexecute f harguments hm
  | cls c => exact construct hexecute (hcallee c rfl) harguments hm

theorem methodsOf (closure : ScopeRef) (methods : List (Routine Stmt)) {w : C.World} {m : Machine}
    (hm : C.Covers w m.heap) :
    C.Tracks w (Run.methodsOf closure methods) (Run.methodsOf closure methods) m
      fun _ _ ↦ True := by
  induction methods generalizing w m with
  | nil => exact pure hm trivial
  | cons method rest ih =>
    refine bind (newFunction hm method closure _) fun f w' m' _ hm' _ ↦ ?_
    exact bind (ih hm') fun fs w'' m'' _ hm'' _ ↦ pure hm'' trivial

/-- All that goes before a class is made. -/
theorem prepareClass (hevaluate : C.TracksExprs evaluate evaluate') (name : Token)
    (superclass : Option Expr) (methods : List (Routine Stmt)) (hm : C.Covers w m.heap) :
    C.Tracks w (Run.prepareClass evaluate name superclass methods)
      (Run.prepareClass evaluate' name superclass methods) m fun w' p ↦
        ∀ c, p.1 = some c → C.Has w' (.cls c) := by
  refine bind (define hm _ (C.hasData trivial)) fun _ w₁ m₁ _ hm₁ _ ↦ ?_
  cases superclass with
  | none => exact get (bind (methodsOf _ methods hm₁) fun fs w₂ m₂ _ hm₂ _ ↦ pure hm₂ nofun)
  | some e =>
    refine bind (hevaluate e w₁ m₁ hm₁) fun v w₂ m₂ _ hm₂ hv ↦ ?_
    split
    · rename_i c
      refine get (bind (openScope hm₂ _ fun key value hvalue ↦ ?_)
        fun closure w₃ m₃ hgrows₃ hm₃ _ ↦ ?_)
      · obtain ⟨rfl, rfl⟩ := Bindings.eq_of_get?_single hvalue
        exact hv
      · refine bind (methodsOf closure methods hm₃) fun fs w₄ m₄ hgrows₄ hm₄ _ ↦ pure hm₄ ?_
        rintro _ ⟨⟩
        exact C.mono (C.trans hgrows₃ hgrows₄) hv
    · exact fault hm₂ _ _

/-- A class counts as made only once its name has taken it. -/
theorem finishClass {name : Token} {superclass : Option Class} {fs : List (String × Function)}
    (hsuperclass : ∀ c, superclass = some c → C.Has w (.cls c)) (hm : C.Covers w m.heap)
    (hmade : m.heap.holds m.current name.lexeme = true →
      C.Made (.make superclass ⟨m.heap.nextIdentity, name.lexeme, .ofList fs⟩)) :
    C.Tracks w (Run.finishClass name (.make superclass) fs)
      (Run.finishClass name (.make superclass) fs) m fun _ _ ↦ True := by
  refine ⟨rfl, fun _ m' hok ↦ ?_, fun halt m' herror ↦ ?_⟩
  · by_cases hholds : m.heap.holds m.current name.lexeme = true
    · rw [Run.finishClass_of_holds _ fs hholds] at hok
      cases hok
      obtain ⟨w', hgrows, hcovers, hc⟩ := C.declare hm (hmade hholds)
        (congrArg Layer.identity (Class.own_make ..)) (by rwa [Class.superclass?_make])
      exact ⟨w', hgrows, C.define _ _ hcovers hc, trivial⟩
    · rw [Run.finishClass_of_not_holds _ fs hholds] at hok
      cases hok
  · by_cases hholds : m.heap.holds m.current name.lexeme = true
    · rw [Run.finishClass_of_holds _ fs hholds] at herror
      cases herror
    · rw [Run.finishClass_of_not_holds _ fs hholds] at herror
      cases herror
      exact ⟨w, C.refl w, C.freshIdentity hm⟩

theorem declareClass (hevaluate : C.TracksExprs evaluate evaluate') {name : Token}
    {superclass : Option Expr} {methods : List (Routine Stmt)} (hm : C.Covers w m.heap)
    (hmade : C.MayMake evaluate' (.classDecl name superclass methods) m) :
    C.Tracks w (Run.declareClass evaluate name superclass methods)
      (Run.declareClass evaluate' name superclass methods) m fun _ _ ↦ True := by
  rw [Run.declareClass_eq, Run.declareClass_eq]
  exact bind_of_ok (prepareClass hevaluate name superclass methods hm)
    fun p w' m' hok _ hm' hp ↦ finishClass hp hm' (hmade _ _ _ p m' rfl hok)

theorem evaluateWith (hevaluate : C.TracksExprs evaluate evaluate')
    (hexecute : C.TracksStmts execute execute') (hm : C.Covers w m.heap) {e : Expr}
    (hset : C.MaySetBy evaluate' e m) :
    C.Tracks w (Run.evaluateWith evaluate execute e) (Run.evaluateWith evaluate' execute' e) m
      C.Has := by
  cases e with
  | literal value => exact pure hm (C.hasData (Value.isData_ofLiteral value))
  | grouping inner => exact hevaluate inner w m hm
  | unary op operand =>
    exact bind (hevaluate operand w m hm) fun v w' m' _ hm' _ ↦
      ofExcept hm' fun _ ↦ Value.isData_of_unary
  | binary op left right =>
    refine bind (hevaluate left w m hm) fun a w₁ m₁ _ hm₁ _ ↦ ?_
    exact bind (hevaluate right w₁ m₁ hm₁) fun b w₂ m₂ _ hm₂ _ ↦
      ofExcept hm₂ fun _ ↦ Value.isData_of_binary
  | logical op left right =>
    refine bind (hevaluate left w m hm) fun a w' m' _ hm' ha ↦ ?_
    apply ite
    · intro _
      exact pure hm' ha
    · intro _
      exact hevaluate right w' m' hm'
  | var id name => exact lookUp hm id name
  | assign id name value =>
    refine bind (hevaluate value w m hm) fun v w₁ m₁ _ hm₁ hv ↦ ?_
    exact bind (assign hm₁ id name hv) fun _ w₂ m₂ hgrows hm₂ _ ↦ pure hm₂ (C.mono hgrows hv)
  | call callee paren arguments =>
    refine bind (hevaluate callee w m hm) fun v w₁ m₁ _ hm₁ hv ↦ ?_
    cases htarget : v.callee? with
    | none => exact fault hm₁ _ _
    | some target =>
      refine bind (valuesOf hevaluate arguments hm₁) fun vs w₂ m₂ hgrows hm₂ hvs ↦ ?_
      apply ite
      · intro _
        exact bind (Q := fun _ _ ↦ False) (fault hm₂ _ _) fun _ _ _ _ _ hfalse ↦ hfalse.elim
      · intro _
        exact call hexecute (hasCallee_of_callee? (C.mono hgrows hv) htarget) paren.line hvs hm₂
  | get object name =>
    refine bind (hevaluate object w m hm) fun v w' m' _ hm' hv ↦ ?_
    split
    · exact property hm' hv name
    · exact fault hm' _ _
  | set object name value =>
    refine bind_of_ok (hevaluate object w m hm) fun v w₁ m₁ hobject _ hm₁ hv ↦ ?_
    split
    · rename_i i
      refine bind_of_ok (hevaluate value w₁ m₁ hm₁) fun u w₂ m₂ hvalue hgrows hm₂ hu ↦ ?_
      have hmay := hset object name value i m₁ u m₂ rfl hobject hvalue
      exact bind (Q := fun _ _ ↦ True)
        (modifyHeap (C.setField hm₂ (C.mono hgrows hv) hu hmay) trivial)
        fun _ w₃ m₃ hgrows' hm₃ _ ↦ pure hm₃ (C.mono hgrows' hu)
    · exact fault hm₁ _ _
  | this id keyword => exact lookUp hm id keyword
  | super id keyword method => exact superMethod hm _ _ _

theorem executeWith (hevaluate : C.TracksExprs evaluate evaluate')
    (hexecute : C.TracksStmts execute execute') (rounds : Nat) (hm : C.Covers w m.heap) {s : Stmt}
    (hmade : C.MayMake evaluate' s m) :
    C.Tracks w (Run.executeWith evaluate execute rounds s)
      (Run.executeWith evaluate' execute' rounds s) m C.HasFlow := by
  cases s with
  | block body => exact block hexecute body hm
  | classDecl name superclass methods =>
    exact bind (declareClass hevaluate hm hmade) fun _ w' m' _ hm' _ ↦ pure hm' nofun
  | expression e => exact bind (hevaluate e w m hm) fun _ w' m' _ hm' _ ↦ pure hm' nofun
  | function routine =>
    refine get (bind (newFunction hm routine m.current false) fun f w₁ m₁ _ hm₁ _ ↦ ?_)
    exact bind (define hm₁ _ (C.hasFunction w₁ f)) fun _ w₂ m₂ _ hm₂ _ ↦ pure hm₂ nofun
  | ifElse condition thenBranch elseBranch =>
    refine bind (hevaluate condition w m hm) fun v w' m' _ hm' _ ↦ ?_
    apply ite
    · intro _
      exact hexecute thenBranch w' m' hm'
    · intro _
      cases elseBranch with
      | none => exact pure hm' nofun
      | some other => exact hexecute other w' m' hm'
  | print e =>
    refine bind (hevaluate e w m hm) fun v w₁ m₁ _ hm₁ _ ↦ ?_
    exact bind (of_hostOnly hm₁ (.printLine v.display) (.any _)) fun _ w₂ m₂ _ hm₂ _ ↦
      pure hm₂ nofun
  | «return» keyword value =>
    refine bind (valueOrNil hevaluate value hm) fun v w' m' _ hm' hv ↦ pure hm' ?_
    rintro _ ⟨⟩
    exact hv
  | var name initializer =>
    refine bind (valueOrNil hevaluate initializer hm) fun v w₁ m₁ _ hm₁ hv ↦ ?_
    exact bind (define hm₁ _ hv) fun _ w₂ m₂ _ hm₂ _ ↦ pure hm₂ nofun
  | «while» condition body => exact loop hevaluate hexecute condition body rounds hm
  | «break» keyword => exact pure hm nofun
  | «continue» keyword => exact pure hm nofun

theorem ensure (hm : C.Covers w m.heap) {onFirst onSecond : Machine → Prop}
    (h : onFirst m ↔ onSecond m) (alarm : Halt) :
    C.Tracks w (Run.ensure onFirst alarm) (Run.ensure onSecond alarm) m fun _ _ ↦ True := by
  by_cases hfirst : onFirst m
  · exact of_eq (Run.ensure_of_property hfirst alarm)
      (Run.ensure_of_property (h.1 hfirst) alarm) (pure hm trivial)
  · exact of_eq (Run.ensure_of_not hfirst alarm)
      (Run.ensure_of_not (fun hsecond ↦ hfirst (h.2 hsecond)) alarm) (throw hm alarm)

end Tracks

/-- Demands on machines that a course covers, stricter ones and laxer ones.  They find the same, and
what they let pass goes with the course. -/
structure Meets (C : Course) (onExpr onExpr' : Expr → Machine → Prop)
    (onStmt onStmt' : Stmt → Machine → Prop) : Prop where
  expression : ∀ {w m} e, C.Covers w m.heap → (onExpr e m ↔ onExpr' e m)
  statement : ∀ {w m} s, C.Covers w m.heap → (onStmt s m ↔ onStmt' s m)
  set : ∀ fuel e m, onExpr' e m → C.MaySetBy (Run.evaluate fuel) e m
  made : ∀ c methods, c.Declares methods → C.Made c

section Runs

variable {onExpr onExpr' : Expr → Machine → Prop} {onStmt onStmt' : Stmt → Machine → Prop}
  (h : C.Meets onExpr onExpr' onStmt onStmt') (alarm objection : Halt)
include h

theorem Meets.mayMake {fuel : Nat} (s : Stmt) (m : Machine) :
    C.MayMake (Run.evaluateOverseen (.demanding onExpr' onStmt' alarm objection) fuel) s m := by
  intro name superclass methods p m₁ _ hprepare hholds
  have hplain := Run.prepareClass_of_values
    (fun _ _ _ _ hok ↦ Run.evaluate_of_demanding hok) hprepare
  exact h.made _ methods
    ⟨m, name, superclass, Machine.makes_iff.2 ⟨fuel, p, m₁, hplain, hholds, rfl⟩⟩

theorem Meets.maySetBy {fuel : Nat} {e : Expr} {m : Machine} (he : onExpr' e m) :
    C.MaySetBy (Run.evaluateOverseen (.demanding onExpr' onStmt' alarm objection) fuel) e m :=
  fun object name value i m₁ v m₂ heq hobject hvalue ↦ h.set fuel e m he object name value i m₁ v m₂
    heq (Run.evaluate_of_demanding hobject) (Run.evaluate_of_demanding hvalue)

/-- By induction on the fuel. -/
theorem evaluate_and_execute_track (fuel : Nat) :
    C.TracksExprs (Run.evaluateOverseen (.demanding onExpr onStmt alarm objection) fuel)
        (Run.evaluateOverseen (.demanding onExpr' onStmt' alarm objection) fuel) ∧
      C.TracksStmts (Run.executeOverseen (.demanding onExpr onStmt alarm objection) fuel)
        (Run.executeOverseen (.demanding onExpr' onStmt' alarm objection) fuel) := by
  induction fuel with
  | zero =>
    constructor
    · intro e w m hm
      exact .throw hm _
    · intro s w m hm
      exact .throw hm _
  | succ fuel ih =>
    obtain ⟨hevaluate, hexecute⟩ := ih
    constructor
    · intro e w m hm
      rw [Run.evaluateOverseen, Run.evaluateOverseen]
      refine .bind_of_ok (.ensure hm (h.expression e hm) alarm) fun _ w' m' hok _ hm' _ ↦ ?_
      have he := Run.property_of_ensure hok
      change Run.ensure (onExpr' e) alarm m = _ at hok
      rw [Run.ensure_of_property he alarm] at hok
      cases hok
      exact .evaluateWith hevaluate hexecute hm' (h.maySetBy alarm objection he)
    · intro s w m hm
      rw [Run.executeOverseen, Run.executeOverseen]
      refine .bind (.ensure hm (h.statement s hm) objection) fun _ w' m' _ hm' _ ↦ ?_
      exact .executeWith hevaluate hexecute fuel hm' (h.mayMake alarm objection s m')

theorem program_tracks (fuel : Nat) (statements : List Stmt) {w : C.World} {m : Machine}
    (hm : C.Covers w m.heap) :
    C.Tracks w (Run.programOverseen (.demanding onExpr onStmt alarm objection) fuel statements)
      (Run.programOverseen (.demanding onExpr' onStmt' alarm objection) fuel statements) m
      fun _ _ ↦ True := by
  induction statements generalizing w m with
  | nil => exact .of_hostOnly hm .flush (.any _)
  | cons s rest ih =>
    exact .bind ((evaluate_and_execute_track h alarm objection fuel).2 s w m hm)
      fun _ w' m' _ hm' _ ↦ ih hm'

end Runs

end Course

end Lox
