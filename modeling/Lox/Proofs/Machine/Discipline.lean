import Lox.Proofs.Machine.Mirror
import Lox.Proofs.Machine.Operators
import Lox.Proofs.Tree.Rules

/-!
# Disciplines

A discipline says what is kept of a heap: its shape, what names are bound to, and what is known of
the functions and instances that scopes, fields and classes hold.  A lawful discipline is kept by
every operation on heaps (`Kept.openScope` and those below).
-/

namespace Lox

/-- What is to be kept of a heap.  Functions that are values are told from those that classes hold
as methods, each under its name.  An expression is evaluated in a `site`; a statement is executed
`inside` a scope, where it may declare names. -/
structure Discipline where
  rules : Rules
  shape : Heap → Prop
  step : Heap → Heap → Prop
  binding : String → Value → Prop
  function : Heap → Function → Prop
  method : Heap → String → Function → Prop
  inst : Heap → Instance → Prop
  site : Heap → ScopeRef → Prop
  inside : Heap → ScopeRef → Prop

namespace Discipline

section Admitted

variable (D : Discipline) (h : Heap)

structure AdmitsFunction (f : Function) : Prop where
  obeys : Stmt.ObeysRoutine D.rules f.routine
  function : D.function h f

structure AdmitsMethod (name : String) (f : Function) : Prop where
  obeys : Stmt.ObeysRoutine D.rules f.routine
  method : D.method h name f

def AdmitsClass (c : Class) : Prop :=
  ∀ layer ∈ c.lineage, ∀ name f, layer.methods.get? name = some f → D.AdmitsMethod h name f

structure AdmitsInstance (i : Instance) : Prop where
  inst : D.inst h i
  cls : D.AdmitsClass h i.cls

def Admits : Value → Prop
  | .function f => D.AdmitsFunction h f
  | .cls c => D.AdmitsClass h c
  | .instance i => D.AdmitsInstance h i
  | _ => True

/-- A heap of the right shape that holds only what is admitted. -/
structure Kept : Prop where
  shape : D.shape h
  binding : ∀ scope name value, h.get? scope name = some value → D.binding name value
  bound : ∀ scope name value, h.get? scope name = some value → D.Admits h value
  fields : ∀ i name value, (h.fieldsOf i).get? name = some value → D.Admits h value

/-- How one heap may come of another one. -/
structure Advances (h' : Heap) : Prop where
  step : D.step h h'
  kept : D.Kept h'

end Admitted

/-- The laws under which every operation keeps a discipline. -/
structure Lawful (D : Discipline) : Prop where
  step_refl : ∀ h, D.step h h
  step_trans : ∀ {h h' h''}, D.step h h' → D.step h' h'' → D.step h h''
  function_mono : ∀ {h h' f}, D.step h h' → D.function h f → D.function h' f
  method_mono : ∀ {h h' name f}, D.step h h' → D.method h name f → D.method h' name f
  inst_mono : ∀ {h h' i}, D.step h h' → D.inst h i → D.inst h' i
  site_mono : ∀ {h h' scope}, D.step h h' → D.site h scope → D.site h' scope
  inside_mono : ∀ {h h' scope}, D.step h h' → D.inside h scope → D.inside h' scope
  site_of_inside : ∀ {h scope}, D.inside h scope → D.site h scope
  site_of_function : ∀ {h f}, D.function h f → D.site h f.closure
  site_of_method : ∀ {h name f}, D.method h name f → D.site h f.closure
  binding_of_name : ∀ {name}, D.rules.name name → ∀ value, D.binding name value
  binding_this : ∀ i, D.binding "this" (.instance i)
  binding_super : ∀ c, D.binding "super" (.cls c)
  function_of_inside : ∀ {h f}, D.inside h f.closure → f.isInitializer = false → D.function h f
  function_of_this : ∀ {h f i}, D.site h f.closure →
    h.get? f.closure "this" = some (.instance i) → D.function h f
  method_of_inside : ∀ {h name f}, D.inside h f.closure →
    f.isInitializer = decide (name = Class.initializerName) → D.method h name f
  openScope : ∀ {h parent} bindings, D.shape h → D.site h parent →
    D.shape (h.openScope (some parent) bindings).2 ∧
      D.step h (h.openScope (some parent) bindings).2 ∧
      D.inside (h.openScope (some parent) bindings).2 h.scopes.size
  define : ∀ {h scope name} value, D.shape h →
    D.inside h scope ∨ h.holds scope name = true → D.rules.name name →
    D.shape (h.define scope name value) ∧ D.step h (h.define scope name value)
  instantiate : ∀ {h} c, D.shape h → D.shape (h.instantiate c).2 ∧ D.step h (h.instantiate c).2 ∧
    D.inst (h.instantiate c).2 (h.instantiate c).1
  setField : ∀ {h} i name value, D.shape h →
    D.shape (h.setField i name value) ∧ D.step h (h.setField i name value)
  freshIdentity : ∀ {h}, D.shape h → D.shape h.freshIdentity.2 ∧ D.step h h.freshIdentity.2

variable {D : Discipline} {h h' h'' : Heap}

theorem AdmitsFunction.mono (L : D.Lawful) (hstep : D.step h h') {f : Function}
    (hf : D.AdmitsFunction h f) : D.AdmitsFunction h' f :=
  ⟨hf.obeys, L.function_mono hstep hf.function⟩

theorem AdmitsMethod.mono (L : D.Lawful) (hstep : D.step h h') {name : String} {f : Function}
    (hf : D.AdmitsMethod h name f) : D.AdmitsMethod h' name f :=
  ⟨hf.obeys, L.method_mono hstep hf.method⟩

theorem AdmitsClass.mono (L : D.Lawful) (hstep : D.step h h') {c : Class}
    (hc : D.AdmitsClass h c) : D.AdmitsClass h' c :=
  fun layer hlayer name f hf ↦ (hc layer hlayer name f hf).mono L hstep

theorem AdmitsClass.findMethod? {c : Class} (hc : D.AdmitsClass h c) {name : String}
    {f : Function} (hf : c.findMethod? name = some f) : D.AdmitsMethod h name f := by
  obtain ⟨layer, hlayer, hget⟩ := List.exists_of_findSome?_eq_some hf
  exact hc layer hlayer name f hget

theorem AdmitsInstance.mono (L : D.Lawful) (hstep : D.step h h') {i : Instance}
    (hi : D.AdmitsInstance h i) : D.AdmitsInstance h' i :=
  ⟨L.inst_mono hstep hi.inst, hi.cls.mono L hstep⟩

theorem Admits.mono (L : D.Lawful) (hstep : D.step h h') {v : Value} (hv : D.Admits h v) :
    D.Admits h' v := by
  cases v with
  | function f => exact AdmitsFunction.mono L hstep hv
  | cls c => exact AdmitsClass.mono L hstep hv
  | «instance» i => exact AdmitsInstance.mono L hstep hv
  | _ => trivial

theorem admits_of_isData {v : Value} (hv : v.IsData) : D.Admits h v := by
  cases v with
  | nil => trivial
  | bool value => trivial
  | number value => trivial
  | string text => trivial
  | _ => exact hv.elim

/-- Whatever one discipline admits to a heap, another one admits, too. -/
structure Within (D D' : Discipline) (h : Heap) : Prop where
  rules : D.rules.Within D'.rules
  binding : ∀ name value, D.binding name value → D'.binding name value
  function : ∀ f, D.function h f → D'.function h f
  method : ∀ name f, D.method h name f → D'.method h name f
  inst : ∀ i, D.inst h i → D'.inst h i

section Within

variable {D' : Discipline} (hw : D.Within D' h)
include hw

theorem AdmitsFunction.imp {f : Function} (hf : D.AdmitsFunction h f) : D'.AdmitsFunction h f :=
  ⟨hf.obeys.mono hw.rules, hw.function f hf.function⟩

theorem AdmitsClass.imp {c : Class} (hc : D.AdmitsClass h c) : D'.AdmitsClass h c :=
  fun layer hlayer name f hf ↦
    have hmethod := hc layer hlayer name f hf
    ⟨hmethod.obeys.mono hw.rules, hw.method name f hmethod.method⟩

theorem Admits.imp {v : Value} (hv : D.Admits h v) : D'.Admits h v := by
  cases v with
  | function f => exact AdmitsFunction.imp hw hv
  | cls c => exact AdmitsClass.imp hw hv
  | «instance» i => exact ⟨hw.inst i hv.inst, hv.cls.imp hw⟩
  | _ => trivial

theorem Kept.imp (hk : D.Kept h) (hshape : D'.shape h) : D'.Kept h where
  shape := hshape
  binding scope name value hvalue := hw.binding name value (hk.binding scope name value hvalue)
  bound scope name value hvalue := (hk.bound scope name value hvalue).imp hw
  fields i name value hvalue := (hk.fields i name value hvalue).imp hw

end Within

theorem Advances.refl (L : D.Lawful) (hk : D.Kept h) : D.Advances h h :=
  ⟨L.step_refl h, hk⟩

theorem Advances.trans (L : D.Lawful) (first : D.Advances h h') (second : D.Advances h' h'') :
    D.Advances h h'' :=
  ⟨L.step_trans first.step second.step, second.kept⟩

namespace Kept

variable (L : D.Lawful) (hk : D.Kept h)
include L hk

theorem openScope {parent : ScopeRef} {bindings : Bindings Value} (hparent : D.site h parent)
    (hbindings : ∀ name value, bindings.get? name = some value →
      D.binding name value ∧ D.Admits h value) :
    D.Advances h (h.openScope (some parent) bindings).2 := by
  obtain ⟨hshape, hstep, -⟩ := L.openScope bindings hk.shape hparent
  refine ⟨hstep, hshape, fun scope name value hvalue ↦ ?_, fun scope name value hvalue ↦ ?_,
    fun i name value hvalue ↦ (hk.fields i name value hvalue).mono L hstep⟩
  · rcases Heap.get?_of_openScope hvalue with hold | ⟨-, hnew⟩
    · exact hk.binding scope name value hold
    · exact (hbindings name value hnew).1
  · rcases Heap.get?_of_openScope hvalue with hold | ⟨-, hnew⟩
    · exact (hk.bound scope name value hold).mono L hstep
    · exact (hbindings name value hnew).2.mono L hstep

theorem define {scope : ScopeRef} {name : String} {value : Value}
    (hplace : D.inside h scope ∨ h.holds scope name = true) (hname : D.rules.name name)
    (hvalue : D.Admits h value) : D.Advances h (h.define scope name value) := by
  obtain ⟨hshape, hstep⟩ := L.define value hk.shape hplace hname
  refine ⟨hstep, hshape, fun other key found hfound ↦ ?_, fun other key found hfound ↦ ?_,
    fun i key found hfound ↦ (hk.fields i key found hfound).mono L hstep⟩
  · rcases Heap.get?_of_define hfound with hold | ⟨-, rfl, -⟩
    · exact hk.binding other key found hold
    · exact L.binding_of_name hname found
  · rcases Heap.get?_of_define hfound with hold | ⟨-, -, rfl⟩
    · exact (hk.bound other key found hold).mono L hstep
    · exact hvalue.mono L hstep

theorem instantiate (c : Class) : D.Advances h (h.instantiate c).2 := by
  obtain ⟨hshape, hstep, -⟩ := L.instantiate c hk.shape
  refine ⟨hstep, hshape, hk.binding, fun scope name value hvalue ↦ ?_,
    fun i name value hvalue ↦ ?_⟩
  · exact (hk.bound scope name value hvalue).mono L hstep
  · rw [Heap.fieldsOf_instantiate] at hvalue
    exact (hk.fields i name value hvalue).mono L hstep

theorem setField {value : Value} (hvalue : D.Admits h value) (i : Instance) (name : String) :
    D.Advances h (h.setField i name value) := by
  obtain ⟨hshape, hstep⟩ := L.setField i name value hk.shape
  refine ⟨hstep, hshape, hk.binding, fun scope key found hfound ↦ ?_, fun j key found hfound ↦ ?_⟩
  · exact (hk.bound scope key found hfound).mono L hstep
  · rcases Heap.get?_of_setField hfound with hold | rfl
    · exact (hk.fields j key found hold).mono L hstep
    · exact hvalue.mono L hstep

theorem freshIdentity : D.Advances h h.freshIdentity.2 := by
  obtain ⟨hshape, hstep⟩ := L.freshIdentity hk.shape
  refine ⟨hstep, hshape, hk.binding, fun scope name value hvalue ↦ ?_,
    fun i name value hvalue ↦ ?_⟩
  · exact (hk.bound scope name value hvalue).mono L hstep
  · exact (hk.fields i name value hvalue).mono L hstep

end Kept

end Discipline

end Lox
