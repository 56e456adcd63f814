import Lox.Proofs.Machine.Receivers

/-!
# Construction hands back the instance

A class that is called gives a new instance, whatever its initializer does, and an initializer gives
the instance that it is bound to.  Both are known of every call that a receptive machine ever makes,
since no function that is an initializer gets anywhere without an instance in its closure.
-/

namespace Lox

open Lox.Computation (EndsIn)

/-- An initializer has `this` bound to an instance right in its closure, and the fields of an
instance are there. -/
def Value.Founded (h : Heap) : Value → Prop
  | .function f => f.isInitializer = true → ∃ i, h.get? f.closure "this" = some (.instance i)
  | .instance i => i.ref < h.fields.size
  | _ => True

/-- So it is with all values that are held in scopes and fields. -/
structure Heap.Founded (h : Heap) : Prop where
  bound : ∀ scope name value, h.get? scope name = some value → value.Founded h
  fields : ∀ i name value, (h.fieldsOf i).get? name = some value → value.Founded h

theorem Discipline.Admits.founded {rules : Rules} {h : Heap} {v : Value}
    (hv : (Discipline.receivers rules).Admits h v) : v.Founded h := by
  cases v with
  | function f => exact hv.function
  | «instance» i => exact hv.inst
  | _ => trivial

theorem Discipline.Kept.founded {rules : Rules} {h : Heap}
    (hk : (Discipline.receivers rules).Kept h) : h.Founded where
  bound scope name value hvalue := (hk.bound scope name value hvalue).founded
  fields i name value hvalue := (hk.fields i name value hvalue).founded

namespace Run

variable {execute : Stmt → Run Flow} {arguments : List Value} {m m' : Machine} {v : Value}

/-- A method that is bound to an instance has it under `this`. -/
theorem bindMethod_eq (method : Function) (i : Instance) (m : Machine) :
    ∃ f m', bindMethod method i m = .ok f m' ∧ f.isInitializer = method.isInitializer ∧
      m'.heap.get? f.closure "this" = some (.instance i) :=
  ⟨_, _, rfl, rfl, Heap.get?_openScope_self ..⟩

theorem construct_eq_ok {c : Class} (h : construct execute c arguments m = .ok v m') :
    v = .instance ⟨m.heap.fields.size, c⟩ := by
  obtain ⟨i, m₁, hi, hrest⟩ := Computation.bind_eq_ok_iff.1 h
  cases hi
  cases hinit : c.findMethod? Class.initializerName with
  | none =>
    rw [hinit] at hrest
    cases hrest
    rfl
  | some init =>
    rw [hinit] at hrest
    obtain ⟨f, m₂, -, hcalled⟩ := Computation.bind_eq_ok_iff.1 hrest
    obtain ⟨_, m₃, -, hreturned⟩ := Computation.bind_eq_ok_iff.1 hcalled
    cases hreturned
    rfl

theorem callFunction_eq_ok {f : Function} (hf : f.isInitializer = true)
    (h : callFunction execute f arguments m = .ok v m') :
    m'.heap.get? f.closure "this" = some v := by
  obtain ⟨scope, m₁, -, hrest⟩ := Computation.bind_eq_ok_iff.1 h
  obtain ⟨flow, m₂, -, hthis⟩ := Computation.bind_eq_ok_iff.1 hrest
  rw [if_pos hf, liftM_self, valueIn, Computation.get_bind, Option.bind_some] at hthis
  cases hvalue : m₂.heap.get? f.closure "this" with
  | none =>
    rw [hvalue] at hthis
    cases hthis
  | some value =>
    rw [hvalue] at hthis
    cases hthis
    exact hvalue

/-- A call that ends with a value is made once the arguments are evaluated. -/
theorem evaluate_call_eq_ok {fuel : Nat} {callee : Expr} {paren : Token} {es : List Expr}
    {w : Value} {m₁ m₂ : Machine} (hcallee : evaluate fuel callee m = .ok w m₁)
    (harguments : valuesOf (evaluate fuel) es m₁ = .ok arguments m₂)
    (h : evaluate (fuel + 1) (.call callee paren es) m = .ok v m') :
    ∃ target, w.callee? = some target ∧
      call (Run.execute fuel) target paren.line arguments m₂ = .ok v m' := by
  rw [evaluate, evaluateWith, Computation.bind_of_ok hcallee] at h
  cases htarget : w.callee? with
  | none =>
    rw [htarget] at h
    cases h
  | some target =>
    rw [htarget] at h
    dsimp only at h
    rw [Computation.bind_of_ok harguments] at h
    split at h
    · cases h
    · exact ⟨target, rfl, h⟩

end Run

/-- A method of a name, bound to an instance.  It is an initializer if its name says so. -/
structure Function.Binds (h : Heap) (f : Function) (name : String) (i : Instance) : Prop where
  this : h.get? f.closure "this" = some (.instance i)
  isInitializer : f.isInitializer = true ↔ name = Class.initializerName

namespace Machine

/-- What a call gives back: a class an instance that is new, and an initializer the instance that it
was bound to and still is. -/
def HandsBack (m m' : Machine) (result : Value) : Value → Prop
  | .cls c => result = .instance ⟨m.heap.fields.size, c⟩
  | .function f => f.isInitializer = true → ∃ i, result = .instance i ∧
    m.heap.get? f.closure "this" = some (.instance i) ∧
    m'.heap.get? f.closure "this" = some (.instance i)
  | _ => True

/-- The initializer that construction runs gives the instance that is constructed. -/
def Initializes (m : Machine) (fuel : Nat) (arguments : List Value) : Value → Prop
  | .cls c => ∀ init f m₁ result m₂, c.findMethod? Class.initializerName = some init →
    Run.bindMethod init ⟨m.heap.fields.size, c⟩ { m with heap := (m.heap.instantiate c).2 } =
      .ok f m₁ →
    Run.callFunction (Run.execute fuel) f arguments m₁ = .ok result m₂ →
    result = .instance ⟨m.heap.fields.size, c⟩
  | _ => True

/-- What an expression gives, if it is a call, a property or a method of the superclass. -/
def Gives (m : Machine) : Expr → Prop
  | .call callee paren es => ∀ fuel v m₁ vs m₂, Run.evaluate fuel callee m = .ok v m₁ →
    Run.valuesOf (Run.evaluate fuel) es m₁ = .ok vs m₂ →
    m₂.heap.Founded ∧ (∀ w ∈ v :: vs, w.Founded m₂.heap) ∧ m₂.Initializes fuel vs v ∧
      ∀ result m₃, Run.evaluate (fuel + 1) (.call callee paren es) m = .ok result m₃ →
        m₂.HandsBack m₃ result v
  | .get object name => ∀ fuel i m₁ method, Run.evaluate fuel object m = .ok (.instance i) m₁ →
    (m₁.heap.fieldsOf i).get? name.lexeme = none → i.cls.findMethod? name.lexeme = some method →
    ∃ f m₂, Run.evaluate (fuel + 1) (.get object name) m = .ok (.function f) m₂ ∧
      f.Binds m₂.heap name.lexeme i
  | .super id keyword method => ∀ fuel v m',
    Run.evaluate (fuel + 1) (.super id keyword method) m = .ok v m' →
    ∃ f depth i, v = .function f ∧ m.addresses[id]? = some depth ∧
      m.heap.getAt? m.current (depth - 1) "this" = some (.instance i) ∧
      f.Binds m'.heap method.lexeme i
  | _ => True

/-- However a computation ends, no `this` has been bound again and all values are founded. -/
def Preserves {α : Type} (m : Machine) (x : Run α) : Prop :=
  EndsIn (fun m' ↦ m.heap.KeepsReceivers m'.heap ∧ m'.heap.Founded) x m

/-- What holds whenever an expression is evaluated. -/
structure Constructs (m : Machine) (e : Expr) : Prop where
  founded : m.heap.Founded
  preserves : ∀ fuel, m.Preserves (Run.evaluate fuel e)
  value : ∀ fuel v m', Run.evaluate fuel e m = .ok v m' → v.Founded m'.heap
  gives : m.Gives e

/-- What holds whenever a statement is executed. -/
structure Conserves (m : Machine) (s : Stmt) : Prop where
  founded : m.heap.Founded
  preserves : ∀ fuel, m.Preserves (Run.execute fuel s)

end Machine

section Receptive

variable {m : Machine}

/-- An initializer that is called gives the instance that it is bound to. -/
theorem Conduct.Sane.callFunction {t : Machine} (ht : (Conduct.keeping m .blind).Sane t)
    {f : Function} (hf : (Conduct.keeping m .blind).AdmitsFunction t.heap f)
    {arguments : List Value}
    (harguments : ∀ v ∈ arguments, (Conduct.keeping m .blind).Admits t.heap v)
    (hinitializer : f.isInitializer = true) {i : Instance}
    (hi : t.heap.get? f.closure "this" = some (.instance i)) {fuel : Nat} {result : Value}
    {t' : Machine} (hcall : Run.callFunction (Run.execute fuel) f arguments t = .ok result t') :
    result = .instance i ∧ t'.heap.get? f.closure "this" = some (.instance i) := by
  have hupheld := Conduct.Upholds.callFunction (Conduct.keeping_blind_lawful m)
    (Conduct.keeping_upheld m fuel).2 ht hf harguments
  obtain ⟨-, hleads, -⟩ := hupheld.of_ok hcall
  -- Whatever the body has done, `this` is still bound to the same instance.
  have hkept := hleads.advances.step.this _ _ hi
  have hresult := Run.callFunction_eq_ok hinitializer hcall
  rw [hkept] at hresult
  exact ⟨(Option.some.inj hresult).symm, hkept⟩

theorem Conduct.Sane.initializes {t : Machine} (ht : (Conduct.keeping m .blind).Sane t)
    {v : Value} (hv : (Conduct.keeping m .blind).Admits t.heap v) {arguments : List Value}
    (harguments : ∀ w ∈ arguments, (Conduct.keeping m .blind).Admits t.heap w) (fuel : Nat) :
    t.Initializes fuel arguments v := by
  cases v with
  | cls c =>
    intro init f m₁ result m₂ hinit hbind hcall
    have L := Conduct.keeping_blind_lawful m
    have hc : (Conduct.keeping m .blind).AdmitsClass t.heap c := hv
    have hadvances := ht.kept.instantiate L.toLawful c
    have ht' : (Conduct.keeping m .blind).Sane { t with heap := (t.heap.instantiate c).2 } :=
      ⟨hadvances.kept, ht.addresses⟩
    have hmethod := (hc.findMethod? hinit).mono L.toLawful hadvances.step
    obtain ⟨-, -, hinst⟩ := L.instantiate c ht.kept.shape
    have hupheld := Conduct.Upholds.bindMethod L ht' hmethod
      ⟨hinst, hc.mono L.toLawful hadvances.step⟩
    obtain ⟨-, hleads, hf, hflag, hthis⟩ := hupheld.of_ok hbind
    have hvs : ∀ w ∈ arguments, (Conduct.keeping m .blind).Admits m₁.heap w := fun w hw ↦
      (harguments w hw).mono L.toLawful (L.step_trans hadvances.step hleads.advances.step)
    -- The method has been found under the name of initializers, so it is one.
    have hinitializer : f.isInitializer = true := by
      rw [hflag, hmethod.method]
      exact decide_eq_true rfl
    exact ((ht'.follow hleads).callFunction hf hvs hinitializer hthis hcall).1
  | _ => trivial

theorem Conduct.Sane.handsBack {t t' : Machine} (ht : (Conduct.keeping m .blind).Sane t)
    {v : Value} (hv : (Conduct.keeping m .blind).Admits t.heap v) {arguments : List Value}
    (harguments : ∀ w ∈ arguments, (Conduct.keeping m .blind).Admits t.heap w) {target : Callee}
    (htarget : v.callee? = some target) {fuel line : Nat} {result : Value}
    (hcall : Run.call (Run.execute fuel) target line arguments t = .ok result t') :
    t.HandsBack t' result v := by
  cases v with
  | cls c =>
    cases htarget
    exact Run.construct_eq_ok hcall
  | function f =>
    cases htarget
    intro hinitializer
    obtain ⟨i, hi⟩ := Discipline.AdmitsFunction.function hv hinitializer
    obtain ⟨hresult, hkept⟩ := ht.callFunction hv harguments hinitializer hi hcall
    exact ⟨i, hresult, hi, hkept⟩
  | _ => trivial

theorem Conduct.Upholds.preserves {α : Type} {x y : Run α} {Q : α → Machine → Prop}
    (h : (Conduct.keeping m .blind).Upholds x y m Q) : m.Preserves x :=
  h.endsIn.mono fun _ hleads ↦ ⟨hleads.advances.step, hleads.advances.kept.founded⟩

namespace Machine.Receptive

variable (hm : m.Receptive)
include hm

theorem gives_call {callee : Expr} {paren : Token} {es : List Expr}
    (he : (Expr.call callee paren es).Proper fun _ ↦ True) : m.Gives (.call callee paren es) := by
  intro fuel v m₁ vs m₂ hcallee harguments
  have L := Conduct.keeping_blind_lawful m
  obtain ⟨-, hleads₁, hv⟩ := (hm.evaluate fuel he.1).of_ok hcallee
  have hstands := hm.stands.follow L hleads₁
  have hupheld := Conduct.Upholds.valuesOf L (Conduct.keeping_upheld m fuel).1
    (Expr.properAll_iff.1 he.2) hstands
  obtain ⟨-, hleads₂, hvs⟩ := hupheld.of_ok harguments
  have hsane := (hstands.follow L hleads₂).toSane
  have hv' := hv.mono L.toLawful hleads₂.advances.step
  refine ⟨hsane.kept.founded, ?_, hsane.initializes hv' hvs fuel, fun result m₃ hcall ↦ ?_⟩
  · rw [List.forall_mem_cons]
    exact ⟨hv'.founded, fun w hw ↦ (hvs w hw).founded⟩
  · obtain ⟨target, htarget, htargeted⟩ := Run.evaluate_call_eq_ok hcallee harguments hcall
    exact hsane.handsBack hv' hvs htarget htargeted

theorem gives_get {object : Expr} {name : Token} (he : object.Proper fun _ ↦ True) :
    m.Gives (.get object name) := by
  intro fuel i m₁ method hobject hfield hmethod
  obtain ⟨-, -, hi⟩ := (hm.evaluate fuel he).of_ok hobject
  have hflag := (hi.cls.findMethod? hmethod).method
  obtain ⟨f, m₂, hbind, hinitializer, hthis⟩ := Run.bindMethod_eq method i m₁
  refine ⟨f, m₂, ?_, hthis, ?_⟩
  · rw [Run.evaluate, Run.evaluateWith, Computation.bind_of_ok hobject]
    dsimp only
    rw [Run.liftM_self, Run.property, Computation.get_bind, hfield]
    dsimp only
    rw [hmethod]
    dsimp only
    rw [Computation.bind_of_ok hbind]
    rfl
  · rw [hinitializer, hflag]
    exact decide_eq_true_iff

theorem gives_super (id : NodeId) (keyword method : Token) :
    m.Gives (.super id keyword method) := by
  intro fuel v m' hsuper
  rw [Run.evaluate, Run.evaluateWith, Run.liftM_self] at hsuper
  rcases Run.superMethod_cases id keyword method m with
    ⟨halt, herror⟩ | ⟨depth, c, i, hdepth, hc, hi⟩
  · rw [herror] at hsuper
    cases hsuper
  rw [Run.superMethod_of_found method hdepth hc hi] at hsuper
  obtain ⟨scope, -, hcls⟩ := Option.bind_eq_some_iff.1 hc
  cases hfound : c.findMethod? method.lexeme with
  | none =>
    rw [hfound] at hsuper
    cases hsuper
  | some found =>
    rw [hfound] at hsuper
    have hflag := (Discipline.AdmitsClass.findMethod? (hm.bound _ _ _ hcls) hfound).method
    obtain ⟨f, m₂, hbind, hinitializer, hthis⟩ := Run.bindMethod_eq found i m
    dsimp only at hsuper
    rw [Computation.bind_of_ok hbind] at hsuper
    cases hsuper
    refine ⟨f, depth, i, rfl, hdepth, hi, hthis, ?_⟩
    rw [hinitializer, hflag]
    exact decide_eq_true_iff

theorem gives {e : Expr} (he : e.Proper fun _ ↦ True) : m.Gives e := by
  cases e with
  | call callee paren es => exact hm.gives_call he
  | get object name => exact hm.gives_get he
  | super id keyword method => exact hm.gives_super id keyword method
  | _ => trivial

theorem constructs {e : Expr} (he : e.Proper fun _ ↦ True) : m.Constructs e where
  founded := Discipline.Kept.founded hm
  preserves fuel := (hm.evaluate fuel he).preserves
  value fuel _ _ hvalue := ((hm.evaluate fuel he).of_ok hvalue).2.2.founded
  gives := hm.gives he

theorem conserves {s : Stmt} (hs : s.Obeys (.proper (Machine.Locates m.addresses))) :
    m.Conserves s where
  founded := Discipline.Kept.founded hm
  preserves fuel := (hm.execute fuel hs).preserves

end Machine.Receptive

end Receptive

end Lox
