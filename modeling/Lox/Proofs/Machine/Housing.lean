import Lox.Proofs.Machine.Homes
import Lox.Proofs.Machine.Host

/-!
# Housed machines

Two computations side by side that do the same from a machine whose heap is housed, and leave it
housed however they end.  `Ledger.Carries` says so of two computations; the operations of the
machine are such, each with itself.
-/

namespace Lox

open Lox.Computation (Yields)

namespace Ledger

structure Holds (L : Ledger) (m : Machine) : Prop where
  housed : m.heap.Housed L
  addresses : m.addresses = L.addresses

structure Leads (L : Ledger) (m m' : Machine) : Prop where
  keeps : m.heap.KeepsHomes m'.heap
  housed : m'.heap.Housed L
  current : m'.current = m.current
  addresses : m'.addresses = m.addresses

/-- Two computations do the same from a machine, lead to a machine that is housed, and give what
they should. -/
structure Carries {α : Type} (L : Ledger) (x y : Run α) (m : Machine) (Q : α → Machine → Prop) :
    Prop where
  alike : x m = y m
  ends : match x m with
    | .ok a m' => L.Leads m m' ∧ Q a m'
    | .error _ m' => L.Leads m m'

variable {L : Ledger} {m m' m'' : Machine}

theorem Leads.refl (hm : L.Holds m) : L.Leads m m :=
  ⟨.refl _, hm.housed, rfl, rfl⟩

theorem Leads.trans (first : L.Leads m m') (second : L.Leads m' m'') : L.Leads m m'' where
  keeps := first.keeps.trans second.keeps
  housed := second.housed
  current := second.current.trans first.current
  addresses := second.addresses.trans first.addresses

theorem Holds.follow (hm : L.Holds m) (hleads : L.Leads m m') : L.Holds m' :=
  ⟨hleads.housed, hleads.addresses.trans hm.addresses⟩

theorem Holds.enter (hm : L.Holds m) (scope : ScopeRef) : L.Holds { m with current := scope } :=
  ⟨hm.housed, hm.addresses⟩

namespace Carries

variable {α β : Type} {x y : Run α} {f g : α → Run β} {Q : α → Machine → Prop}
  {R : β → Machine → Prop}

theorem mono {Q' : α → Machine → Prop} (h : L.Carries x y m Q)
    (himp : ∀ a m', L.Leads m m' → Q a m' → Q' a m') : L.Carries x y m Q' := by
  obtain ⟨halike, hends⟩ := h
  refine ⟨halike, ?_⟩
  split at hends
  · exact ⟨hends.1, himp _ _ hends.1 hends.2⟩
  · exact hends

theorem of_ok {a : α} (h : L.Carries x y m Q) (hx : x m = .ok a m') : L.Leads m m' ∧ Q a m' := by
  have hends := h.ends
  rw [hx] at hends
  exact hends

theorem of_error {halt : Halt} (h : L.Carries x y m Q) (hx : x m = .error halt m') :
    L.Leads m m' := by
  have hends := h.ends
  rw [hx] at hends
  exact hends

theorem of_eq {x' y' : Run α} (hx : x m = x' m) (hy : y m = y' m) (h : L.Carries x' y' m Q) :
    L.Carries x y m Q := by
  obtain ⟨halike, hends⟩ := h
  rw [← hx] at hends
  refine ⟨?_, hends⟩
  calc x m
    _ = x' m := hx
    _ = y' m := halike
    _ = y m := hy.symm

theorem pure (hm : L.Holds m) {a : α} (hQ : Q a m) :
    L.Carries (Pure.pure a : Run α) (Pure.pure a) m Q :=
  ⟨rfl, .refl hm, hQ⟩

theorem throw (hm : L.Holds m) (halt : Halt) :
    L.Carries (MonadExcept.throw halt : Run α) (MonadExcept.throw halt) m Q :=
  ⟨rfl, .refl hm⟩

theorem fault (hm : L.Holds m) (line : Nat) (cause : RuntimeFault) :
    L.Carries (Run.fault line cause : Run α) (Run.fault line cause) m Q :=
  throw hm _

/-- What follows may be told how the second computation has ended. -/
theorem bind_of_ok (hx : L.Carries x y m Q)
    (hf : ∀ a m', y m = .ok a m' → L.Leads m m' → Q a m' → L.Carries (f a) (g a) m' R) :
    L.Carries (x >>= f) (y >>= g) m R := by
  cases h : x m with
  | ok a m' =>
    have hy := hx.alike.symm.trans h
    obtain ⟨hleads, hQ⟩ := hx.of_ok h
    have hnext := hf a m' hy hleads hQ
    constructor
    · rw [Computation.bind_of_ok h, Computation.bind_of_ok hy]
      exact hnext.alike
    · rw [Computation.bind_of_ok h]
      have hends := hnext.ends
      generalize f a m' = r at hends ⊢
      cases r with
      | ok b t => exact ⟨hleads.trans hends.1, hends.2⟩
      | error halt t => exact hleads.trans hends
  | error halt m' =>
    have hy := hx.alike.symm.trans h
    constructor
    · rw [Computation.bind_of_error h, Computation.bind_of_error hy]
    · rw [Computation.bind_of_error h]
      exact hx.of_error h

theorem bind (hx : L.Carries x y m Q)
    (hf : ∀ a m', L.Leads m m' → Q a m' → L.Carries (f a) (g a) m' R) :
    L.Carries (x >>= f) (y >>= g) m R :=
  bind_of_ok hx fun a m' _ ↦ hf a m'

theorem get {f g : Machine → Run β} (h : L.Carries (f m) (g m) m R) :
    L.Carries (MonadState.get >>= f) (MonadState.get >>= g) m R :=
  ⟨h.alike, h.ends⟩

theorem onHeap {change : Heap → α × Heap} (keeps : m.heap.KeepsHomes (change m.heap).2)
    (housed : (change m.heap).2.Housed L)
    (hQ : Q (change m.heap).1 { m with heap := (change m.heap).2 }) :
    L.Carries (Run.onHeap change) (Run.onHeap change) m Q :=
  ⟨rfl, ⟨keeps, housed, rfl, rfl⟩, hQ⟩

theorem modifyHeap {change : Machine → Heap} {Q : Unit → Machine → Prop}
    (keeps : m.heap.KeepsHomes (change m)) (housed : (change m).Housed L)
    (hQ : Q () { m with heap := change m }) :
    L.Carries (modify fun m ↦ { m with heap := change m } : Run Unit)
      (modify fun m ↦ { m with heap := change m }) m Q :=
  ⟨rfl, ⟨keeps, housed, rfl, rfl⟩, hQ⟩

theorem inScope {scope : ScopeRef} (h : L.Carries x y { m with current := scope } fun a m' ↦
      Q a { m' with current := m.current }) :
    L.Carries (Run.inScope scope x) (Run.inScope scope y) m Q := by
  obtain ⟨halike, hends⟩ := h
  constructor
  · simp only [Run.inScope, halike]
  · simp only [Run.inScope]
    generalize x { m with current := scope } = r at hends ⊢
    cases r with
    | ok a m' =>
      obtain ⟨⟨keeps, housed, -, haddresses⟩, hQ⟩ := hends
      exact ⟨⟨keeps, housed, rfl, haddresses⟩, hQ⟩
    | error halt m' =>
      obtain ⟨keeps, housed, -, haddresses⟩ := hends
      exact ⟨keeps, housed, rfl, haddresses⟩

theorem ite {c : Prop} [Decidable c] {x' y' : Run α} (hx : c → L.Carries x y m Q)
    (hy : ¬c → L.Carries x' y' m Q) :
    L.Carries (if c then x else x') (if c then y else y') m Q := by
  by_cases hc : c
  · rw [if_pos hc, if_pos hc]
    exact hx hc
  · rw [if_neg hc, if_neg hc]
    exact hy hc

theorem of_hostOnly (hm : L.Holds m) (hhost : Run.HostOnly x) {P : α → Prop}
    (hyields : Yields P x) :
    L.Carries x x m fun a _ ↦ P a := by
  have hleads : ∀ {m'}, (∃ host, m' = { m with host }) → L.Leads m m' := by
    rintro _ ⟨host, rfl⟩
    exact ⟨.refl _, hm.housed, rfl, rfl⟩
  refine ⟨rfl, ?_⟩
  cases hx : x m with
  | ok a m' => exact ⟨hleads (hhost.of_ok hx), hyields m a m' hx⟩
  | error halt m' => exact hleads (hhost.of_error hx)

section Operations

variable (hm : L.Holds m)
include hm

theorem valueIn (scope : Option ScopeRef) (name : String) (line : Nat) :
    L.Carries (Run.valueIn scope name line) (Run.valueIn scope name line) m fun v m' ↦
      v.Housed L m'.heap := by
  apply get
  cases hvalue : scope.bind (m.heap.get? · name) with
  | none => exact fault hm _ _
  | some value =>
    obtain ⟨target, -, hget⟩ := Option.bind_eq_some_iff.1 hvalue
    exact pure hm (hm.housed.bound target name value hget)

theorem lookUp (id : NodeId) (name : Token) :
    L.Carries (Run.lookUp id name) (Run.lookUp id name) m fun v m' ↦ v.Housed L m'.heap :=
  get (valueIn hm _ _ _)

theorem define {name : String} (hname : ¬Reserved name) {value : Value}
    (hvalue : value.Housed L m.heap) :
    L.Carries (Run.define name value) (Run.define name value) m fun _ m' ↦
      m' = { m with heap := m.heap.define m.current name value } :=
  modifyHeap (.define _ _ hname _) (hm.housed.define _ hname hvalue) rfl

/-- Nothing is asked of a value that no scope takes. -/
theorem assignIn (scope : Option ScopeRef) {name : Token} (hname : ¬Reserved name.lexeme)
    {value : Value} (hvalue : scope.any (m.heap.holds · name.lexeme) = true →
      value.Housed L m.heap) :
    L.Carries (Run.assignIn scope name value) (Run.assignIn scope name value) m
      fun _ _ ↦ True := by
  rw [Run.assignIn_eq]
  apply get
  cases hscope : scope.filter (m.heap.holds · name.lexeme) with
  | none => exact fault hm _ _
  | some target =>
    obtain ⟨rfl, hholds⟩ := Option.filter_eq_some_iff.1 hscope
    exact modifyHeap (.define _ _ hname _) (hm.housed.define _ hname (hvalue hholds)) trivial

theorem assign (id : NodeId) {name : Token} (hname : ¬Reserved name.lexeme) {value : Value}
    (hvalue : value.Housed L m.heap) :
    L.Carries (Run.assign id name value) (Run.assign id name value) m fun _ _ ↦ True := by
  rw [Run.assign_eq]
  exact get (assignIn hm _ hname fun _ ↦ hvalue)

theorem openScope (parent : ScopeRef) {bindings : Bindings Value}
    (hbindings : ∀ name value, bindings.get? name = some value → value.Housed L m.heap) :
    L.Carries (Run.openScope parent bindings) (Run.openScope parent bindings) m fun scope m' ↦
      scope = m.heap.scopes.size ∧ m'.heap.parent? scope = some parent ∧
        ∀ name, m'.heap.get? scope name = bindings.get? name := by
  apply onHeap (.openScope _ _ _) (hm.housed.openScope _ hbindings)
  exact ⟨rfl, Heap.parent?_openScope_self .., fun _ ↦ Heap.get?_openScope_self ..⟩

theorem newFunction (routine : Routine Stmt) (closure : ScopeRef) (isInitializer : Bool) :
    L.Carries (Run.newFunction routine closure isInitializer)
      (Run.newFunction routine closure isInitializer) m fun f m' ↦
        f.routine = routine ∧ f.closure = closure ∧ m'.heap.scopes = m.heap.scopes := by
  refine bind (onHeap (Q := fun _ m' ↦ m'.heap.scopes = m.heap.scopes) (.freshIdentity _)
    hm.housed.freshIdentity rfl) fun identity m' hleads hscopes ↦ ?_
  exact pure (hm.follow hleads) ⟨rfl, rfl, hscopes⟩

/-- A method is bound in a home of its own. -/
theorem bindMethod {i : Instance} (hi : i.cls.Housed L m.heap) {d : Class}
    (hd : d ∈ i.cls.ancestry) {name : String} {method : Function}
    (hmethod : d.own.methods.get? name = some method) :
    L.Carries (Run.bindMethod method i) (Run.bindMethod method i) m fun f m' ↦
      f.Housed L m'.heap := by
  refine bind (openScope hm method.closure fun key value hvalue ↦ ?_)
    fun scope m' hleads hscope ↦ ?_
  · obtain ⟨rfl, rfl⟩ := Bindings.eq_of_get?_single hvalue
    exact hi
  · obtain ⟨-, hparent, hnames⟩ := hscope
    refine (newFunction (hm.follow hleads) method.routine scope method.isInitializer).mono
      fun f m'' hleads' hf ↦ ?_
    obtain ⟨hroutine, rfl, hscopes⟩ := hf
    have hi' := hi.mono (hleads.keeps.trans hleads'.keeps)
    refine hi'.bind hd hmethod hroutine ?_ (hleads'.keeps.parent _ _ hparent)
    rw [Heap.get?, hscopes]
    exact hnames "this"

theorem property {i : Instance} (hi : i.cls.Housed L m.heap) (name : Token) :
    L.Carries (Run.property i name) (Run.property i name) m fun v m' ↦ v.Housed L m'.heap := by
  apply get
  split
  · rename_i value hvalue
    exact pure hm (hm.housed.fields i _ value hvalue)
  · split
    · rename_i method hmethod
      obtain ⟨d, hd, hlisted⟩ := Class.exists_of_findMethod? hmethod
      refine bind (bindMethod hm hi hd hlisted) fun f m' hleads hf ↦ ?_
      exact pure (hm.follow hleads) hf
    · exact fault hm _ _

end Operations

end Carries

end Ledger

end Lox
