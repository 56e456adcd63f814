import Lox.Proofs.Machine.Conduct
import Lox.Proofs.Resolution.Supers

/-!
# Homes

A method is bound to an instance in a scope that holds `this`, just inside the closure of the
method. This scope is the home of all that belongs to the method, in whatever functions and blocks
it stands. The closure of a method of a subclass holds `super`, and the class that it holds there is
the one which the class of the method extends.

A heap is housed if all that it holds keeps to this: then a `super` anywhere in a function is
written in the method whose home lies around the closure of the function (`Function.Housed`).
-/

namespace Lox

namespace Class

/-- A class and the classes that it extends, the nearest first. -/
def ancestry : Class → List Class
  | root own => [root own]
  | derived own superclass => derived own superclass :: superclass.ancestry

theorem self_mem_ancestry (c : Class) : c ∈ c.ancestry := by
  cases c with
  | root own => exact List.mem_cons_self
  | derived own superclass => exact List.mem_cons_self

theorem ancestry_subset {c d : Class} (h : d ∈ c.ancestry) : d.ancestry ⊆ c.ancestry := by
  induction c with
  | root own =>
    cases List.mem_singleton.1 h
    exact List.Subset.refl _
  | derived own superclass ih =>
    rcases List.mem_cons.1 h with rfl | hd
    · exact List.Subset.refl _
    · exact List.subset_cons_of_subset _ (ih hd)

theorem superclass_mem_ancestry {c superclass : Class} {own : Layer}
    (h : derived own superclass ∈ c.ancestry) : superclass ∈ c.ancestry :=
  ancestry_subset h (List.mem_cons_of_mem _ superclass.self_mem_ancestry)

theorem sizeOf_le_of_mem_ancestry {c d : Class} (h : d ∈ c.ancestry) : sizeOf d ≤ sizeOf c := by
  induction c with
  | root own =>
    cases List.mem_singleton.1 h
    exact Nat.le_refl _
  | derived own superclass ih =>
    rcases List.mem_cons.1 h with rfl | hd
    · exact Nat.le_refl _
    · have hsize := ih hd
      simp only [derived.sizeOf_spec]
      omega

/-- No class extends itself, nor one that extends it. -/
theorem ne_of_derived_mem_ancestry {c superclass : Class} {own : Layer}
    (h : derived own superclass ∈ c.ancestry) : superclass ≠ c := by
  rintro rfl
  have hsize := sizeOf_le_of_mem_ancestry h
  simp only [derived.sizeOf_spec] at hsize
  omega

theorem exists_of_findMethod? {c : Class} {name : String} {f : Function}
    (h : c.findMethod? name = some f) : ∃ d ∈ c.ancestry, d.own.methods.get? name = some f := by
  induction c with
  | root own =>
    rw [findMethod?_root] at h
    exact ⟨root own, List.mem_cons_self, h⟩
  | derived own superclass ih =>
    rw [findMethod?_derived] at h
    cases hown : own.methods.get? name with
    | some g =>
      rw [hown] at h
      exact ⟨derived own superclass, List.mem_cons_self, hown.trans h⟩
    | none =>
      rw [hown] at h
      obtain ⟨d, hd, hf⟩ := ih h
      exact ⟨d, List.mem_cons_of_mem _ hd, hf⟩

end Class

/-- What happens to a heap moves no scope, and binds neither `this` nor `super` again. -/
structure Heap.KeepsHomes (h h' : Heap) : Prop where
  parent : ∀ scope outer, h.parent? scope = some outer → h'.parent? scope = some outer
  reserved : ∀ scope name value, Reserved name → h.get? scope name = some value →
    h'.get? scope name = some value

namespace Heap.KeepsHomes

variable {h h' h'' : Heap}

theorem refl (h : Heap) : h.KeepsHomes h :=
  ⟨fun _ _ ↦ id, fun _ _ _ _ ↦ id⟩

theorem trans (first : h.KeepsHomes h') (second : h'.KeepsHomes h'') : h.KeepsHomes h'' where
  parent scope outer hparent := second.parent scope outer (first.parent scope outer hparent)
  reserved scope name value hname hvalue :=
    second.reserved scope name value hname (first.reserved scope name value hname hvalue)

theorem openScope (h : Heap) (parent : Option ScopeRef) (bindings : Bindings Value) :
    h.KeepsHomes (h.openScope parent bindings).2 where
  parent scope outer hparent := by
    rw [Heap.parent?, Heap.getElem?_openScope _ _ _ (Heap.lt_size_of_parent? hparent)]
    exact hparent
  reserved scope name value _ hvalue := by
    rw [Heap.get?, Heap.getElem?_openScope _ _ _ (Heap.lt_size_of_get? hvalue)]
    exact hvalue

theorem define (h : Heap) (scope : ScopeRef) {name : String} (hname : ¬Reserved name)
    (value : Value) : h.KeepsHomes (h.define scope name value) where
  parent other outer hparent := by
    rw [Heap.parent?_define]
    exact hparent
  reserved other key found hkey hfound := by
    by_cases heq : other = scope
    · subst heq
      rw [Heap.get?_define h (Heap.lt_size_of_get? hfound),
        if_neg fun (hsame : key = name) ↦ hname (hsame ▸ hkey)]
      exact hfound
    · rw [Heap.get?_define_of_ne h heq]
      exact hfound

theorem instantiate (h : Heap) (c : Class) : h.KeepsHomes (h.instantiate c).2 :=
  ⟨fun _ _ ↦ id, fun _ _ _ _ ↦ id⟩

theorem setField (h : Heap) (i : Instance) (name : String) (value : Value) :
    h.KeepsHomes (h.setField i name value) :=
  ⟨fun _ _ ↦ id, fun _ _ _ _ ↦ id⟩

theorem freshIdentity (h : Heap) : h.KeepsHomes h.freshIdentity.2 :=
  ⟨fun _ _ ↦ id, fun _ _ _ _ ↦ id⟩

theorem ancestor? (keeps : h.KeepsHomes h') {scope target : ScopeRef} {distance : Nat}
    (hancestor : h.ancestor? scope distance = some target) :
    h'.ancestor? scope distance = some target := by
  induction distance generalizing scope with
  | zero => exact hancestor
  | succ distance ih =>
    rw [Heap.ancestor?] at hancestor ⊢
    cases hparent : h.parent? scope with
    | none =>
      rw [hparent] at hancestor
      cases hancestor
    | some outer =>
      rw [hparent] at hancestor
      rw [keeps.parent scope outer hparent]
      exact ih hancestor

end Heap.KeepsHomes

/-- A method of a subclass is bound to an instance in a scope.  The instance belongs to the class of
the method or to one that extends it. -/
structure Heap.Binds (h : Heap) (scope : ScopeRef) (i : Instance) (own : Layer)
    (superclass : Class) (method : Function) : Prop where
  this : h.get? scope "this" = some (.instance i)
  closure : h.parent? scope = some method.closure
  super : h.get? method.closure "super" = some (.cls superclass)
  ancestor : .derived own superclass ∈ i.cls.ancestry
  listed : ∃ name, own.methods.get? name = some method

/-- A node of `super` belongs to the method whose home lies `n` scopes outside of a scope. -/
def Heap.Homes (h : Heap) (scope : ScopeRef) (n : Nat) (p : NodeId × Nat) : Prop :=
  ∃ home i own superclass method, h.ancestor? scope n = some home ∧
    h.Binds home i own superclass method ∧ p ∈ method.routine.supers

namespace Heap

variable {h h' : Heap} {scope : ScopeRef} {n : Nat} {p : NodeId × Nat}

theorem Binds.mono {i : Instance} {own : Layer} {superclass : Class} {method : Function}
    (hbinds : h.Binds scope i own superclass method) (keeps : h.KeepsHomes h') :
    h'.Binds scope i own superclass method where
  this := keeps.reserved _ _ _ (.inl rfl) hbinds.this
  closure := keeps.parent _ _ hbinds.closure
  super := keeps.reserved _ _ _ (.inr rfl) hbinds.super
  ancestor := hbinds.ancestor
  listed := hbinds.listed

theorem Homes.mono (hhomes : h.Homes scope n p) (keeps : h.KeepsHomes h') :
    h'.Homes scope n p := by
  obtain ⟨home, i, own, superclass, method, hhome, hbinds, hp⟩ := hhomes
  exact ⟨home, i, own, superclass, method, keeps.ancestor? hhome, hbinds.mono keeps, hp⟩

/-- A scope inside another one is one further away from the home. -/
theorem Homes.inner (hhomes : h.Homes scope n p) {inner : ScopeRef}
    (hinner : h.parent? inner = some scope) : h.Homes inner (n + 1) p := by
  obtain ⟨home, i, own, superclass, method, hhome, hbinds, hp⟩ := hhomes
  refine ⟨home, i, own, superclass, method, ?_, hbinds, hp⟩
  rw [Heap.ancestor?, hinner]
  exact hhome

end Heap

/-- What is known of a machine: the layers and superclasses of which its subclasses were made, and
the depths of nodes. -/
structure Ledger where
  made : Layer → Class → Prop
  addresses : Std.TreeMap NodeId Nat

section Housed

variable (L : Ledger) (h : Heap)

/-- Nodes of `super` that have their depths and belong to the method whose home lies `n` scopes
outside. -/
def NodesHoused (scope : ScopeRef) (n : Nat) (nodes : List (NodeId × Nat)) : Prop :=
  ∀ p ∈ nodes, L.addresses[p.1]? = some (p.2 + 1) ∧ h.Homes scope n p

/-- Names are ordinary, and in classes that are declared inside the methods are settled. -/
structure Routine.Sound (routine : Routine Stmt) : Prop where
  obeys : Stmt.ObeysRoutine (.proper fun _ ↦ True) routine
  settled : Stmt.SettledRoutine L.addresses routine

structure Function.Housed (f : Function) : Prop where
  sound : f.routine.Sound L
  nodes : ∃ n, NodesHoused L h f.closure n (Stmt.supersRoutine (n + 1) f.routine)

/-- A method that a class holds and that is still to be bound. -/
structure Class.Houses (c : Class) (method : Function) : Prop where
  sound : method.routine.Sound L
  recorded : ∀ p ∈ method.routine.supers, SuperRecorded L.addresses c.superclass?.isSome p
  super : ∀ superclass, c.superclass? = some superclass →
    h.get? method.closure "super" = some (.cls superclass)

/-- A class that is in the ledger, if it is a subclass, and whose own methods can be bound. -/
structure Class.Entered (c : Class) : Prop where
  made : ∀ superclass, c.superclass? = some superclass → L.made c.own superclass
  houses : ∀ name method, c.own.methods.get? name = some method → c.Houses L h method

def Class.Housed (c : Class) : Prop :=
  ∀ d ∈ c.ancestry, d.Entered L h

def Value.Housed : Value → Prop
  | .function f => f.Housed L h
  | .cls c => c.Housed L h
  | .instance i => i.cls.Housed L h
  | _ => True

structure Heap.Housed : Prop where
  bound : ∀ scope name value, h.get? scope name = some value → value.Housed L h
  fields : ∀ i name value, (h.fieldsOf i).get? name = some value → value.Housed L h

/-- A statement that may be executed in a scope. -/
structure Stmt.Housed (scope : ScopeRef) (s : Stmt) : Prop where
  obeys : s.Obeys (.proper fun _ ↦ True)
  settled : s.Settled L.addresses
  nodes : ∃ n, NodesHoused L h scope n (s.supers n)

/-- Statements that may be executed in a scope, one after the other. -/
structure Stmt.HousedAll (scope : ScopeRef) (ss : List Stmt) : Prop where
  obeys : Stmt.ObeysAll (.proper fun _ ↦ True) ss
  settled : Stmt.SettledAll L.addresses ss
  nodes : ∃ n, NodesHoused L h scope n (Stmt.supersAll n ss)

/-- An expression that may be evaluated in a scope.  A node of `super` without a depth is left to
expressions that have not been resolved; a strict view lets none pass. -/
structure Expr.Housed (strict : Prop) (scope : ScopeRef) (e : Expr) : Prop where
  proper : e.Proper fun _ ↦ True
  nodes : ∀ id ∈ e.supers, (∃ n, L.addresses[id]? = some (n + 1) ∧ h.Homes scope n (id, n)) ∨
    ¬strict ∧ L.addresses[id]? = none

end Housed

section Mono

variable {L : Ledger} {h h' : Heap} {scope : ScopeRef}

theorem NodesHoused.mono {n : Nat} {nodes : List (NodeId × Nat)}
    (hnodes : NodesHoused L h scope n nodes) (keeps : h.KeepsHomes h') :
    NodesHoused L h' scope n nodes :=
  fun p hp ↦ ⟨(hnodes p hp).1, (hnodes p hp).2.mono keeps⟩

theorem Function.Housed.mono {f : Function} (hf : f.Housed L h) (keeps : h.KeepsHomes h') :
    f.Housed L h' := by
  obtain ⟨hsound, n, hnodes⟩ := hf
  exact ⟨hsound, n, hnodes.mono keeps⟩

theorem Class.Housed.mono {c : Class} (hc : c.Housed L h) (keeps : h.KeepsHomes h') :
    c.Housed L h' := by
  intro d hd
  obtain ⟨hmade, hhouses⟩ := hc d hd
  refine ⟨hmade, fun name method hmethod ↦ ?_⟩
  obtain ⟨hsound, hrecorded, hsuper⟩ := hhouses name method hmethod
  exact ⟨hsound, hrecorded, fun superclass hsuperclass ↦
    keeps.reserved _ _ _ (.inr rfl) (hsuper superclass hsuperclass)⟩

theorem Value.Housed.mono {v : Value} (hv : v.Housed L h) (keeps : h.KeepsHomes h') :
    v.Housed L h' := by
  cases v with
  | function f => exact Function.Housed.mono hv keeps
  | cls c => exact Class.Housed.mono hv keeps
  | «instance» i => exact Class.Housed.mono hv keeps
  | _ => trivial

theorem Stmt.Housed.mono {s : Stmt} (hs : s.Housed L h scope) (keeps : h.KeepsHomes h') :
    s.Housed L h' scope := by
  obtain ⟨hobeys, hsettled, n, hnodes⟩ := hs
  exact ⟨hobeys, hsettled, n, hnodes.mono keeps⟩

theorem Stmt.HousedAll.mono {ss : List Stmt} (hss : Stmt.HousedAll L h scope ss)
    (keeps : h.KeepsHomes h') : Stmt.HousedAll L h' scope ss := by
  obtain ⟨hobeys, hsettled, n, hnodes⟩ := hss
  exact ⟨hobeys, hsettled, n, hnodes.mono keeps⟩

theorem Expr.Housed.mono {strict : Prop} {e : Expr} (he : e.Housed L h strict scope)
    (keeps : h.KeepsHomes h') : e.Housed L h' strict scope := by
  refine ⟨he.proper, fun id hid ↦ ?_⟩
  rcases he.nodes id hid with ⟨n, haddress, hhomes⟩ | hnone
  · exact .inl ⟨n, haddress, hhomes.mono keeps⟩
  · exact .inr hnone

theorem Value.housed_of_isData {v : Value} (hv : v.IsData) : v.Housed L h := by
  cases v with
  | nil => trivial
  | bool value => trivial
  | number value => trivial
  | string text => trivial
  | _ => exact hv.elim

end Mono

section Made

/-- All the subclasses of an ancestry are among those that are known. -/
def Class.Made (made : Layer → Class → Prop) (c : Class) : Prop :=
  ∀ own superclass, .derived own superclass ∈ c.ancestry → made own superclass

def Value.Made (made : Layer → Class → Prop) : Value → Prop
  | .cls c => c.Made made
  | .instance i => i.cls.Made made
  | _ => True

/-- So it is with all classes and instances that are held in scopes and fields. -/
structure Heap.Made (made : Layer → Class → Prop) (h : Heap) : Prop where
  bound : ∀ scope name value, h.get? scope name = some value → value.Made made
  fields : ∀ i name value, (h.fieldsOf i).get? name = some value → value.Made made

variable {L L' : Ledger} {h : Heap}

theorem Class.Housed.made {c : Class} (hc : c.Housed L h) : c.Made L.made :=
  fun _ superclass hmem ↦ (hc _ hmem).made superclass rfl

theorem Heap.Housed.made (hh : h.Housed L) : h.Made L.made := by
  have hvalue : ∀ v : Value, v.Housed L h → v.Made L.made := by
    intro v hv
    cases v with
    | cls c => exact Class.Housed.made hv
    | «instance» i => exact Class.Housed.made hv
    | _ => trivial
  exact ⟨fun scope name value hget ↦ hvalue value (hh.bound scope name value hget),
    fun i name value hget ↦ hvalue value (hh.fields i name value hget)⟩

variable (hdepths : DepthsKept L.addresses L'.addresses)
include hdepths

theorem Routine.Sound.rebook {routine : Routine Stmt} (hr : routine.Sound L) : routine.Sound L' :=
  ⟨hr.obeys, Stmt.SettledRoutine.mono hdepths routine hr.settled⟩

theorem Function.Housed.rebook {f : Function} (hf : f.Housed L h) : f.Housed L' h := by
  obtain ⟨hsound, n, hnodes⟩ := hf
  exact ⟨hsound.rebook hdepths, n, fun p hp ↦ ⟨hdepths _ _ (hnodes p hp).1, (hnodes p hp).2⟩⟩

theorem Class.Housed.rebook {c : Class} (hc : c.Housed L h) (hmade : c.Made L'.made) :
    c.Housed L' h := by
  intro d hd
  constructor
  · intro superclass hsuperclass
    cases d with
    | root own => cases hsuperclass
    | derived own _ =>
      cases hsuperclass
      exact hmade own superclass hd
  · intro name method hmethod
    obtain ⟨hsound, hrecorded, hsuper⟩ := (hc d hd).houses name method hmethod
    exact ⟨hsound.rebook hdepths, fun p hp ↦ (hrecorded p hp).mono hdepths, hsuper⟩

/-- What is housed is so with more depths, and with other classes if all those in the heap are among
them. -/
theorem Heap.Housed.rebook (hh : h.Housed L) (hmade : h.Made L'.made) : h.Housed L' := by
  have hvalue : ∀ v : Value, v.Housed L h → v.Made L'.made → v.Housed L' h := by
    intro v hv hv'
    cases v with
    | function f => exact Function.Housed.rebook hdepths hv
    | cls c => exact Class.Housed.rebook hdepths hv hv'
    | «instance» i => exact Class.Housed.rebook hdepths hv hv'
    | _ => trivial
  constructor
  · intro scope name value hget
    exact hvalue value (hh.bound scope name value hget) (hmade.bound scope name value hget)
  · intro i name value hget
    exact hvalue value (hh.fields i name value hget) (hmade.fields i name value hget)

end Made

namespace Heap.Housed

variable {L : Ledger} {h : Heap} (hh : h.Housed L)
include hh

theorem openScope (parent : Option ScopeRef) {bindings : Bindings Value}
    (hbindings : ∀ name value, bindings.get? name = some value → value.Housed L h) :
    (h.openScope parent bindings).2.Housed L := by
  have keeps := KeepsHomes.openScope h parent bindings
  refine ⟨fun scope name value hvalue ↦ ?_, fun i name value hvalue ↦ ?_⟩
  · rcases Heap.get?_of_openScope hvalue with hold | ⟨-, hnew⟩
    · exact (hh.bound scope name value hold).mono keeps
    · exact (hbindings name value hnew).mono keeps
  · exact (hh.fields i name value hvalue).mono keeps

theorem define (scope : ScopeRef) {name : String} (hname : ¬Reserved name) {value : Value}
    (hvalue : value.Housed L h) : (h.define scope name value).Housed L := by
  have keeps := KeepsHomes.define h scope hname value
  refine ⟨fun other key found hfound ↦ ?_, fun i key found hfound ↦ ?_⟩
  · rcases Heap.get?_of_define hfound with hold | ⟨-, -, rfl⟩
    · exact (hh.bound other key found hold).mono keeps
    · exact hvalue.mono keeps
  · exact (hh.fields i key found hfound).mono keeps

theorem instantiate (c : Class) : (h.instantiate c).2.Housed L := by
  have keeps := KeepsHomes.instantiate h c
  refine ⟨fun scope name value hvalue ↦ (hh.bound scope name value hvalue).mono keeps,
    fun i name value hvalue ↦ ?_⟩
  rw [Heap.fieldsOf_instantiate] at hvalue
  exact (hh.fields i name value hvalue).mono keeps

theorem setField {value : Value} (hvalue : value.Housed L h) (i : Instance) (name : String) :
    (h.setField i name value).Housed L := by
  have keeps := KeepsHomes.setField h i name value
  refine ⟨fun scope key found hfound ↦ (hh.bound scope key found hfound).mono keeps,
    fun j key found hfound ↦ ?_⟩
  rcases Heap.get?_of_setField hfound with hold | rfl
  · exact (hh.fields j key found hold).mono keeps
  · exact hvalue.mono keeps

theorem freshIdentity : h.freshIdentity.2.Housed L := by
  have keeps := KeepsHomes.freshIdentity h
  exact ⟨fun scope name value hvalue ↦ (hh.bound scope name value hvalue).mono keeps,
    fun i name value hvalue ↦ (hh.fields i name value hvalue).mono keeps⟩

end Heap.Housed

/-! ### Parts of what is housed -/

section Parts

variable {L : Ledger} {h : Heap} {scope : ScopeRef}

theorem NodesHoused.inner {n : Nat} {nodes : List (NodeId × Nat)}
    (hnodes : NodesHoused L h scope n nodes) {inner : ScopeRef}
    (hinner : h.parent? inner = some scope) : NodesHoused L h inner (n + 1) nodes :=
  fun p hp ↦ ⟨(hnodes p hp).1, (hnodes p hp).2.inner hinner⟩

theorem NodesHoused.append_iff {n : Nat} {nodes more : List (NodeId × Nat)} :
    NodesHoused L h scope n (nodes ++ more) ↔
      NodesHoused L h scope n nodes ∧ NodesHoused L h scope n more :=
  List.forall_mem_append

theorem NodesHoused.expression {n : Nat} {e : Expr} (he : e.Proper fun _ ↦ True)
    (hnodes : NodesHoused L h scope n (e.supers.map (·, n))) (strict : Prop) :
    e.Housed L h strict scope :=
  ⟨he, fun _ hid ↦ .inl ⟨n, hnodes _ (List.mem_map_of_mem hid)⟩⟩

theorem NodesHoused.expressionOption {n : Nat} {o : Option Expr}
    (ho : ∀ e, o = some e → e.Proper fun _ ↦ True)
    (hnodes : NodesHoused L h scope n (Expr.supersOption n o)) (strict : Prop) :
    ∀ e, o = some e → e.Housed L h strict scope := by
  rintro e rfl
  exact hnodes.expression (ho e rfl) strict

theorem Expr.Housed.child {strict : Prop} {e inner : Expr} (he : e.Housed L h strict scope)
    (hinner : inner ∈ e.children) : inner.Housed L h strict scope :=
  ⟨he.proper.of_child hinner, fun id hid ↦ he.nodes id (Expr.mem_supers_of_child hinner hid)⟩

theorem Stmt.HousedAll.cons {s : Stmt} {rest : List Stmt}
    (hss : Stmt.HousedAll L h scope (s :: rest)) :
    s.Housed L h scope ∧ Stmt.HousedAll L h scope rest := by
  obtain ⟨hobeys, hsettled, n, hnodes⟩ := hss
  rw [Stmt.ObeysAll] at hobeys
  rw [Stmt.SettledAll] at hsettled
  rw [Stmt.supersAll] at hnodes
  obtain ⟨hfirst, hlater⟩ := NodesHoused.append_iff.1 hnodes
  exact ⟨⟨hobeys.1, hsettled.1, n, hfirst⟩, hobeys.2, hsettled.2, n, hlater⟩

/-- The statements of a block belong in a scope inside that of the block. -/
theorem Stmt.Housed.block {body : List Stmt} (hs : (Stmt.block body).Housed L h scope)
    {inner : ScopeRef} (hinner : h.parent? inner = some scope) :
    Stmt.HousedAll L h inner body := by
  obtain ⟨hobeys, hsettled, n, hnodes⟩ := hs
  rw [Stmt.Obeys] at hobeys
  rw [Stmt.Settled] at hsettled
  rw [Stmt.supers] at hnodes
  exact ⟨hobeys, hsettled, n + 1, hnodes.inner hinner⟩

/-- The statements of a function belong in a scope inside its closure. -/
theorem Function.Housed.body {f : Function} (hf : f.Housed L h) {inner : ScopeRef}
    (hinner : h.parent? inner = some f.closure) : Stmt.HousedAll L h inner f.routine.body := by
  obtain ⟨⟨hobeys, hsettled⟩, n, hnodes⟩ := hf
  rw [Stmt.supersRoutine_eq] at hnodes
  exact ⟨(Stmt.obeysRoutine_iff.1 hobeys).2, Stmt.settledRoutine_iff.1 hsettled, n + 1,
    hnodes.inner hinner⟩

theorem Stmt.Housed.function {routine : Routine Stmt}
    (hs : (Stmt.function routine).Housed L h scope) {f : Function} (hroutine : f.routine = routine)
    (hclosure : f.closure = scope) : f.Housed L h := by
  obtain ⟨hobeys, hsettled, n, hnodes⟩ := hs
  rw [Stmt.Obeys] at hobeys
  rw [Stmt.Settled] at hsettled
  rw [Stmt.supers] at hnodes
  subst hroutine hclosure
  exact ⟨⟨hobeys.2, hsettled⟩, n, hnodes⟩

theorem Class.Housed.superclass {own : Layer} {superclass : Class}
    (hentered : (Class.derived own superclass).Entered L h) (hc : superclass.Housed L h) :
    (Class.derived own superclass).Housed L h :=
  List.forall_mem_cons.2 ⟨hentered, hc⟩

/-- The methods of a class declaration can be bound once they are made. -/
theorem Stmt.Housed.houses {name : Token} {superclass : Option Expr}
    {methods : List (Routine Stmt)} (hs : (Stmt.classDecl name superclass methods).Housed L h scope)
    {c : Class} (hsome : c.superclass?.isSome = superclass.isSome) {method : Function}
    (hmem : method.routine ∈ methods) {h' : Heap}
    (hsuper : ∀ superclass, c.superclass? = some superclass →
      h'.get? method.closure "super" = some (.cls superclass)) :
    c.Houses L h' method := by
  have hobeys := hs.obeys
  have hsettled := hs.settled
  rw [Stmt.Obeys] at hobeys
  rw [Stmt.Settled, ← hsome, Stmt.settledMethods_iff] at hsettled
  obtain ⟨hrecorded, hroutine⟩ := hsettled _ hmem
  exact ⟨⟨Stmt.obeysMethods_iff.1 hobeys.2.2 _ hmem, hroutine⟩, hrecorded, hsuper⟩

/-- A method of a class of the ancestry, once it is bound to an instance in a scope just inside its
closure. -/
theorem Class.Housed.bind {i : Instance} (hi : i.cls.Housed L h) {d : Class}
    (hd : d ∈ i.cls.ancestry) {name : String} {method f : Function}
    (hmethod : d.own.methods.get? name = some method) (hroutine : f.routine = method.routine)
    (hthis : h.get? f.closure "this" = some (.instance i))
    (hclosure : h.parent? f.closure = some method.closure) : f.Housed L h := by
  obtain ⟨hsound, hrecorded, hsuper⟩ := (hi d hd).houses name method hmethod
  refine ⟨hroutine ▸ hsound, 0, fun p hp ↦ ?_⟩
  rw [hroutine] at hp
  obtain ⟨hinherits, hdepth⟩ := hrecorded p hp
  -- Only the methods of subclasses have nodes of `super`.
  cases d with
  | root own => cases hinherits
  | derived own superclass =>
    exact ⟨hdepth, f.closure, i, own, superclass, method, rfl,
      ⟨hthis, hclosure, hsuper superclass rfl, hd, name, hmethod⟩, hp⟩

end Parts

end Lox
