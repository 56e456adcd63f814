import Lox.Machine.Basic
import Lox.Proofs.Bindings
import Lox.Proofs.Resolution.Readiness

/-!
# Scopes of the heap mirror scopes of the walk

A chain of scopes in the heap mirrors the scopes around a node if there is one for each, followed by
the global one, and each holds the names that are ready.  Heaps only grow, so what mirrors once
mirrors for ever.  A sound heap holds functions only whose closures mirror the scopes around their
declarations.
-/

namespace Lox

namespace Heap

/-- Every scope keeps its place and its names. -/
structure Extends (h h' : Heap) : Prop where
  parent? : ∀ scope, scope < h.scopes.size → h'.parent? scope = h.parent? scope
  size_le : h.scopes.size ≤ h'.scopes.size
  holds : ∀ scope name, h.holds scope name = true → h'.holds scope name = true

theorem Extends.refl (h : Heap) : h.Extends h :=
  ⟨fun _ _ ↦ rfl, Nat.le_refl _, fun _ _ hname ↦ hname⟩

theorem Extends.trans {h h' h'' : Heap} (first : h.Extends h') (second : h'.Extends h'') :
    h.Extends h'' where
  parent? scope hscope := by
    calc h''.parent? scope
      _ = h'.parent? scope := second.parent? scope (Nat.lt_of_lt_of_le hscope first.size_le)
      _ = h.parent? scope := first.parent? scope hscope
  size_le := Nat.le_trans first.size_le second.size_le
  holds scope name hname := second.holds scope name (first.holds scope name hname)

theorem lt_size_of_parent? {h : Heap} {scope parent : ScopeRef}
    (hp : h.parent? scope = some parent) : scope < h.scopes.size := by
  refine Nat.lt_of_not_le fun hge ↦ ?_
  rw [Heap.parent?, Array.getElem?_eq_none hge] at hp
  cases hp

theorem lt_size_of_get? {h : Heap} {scope : ScopeRef} {name : String} {value : Value}
    (hv : h.get? scope name = some value) : scope < h.scopes.size := by
  refine Nat.lt_of_not_le fun hge ↦ ?_
  rw [Heap.get?, Array.getElem?_eq_none hge] at hv
  cases hv

theorem holds_iff {h : Heap} {scope : ScopeRef} {name : String} :
    h.holds scope name = true ↔ ∃ value, h.get? scope name = some value := by
  rw [Heap.holds, Option.isSome_iff_exists]

theorem lt_size_of_holds {h : Heap} {scope : ScopeRef} {name : String}
    (hname : h.holds scope name = true) : scope < h.scopes.size := by
  obtain ⟨value, hvalue⟩ := holds_iff.1 hname
  exact lt_size_of_get? hvalue

section Operations

variable (h : Heap) (parent : Option ScopeRef) (bindings : Bindings Value)

theorem get?_openScope_self (name : String) :
    (h.openScope parent bindings).2.get? h.scopes.size name = bindings.get? name := by
  simp [Heap.openScope, Heap.get?]

theorem parent?_openScope_self :
    (h.openScope parent bindings).2.parent? h.scopes.size = parent := by
  simp [Heap.openScope, Heap.parent?]

theorem getElem?_openScope {scope : ScopeRef} (hscope : scope < h.scopes.size) :
    (h.openScope parent bindings).2.scopes[scope]? = h.scopes[scope]? := by
  calc (h.openScope parent bindings).2.scopes[scope]?
    _ = some h.scopes[scope] := Array.getElem?_push_lt hscope
    _ = h.scopes[scope]? := (Array.getElem?_eq_getElem hscope).symm

theorem extends_openScope : h.Extends (h.openScope parent bindings).2 where
  parent? scope hscope := by rw [Heap.parent?, getElem?_openScope h _ _ hscope, Heap.parent?]
  size_le := by simp [Heap.openScope]
  holds scope name hname := by
    rw [Heap.holds, Heap.get?, getElem?_openScope h _ _ (lt_size_of_holds hname)]
    exact hname

theorem extends_define (scope : ScopeRef) (name : String) (value : Value) :
    h.Extends (h.define scope name value) where
  parent? other _ := parent?_define ..
  size_le := by simp [Heap.define]
  holds other key hkey := by
    by_cases heq : other = scope
    · subst heq
      rw [Heap.holds, get?_define h (lt_size_of_holds hkey)]
      split
      · rfl
      · exact hkey
    · rw [Heap.holds, get?_define_of_ne h heq]
      exact hkey

theorem holds_define {scope : ScopeRef} (hscope : scope < h.scopes.size) (name : String)
    (value : Value) : (h.define scope name value).holds scope name = true := by
  rw [Heap.holds, get?_define h hscope, if_pos rfl]
  rfl

theorem extends_setField (i : Instance) (name : String) (value : Value) :
    h.Extends (h.setField i name value) :=
  ⟨fun _ _ ↦ rfl, Nat.le_refl _, fun _ _ hname ↦ hname⟩

theorem extends_instantiate (c : Class) : h.Extends (h.instantiate c).2 :=
  ⟨fun _ _ ↦ rfl, Nat.le_refl _, fun _ _ hname ↦ hname⟩

theorem extends_freshIdentity : h.Extends h.freshIdentity.2 :=
  ⟨fun _ _ ↦ rfl, Nat.le_refl _, fun _ _ hname ↦ hname⟩

end Operations

section Origins

variable {h : Heap}

theorem get?_of_openScope {parent : Option ScopeRef} {bindings : Bindings Value} {scope : ScopeRef}
    {name : String} {value : Value}
    (hvalue : (h.openScope parent bindings).2.get? scope name = some value) :
    h.get? scope name = some value ∨
      scope = h.scopes.size ∧ bindings.get? name = some value := by
  have hlt := lt_size_of_get? hvalue
  rcases Nat.lt_or_ge scope h.scopes.size with hscope | hscope
  · rw [Heap.get?, getElem?_openScope h _ _ hscope] at hvalue
    exact .inl hvalue
  · have heq : scope = h.scopes.size := by
      simp only [Heap.openScope, Array.size_push] at hlt
      exact Nat.le_antisymm (Nat.le_of_lt_succ hlt) hscope
    rw [heq, get?_openScope_self] at hvalue
    exact .inr ⟨heq, hvalue⟩

theorem get?_of_define {scope other : ScopeRef} {name key : String} {value found : Value}
    (hfound : (h.define scope name value).get? other key = some found) :
    h.get? other key = some found ∨ other = scope ∧ key = name ∧ found = value := by
  by_cases heq : other = scope
  · subst heq
    have hlt : other < h.scopes.size := by simpa [Heap.define] using lt_size_of_get? hfound
    rw [get?_define h hlt] at hfound
    split at hfound
    · rename_i hkey
      cases hfound
      exact .inr ⟨rfl, hkey, rfl⟩
    · exact .inl hfound
  · rw [get?_define_of_ne h heq] at hfound
    exact .inl hfound

/-- An instance starts without fields, as if it had not been made. -/
theorem fieldsOf_instantiate (c : Class) (i : Instance) :
    (h.instantiate c).2.fieldsOf i = h.fieldsOf i := by
  simp only [fieldsOf, instantiate, Array.getD_eq_getD_getElem?, Array.getElem?_push]
  split
  · rename_i heq
    rw [heq, Array.getElem?_eq_none (Nat.le_refl _)]
    rfl
  · rfl

theorem get?_of_setField {i j : Instance} {name key : String} {value found : Value}
    (hfound : ((h.setField i name value).fieldsOf j).get? key = some found) :
    (h.fieldsOf j).get? key = some found ∨ found = value := by
  simp only [fieldsOf, setField, Array.getD_eq_getD_getElem?, Array.getElem?_modify] at hfound ⊢
  split at hfound
  · cases hfields : h.fields[j.ref]? with
    | none =>
      rw [hfields] at hfound
      cases hfound
    | some bindings =>
      rw [hfields, Option.map_some, Option.getD_some, Bindings.get?_set] at hfound
      split at hfound
      · cases hfound
        exact .inr rfl
      · exact .inl hfound
  · exact .inl hfound

/-- A machine that has run nothing holds builtin functions and nothing else. -/
theorem exists_builtin_of_get?_start {host : Host} {scope : ScopeRef} {name : String}
    {value : Value}
    (hvalue : (Machine.start host).heap.get? scope name = some value) :
    ∃ b : Builtin, name = b.name ∧ value = .builtin b := by
  -- There is no scope but the global one.
  have hscope : scope = 0 := Nat.lt_one_iff.1 (lt_size_of_get? hvalue)
  subst hscope
  obtain ⟨b, -, hb⟩ := List.mem_map.1 (Bindings.mem_of_get?_ofList hvalue)
  cases hb
  exact ⟨b, rfl, rfl⟩

end Origins

/-! ### Mirroring -/

/-- A chain of scopes mirrors the scopes around a node: there is a scope for each, holding the names
that are ready, and behind them the global scope. -/
def Mirrors (h : Heap) : ScopeRef → Scopes → Prop
  | scope, [] => scope = Machine.globals ∧ scope < h.scopes.size ∧ h.parent? scope = none
  | scope, inner :: outer =>
    (∀ name, inner.get? name = some true → h.holds scope name = true) ∧
      ∃ parent, h.parent? scope = some parent ∧ h.Mirrors parent outer

namespace Mirrors

variable {h h' : Heap} {scope : ScopeRef} {scopes : Scopes}

theorem lt_size (hm : h.Mirrors scope scopes) : scope < h.scopes.size := by
  cases scopes with
  | nil => exact hm.2.1
  | cons inner outer =>
    obtain ⟨-, parent, hparent, -⟩ := hm
    exact lt_size_of_parent? hparent

theorem mono (hm : h.Mirrors scope scopes) (hext : h.Extends h') : h'.Mirrors scope scopes := by
  induction scopes generalizing scope with
  | nil =>
    obtain ⟨hscope, hlt, hparent⟩ := hm
    exact ⟨hscope, Nat.lt_of_lt_of_le hlt hext.size_le, (hext.parent? scope hlt).trans hparent⟩
  | cons inner outer ih =>
    obtain ⟨hnames, parent, hparent, houter⟩ := hm
    refine ⟨fun name hname ↦ hext.holds scope name (hnames name hname), parent, ?_, ih houter⟩
    rw [hext.parent? scope (lt_size_of_parent? hparent), hparent]

/-- The scope where a ready name is found lies at its depth and holds it. -/
theorem ancestor (hm : h.Mirrors scope scopes) {depth : Nat} {name : String}
    (hready : scopes.ReadyAt depth name) :
    ∃ target, h.ancestor? scope depth = some target ∧ h.holds target name = true := by
  induction depth generalizing scope scopes with
  | zero =>
    obtain ⟨inner, hinner, hname⟩ := hready
    cases scopes with
    | nil => cases hinner
    | cons first outer =>
      cases hinner
      exact ⟨scope, rfl, hm.1 name hname⟩
  | succ depth ih =>
    obtain ⟨inner, hinner, hname⟩ := hready
    cases scopes with
    | nil => cases hinner
    | cons first outer =>
      obtain ⟨-, parent, hparent, houter⟩ := hm
      obtain ⟨target, htarget, hholds⟩ := ih houter ⟨inner, hinner, hname⟩
      exact ⟨target, by rw [Heap.ancestor?, hparent]; exact htarget, hholds⟩

/-- A name that is entered without being ready asks for nothing. -/
theorem enter_pending (hm : h.Mirrors scope scopes) (name : String) :
    h.Mirrors scope (scopes.enter name false) := by
  cases scopes with
  | nil => exact hm
  | cons inner outer =>
    refine ⟨fun other hother ↦ hm.1 other ?_, hm.2⟩
    rw [Bindings.get?_set] at hother
    split at hother
    · cases hother
    · exact hother

theorem define (hm : h.Mirrors scope scopes) (name : String) (value : Value) :
    (h.define scope name value).Mirrors scope (scopes.enter name true) := by
  have hext := extends_define h scope name value
  have hmono := hm.mono hext
  cases scopes with
  | nil => exact hmono
  | cons inner outer =>
    refine ⟨fun other hother ↦ ?_, hmono.2⟩
    rw [Bindings.get?_set] at hother
    split at hother
    · rename_i heq
      rw [heq]
      exact holds_define h hm.lt_size name value
    · exact hmono.1 other hother

/-- A new scope inside a mirroring one mirrors the scopes with one more that holds its names. -/
theorem openScope (hm : h.Mirrors scope scopes) {bindings : Bindings Value}
    {inner : Bindings Bool}
    (hnames : ∀ name, inner.get? name = some true → (bindings.get? name).isSome = true) :
    (h.openScope (some scope) bindings).2.Mirrors h.scopes.size (inner :: scopes) := by
  refine ⟨fun name hname ↦ ?_, scope, parent?_openScope_self .., ?_⟩
  · rw [Heap.holds, get?_openScope_self]
    exact hnames name hname
  · exact hm.mono (extends_openScope ..)

/-- The scope of a call mirrors the scope of the parameters. -/
theorem openScope_params (hm : h.Mirrors scope scopes) {params : List Token}
    {arguments : List Value} (hlength : arguments.length = params.length) :
    (h.openScope (some scope) (.ofList ((params.map Token.lexeme).zip arguments))).2.Mirrors
      h.scopes.size (scopes.insideRoutine params) := by
  obtain ⟨inner, hinner, hnames⟩ := Scopes.insideRoutine_eq scopes params
  rw [hinner]
  refine hm.openScope fun name hname ↦ Bindings.isSome_get?_ofList ?_
  rw [List.map_fst_zip (by simp [hlength])]
  exact hnames name hname

end Mirrors

end Heap

/-! ### Sound values -/

/-- A routine whose sites are as they should be, in some scopes. -/
def Routine.Placed (P : Site → Prop) (scopes : Scopes) (routine : Routine Stmt) : Prop :=
  (∀ site ∈ Stmt.sitesRoutine scopes routine, P site) ∧ Stmt.OrderlyRoutine routine

/-- A function whose closure mirrors the scopes around its routine. -/
def Function.Sound (P : Site → Prop) (h : Heap) (f : Function) : Prop :=
  ∃ scopes, h.Mirrors f.closure scopes ∧ f.routine.Placed P scopes

/-- A method that is to be bound to an instance in a scope of its own. -/
def Function.SoundMethod (P : Site → Prop) (h : Heap) (f : Function) : Prop :=
  ∃ scopes, h.Mirrors f.closure scopes ∧ f.routine.Placed P (scopes.openWith "this")

def Class.Sound (P : Site → Prop) (h : Heap) (c : Class) : Prop :=
  ∀ layer ∈ c.lineage, ∀ name f, layer.methods.get? name = some f → f.SoundMethod P h

def Value.Sound (P : Site → Prop) (h : Heap) : Value → Prop
  | .function f => f.Sound P h
  | .cls c => c.Sound P h
  | .instance i => i.cls.Sound P h
  | _ => True

structure Heap.Sound (P : Site → Prop) (h : Heap) : Prop where
  bound : ∀ scope name value, h.get? scope name = some value → value.Sound P h
  fields : ∀ i name value, (h.fieldsOf i).get? name = some value → value.Sound P h

section Sound

variable {P : Site → Prop} {h h' : Heap}

theorem Function.SoundMethod.mono {f : Function} (hf : f.SoundMethod P h) (hext : h.Extends h') :
    f.SoundMethod P h' := by
  obtain ⟨scopes, hm, hplaced⟩ := hf
  exact ⟨scopes, hm.mono hext, hplaced⟩

theorem Class.Sound.mono {c : Class} (hc : c.Sound P h) (hext : h.Extends h') : c.Sound P h' :=
  fun layer hlayer name f hf ↦ (hc layer hlayer name f hf).mono hext

theorem Value.Sound.mono {v : Value} (hv : v.Sound P h) (hext : h.Extends h') : v.Sound P h' := by
  cases v with
  | function f =>
    obtain ⟨scopes, hm, hplaced⟩ := hv
    exact ⟨scopes, hm.mono hext, hplaced⟩
  | cls c => exact Class.Sound.mono hv hext
  | «instance» i => exact Class.Sound.mono hv hext
  | _ => trivial

theorem Class.Sound.findMethod? {c : Class} (hc : c.Sound P h) {name : String} {f : Function}
    (hf : c.findMethod? name = some f) : f.SoundMethod P h := by
  obtain ⟨layer, hlayer, hget⟩ := List.exists_of_findSome?_eq_some hf
  exact hc layer hlayer name f hget

theorem Heap.Sound.openScope (hs : h.Sound P) (parent : Option ScopeRef)
    {bindings : Bindings Value}
    (hbindings : ∀ name value, bindings.get? name = some value → value.Sound P h) :
    (h.openScope parent bindings).2.Sound P where
  bound scope name value hvalue := by
    have hext := Heap.extends_openScope h parent bindings
    rcases Heap.get?_of_openScope hvalue with hold | ⟨-, hnew⟩
    · exact (hs.bound scope name value hold).mono hext
    · exact (hbindings name value hnew).mono hext
  fields i name value hvalue :=
    (hs.fields i name value hvalue).mono (Heap.extends_openScope h parent bindings)

/-- A value that is bound may be sound only once it is bound: a function may refer to its own
name. -/
theorem Heap.Sound.define (hs : h.Sound P) {scope : ScopeRef} {name : String} {value : Value}
    (hvalue : value.Sound P (h.define scope name value)) :
    (h.define scope name value).Sound P where
  bound other key found hfound := by
    rcases Heap.get?_of_define hfound with hold | ⟨-, -, rfl⟩
    · exact (hs.bound other key found hold).mono (Heap.extends_define h scope name value)
    · exact hvalue
  fields i key found hfound :=
    (hs.fields i key found hfound).mono (Heap.extends_define h scope name value)

theorem Heap.Sound.instantiate (hs : h.Sound P) (c : Class) : (h.instantiate c).2.Sound P where
  bound scope name value hvalue :=
    (hs.bound scope name value hvalue).mono (Heap.extends_instantiate h c)
  fields i name value hvalue := by
    rw [Heap.fieldsOf_instantiate] at hvalue
    exact (hs.fields i name value hvalue).mono (Heap.extends_instantiate h c)

theorem Heap.Sound.setField (hs : h.Sound P) {value : Value} (hvalue : value.Sound P h)
    (i : Instance) (name : String) : (h.setField i name value).Sound P where
  bound scope key found hfound :=
    (hs.bound scope key found hfound).mono (Heap.extends_setField h i name value)
  fields j key found hfound := by
    have hext := Heap.extends_setField h i name value
    rcases Heap.get?_of_setField hfound with hold | rfl
    · exact (hs.fields j key found hold).mono hext
    · exact hvalue.mono hext

theorem Heap.Sound.freshIdentity (hs : h.Sound P) : h.freshIdentity.2.Sound P where
  bound scope name value hvalue :=
    (hs.bound scope name value hvalue).mono (Heap.extends_freshIdentity h)
  fields i name value hvalue :=
    (hs.fields i name value hvalue).mono (Heap.extends_freshIdentity h)

end Sound

end Lox
