import Lox.Value

/-!
# The heap

Scopes, each with the scope around it, and the fields of instances.  Scopes are only ever added, and
a variable is read and assigned in exactly the scope that is asked for: how far out that scope lies
has been decided before the program runs.
-/

namespace Lox

structure Scope where
  bindings : Bindings Value := {}
  parent : Option ScopeRef := none
deriving Inhabited

/-- Scopes and fields by reference, and the next identity for a function or class. -/
structure Heap where
  scopes : Array Scope := #[]
  fields : Array (Bindings Value) := #[]
  nextIdentity : Nat := 0
deriving Inhabited

namespace Heap

/-- Open a scope with some bindings inside another one. -/
def openScope (h : Heap) (parent : Option ScopeRef) (bindings : Bindings Value) :
    ScopeRef × Heap :=
  (h.scopes.size, { h with scopes := h.scopes.push ⟨bindings, parent⟩ })

def parent? (h : Heap) (scope : ScopeRef) : Option ScopeRef :=
  h.scopes[scope]?.bind Scope.parent

/-- The scope a number of steps further out. -/
def ancestor? (h : Heap) (scope : ScopeRef) : (distance : Nat) → Option ScopeRef
  | 0 => some scope
  | distance + 1 =>
    match h.parent? scope with
    | some outer => h.ancestor? outer distance
    | none => none

/-- The value of a name in a scope, without looking further out. -/
def get? (h : Heap) (scope : ScopeRef) (name : String) : Option Value :=
  h.scopes[scope]?.bind (·.bindings.get? name)

/-- Bind a name in a scope, whether it is bound there already or not. -/
def define (h : Heap) (scope : ScopeRef) (name : String) (value : Value) : Heap :=
  { h with scopes :=
    h.scopes.modify scope fun s ↦ { s with bindings := s.bindings.set name value } }

theorem get?_define (h : Heap) {scope : ScopeRef} (hs : scope < h.scopes.size) (name : String)
    (value : Value) (other : String) :
    (h.define scope name value).get? scope other =
      if other = name then some value else h.get? scope other := by
  simp only [get?, define, Array.getElem?_modify, if_true, Array.getElem?_eq_getElem hs]
  exact Bindings.get?_set ..

theorem get?_define_of_ne (h : Heap) {scope elsewhere : ScopeRef} (hne : elsewhere ≠ scope)
    (name : String) (value : Value) (other : String) :
    (h.define scope name value).get? elsewhere other = h.get? elsewhere other := by
  simp [get?, define, Array.getElem?_modify, hne.symm]

@[simp] theorem parent?_define (h : Heap) (scope elsewhere : ScopeRef) (name : String)
    (value : Value) : (h.define scope name value).parent? elsewhere = h.parent? elsewhere := by
  simp only [parent?, define, Array.getElem?_modify]
  split
  · cases h.scopes[elsewhere]? <;> rfl
  · rfl

/-- Whether a scope holds a name. -/
def holds (h : Heap) (scope : ScopeRef) (name : String) : Bool :=
  (h.get? scope name).isSome

/-- Give a name that a scope holds another value. -/
@[inline] def assign? (h : Heap) (scope : ScopeRef) (name : String) (value : Value) : Option Heap :=
  if h.holds scope name then some (h.define scope name value) else none

/-- The value of a name in the scope at a distance. -/
def getAt? (h : Heap) (scope : ScopeRef) (distance : Nat) (name : String) : Option Value :=
  (h.ancestor? scope distance).bind (h.get? · name)

/-- Give a name in the scope at a distance another value. -/
@[inline] def assignAt? (h : Heap) (scope : ScopeRef) (distance : Nat) (name : String)
    (value : Value) : Option Heap :=
  (h.ancestor? scope distance).bind (h.assign? · name value)

/-- A new instance of a class, without fields. -/
def instantiate (h : Heap) (c : Class) : Instance × Heap :=
  (⟨h.fields.size, c⟩, { h with fields := h.fields.push {} })

def fieldsOf (h : Heap) (i : Instance) : Bindings Value :=
  h.fields.getD i.ref {}

def setField (h : Heap) (i : Instance) (name : String) (value : Value) : Heap :=
  { h with fields := h.fields.modify i.ref (·.set name value) }

/-- An identity that no function or class has had before. -/
def freshIdentity (h : Heap) : Nat × Heap :=
  (h.nextIdentity, { h with nextIdentity := h.nextIdentity + 1 })

end Heap

end Lox
