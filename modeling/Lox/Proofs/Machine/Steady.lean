import Lox.Machine.Evaluation
import Lox.Proofs.Machine.Builtins

/-!
# What most operations leave alone

Between the expressions and statements of a program a machine opens scopes, makes functions and
instances, prints and reads files.  All this only adds scopes to the heap, and leaves the input as
it was.  Names are given values, and lines are read, by few operations, of which nothing is said
here.
-/

namespace Lox

open Lox.Computation (Moves)

/-- A relation of machines before and behind, which holds if scopes have only been added and if only
the host has changed, but not its input. -/
structure Machine.Steady (R : Machine → Machine → Prop) : Prop where
  refl : ∀ m, R m m
  trans : ∀ {m m' m''}, R m m' → R m' m'' → R m m''
  heap : ∀ {m : Machine} {heap : Heap}, m.heap.scopes.toList <+: heap.scopes.toList →
    R m { m with heap }
  host : ∀ {m : Machine} {host : Host}, host.input = m.host.input → R m { m with host }

theorem Host.input_write (h : Host) (channel : Channel) (text : String) :
    (h.write channel text).2.input = h.input := by
  cases channel <;> simp only [write, setSink, sink] <;> split <;> rfl

theorem Host.input_flush (h : Host) (channel : Channel) : (h.flush channel).2.input = h.input := by
  cases channel <;> simp only [flush, setSink, sink] <;> split <;> rfl

namespace Machine.Steady

variable {α β : Type} {R : Machine → Machine → Prop} (hR : Steady R)
include hR

theorem pure (a : α) : Moves R (Pure.pure a : Run α) :=
  Moves.pure hR.refl a

theorem fault (line : Nat) (cause : RuntimeFault) : Moves R (Run.fault line cause : Run α) :=
  Moves.throw hR.refl _

theorem bind {x : Run α} {f : α → Run β} (hx : Moves R x) (hf : ∀ a, Moves R (f a)) :
    Moves R (x >>= f) :=
  Moves.bind hR.trans hx hf

theorem onHeap {change : Heap → α × Heap}
    (h : ∀ heap, heap.scopes.toList <+: (change heap).2.scopes.toList) :
    Moves R (Run.onHeap change) :=
  fun m ↦ hR.heap (h m.heap)

theorem onHost {change : Host → α × Host} (h : ∀ host, (change host).2.input = host.input) :
    Moves R (Run.onHost change) :=
  fun m ↦ hR.host (h m.host)

theorem printLine (text : String) : Moves R (Run.printLine text) := by
  refine hR.bind (hR.onHost fun host ↦ host.input_write .out _) fun result ↦ ?_
  cases result with
  | ok _ => exact hR.pure _
  | error failure => exact Moves.throw hR.refl _

theorem flush : Moves R Run.flush := by
  refine hR.bind (hR.onHost fun host ↦ host.input_flush .out) fun result ↦ ?_
  cases result with
  | ok _ => exact hR.pure _
  | error failure => exact Moves.throw hR.refl _

theorem valueIn (scope : Option ScopeRef) (name : String) (line : Nat) :
    Moves R (Run.valueIn scope name line) := by
  refine Moves.get fun m ↦ ?_
  split
  · exact hR.pure _
  · exact hR.fault _ _

theorem lookUp (id : NodeId) (name : Token) : Moves R (Run.lookUp id name) :=
  Moves.get fun _ ↦ hR.valueIn _ _ _

theorem openScope (parent : ScopeRef) (bindings : Bindings Value) :
    Moves R (Run.openScope parent bindings) := by
  apply hR.onHeap
  intro heap
  rw [Heap.openScope, Array.toList_push]
  exact List.prefix_append _ _

theorem newFunction (routine : Routine Stmt) (closure : ScopeRef) (isInitializer : Bool) :
    Moves R (Run.newFunction routine closure isInitializer) :=
  hR.bind (hR.onHeap fun _ ↦ List.prefix_rfl) fun _ ↦ hR.pure _

theorem bindMethod (method : Function) (i : Instance) : Moves R (Run.bindMethod method i) :=
  hR.bind (hR.openScope _ _) fun _ ↦ hR.newFunction _ _ _

theorem instantiate (c : Class) : Moves R (Run.onHeap (·.instantiate c)) :=
  hR.onHeap fun _ ↦ List.prefix_rfl

theorem setField (i : Instance) (name : String) (value : Value) :
    Moves R (modify fun m ↦ { m with heap := m.heap.setField i name value } : Run Unit) :=
  fun _ ↦ hR.heap List.prefix_rfl

theorem property (i : Instance) (name : Token) : Moves R (Run.property i name) := by
  refine Moves.get fun m ↦ ?_
  split
  · exact hR.pure _
  · split
    · exact hR.bind (hR.bindMethod _ _) fun _ ↦ hR.pure _
    · exact hR.fault _ _

theorem superMethod (id : NodeId) (keyword method : Token) :
    Moves R (Run.superMethod id keyword method) := by
  refine Moves.get fun m ↦ ?_
  split
  · exact hR.fault _ _
  · refine hR.bind (hR.valueIn _ _ _) fun superclass ↦ hR.bind (hR.valueIn _ _ _) fun object ↦ ?_
    split
    · split
      · exact hR.bind (hR.bindMethod _ _) fun _ ↦ hR.pure _
      · exact hR.fault _ _
    · exact hR.fault _ _

theorem methodsOf (closure : ScopeRef) (methods : List (Routine Stmt)) :
    Moves R (Run.methodsOf closure methods) := by
  induction methods with
  | nil => exact hR.pure _
  | cons method rest ih =>
    exact hR.bind (hR.newFunction _ _ _) fun _ ↦ hR.bind ih fun _ ↦ hR.pure _

theorem ofExcept (line : Nat) (result : Except RuntimeFault Value) :
    Moves R (Run.ofExcept line result) := by
  cases result with
  | ok value => exact hR.pure value
  | error cause => exact hR.fault line cause

/-- Only `readline` reads a line. -/
theorem callBuiltin {b : Builtin} (hb : b ≠ .readline) (line : Nat) (arguments : List Value) :
    Moves R (Run.callBuiltin b line arguments) :=
  Run.moves_callBuiltin b line arguments fun _ _ hhost ↦ hR.host (hhost.input hb)

end Machine.Steady

end Lox
