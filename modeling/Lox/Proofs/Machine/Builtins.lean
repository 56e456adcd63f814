import Lox.Machine.Builtins
import Lox.Proofs.Computation
import Lox.Proofs.Machine.Operators

/-!
# What builtin functions do

A call of a builtin function gives data, or else there is a fault on its line.  All that it does, it
does to the host: it writes to no stream, and none but `readline` takes any input
(`Builtin.answers`).
-/

namespace Lox

open Lox.Computation (Moves Yields)

/-- Faults that any program may run into.  What is left out depends on how trees are built and on
what names are bound to. -/
def RuntimeFault.Ordinary : RuntimeFault → Prop
  | invalidUnary => False
  | invalidBinary => False
  | undefinedVariable _ => False
  | superclassNotClass => False
  | _ => True

namespace Builtin

/-- What a builtin function does to the world. -/
structure Consults (b : Builtin) (h h' : Host) : Prop where
  out : h'.out = h.out
  err : h'.err = h.err
  log : h'.log = h.log
  input : b ≠ .readline → h'.input = h.input

theorem consults_refl (b : Builtin) (h : Host) : b.Consults h h :=
  ⟨rfl, rfl, rfl, fun _ ↦ rfl⟩

theorem consults_readLine (h : Host) : Builtin.readline.Consults h h.readLine.2 := by
  unfold Host.readLine
  split
  · exact ⟨rfl, rfl, rfl, fun _ ↦ rfl⟩
  · exact ⟨rfl, rfl, rfl, fun hne ↦ absurd rfl hne⟩

/-- How a call of a builtin function ends. -/
inductive Answers (b : Builtin) (line : Nat) (m : Machine) :
    EStateM.Result Halt Machine Value → Prop
  | ok {value : Value} {host : Host} (hvalue : value.IsData) (hhost : b.Consults m.host host) :
      Answers b line m (.ok value { m with host })
  | fault {cause : RuntimeFault} {host : Host} (hcause : cause.Ordinary)
      (hhost : b.Consults m.host host) :
      Answers b line m (.error (.fault line cause) { m with host })

variable (line : Nat) (arguments : List Value) (m : Machine)

theorem answers_readLine : Builtin.readline.Answers line m (Run.readLine line m) := by
  have hread : Run.onHost (·.readLine) m =
      .ok m.host.readLine.1 { m with host := m.host.readLine.2 } := rfl
  have hhost := consults_readLine m.host
  rw [Run.readLine, Computation.bind_of_ok hread]
  cases m.host.readLine.1 with
  | none => exact .ok trivial hhost
  | some bytes =>
    dsimp only
    cases Utf8.decode bytes with
    | ok text => exact .ok trivial hhost
    | error malformed => exact .fault trivial hhost

theorem answers_readFile : Builtin.read.Answers line m (Run.readFile line arguments m) := by
  have hhost := consults_refl .read m.host
  rw [Run.readFile.eq_def]
  split
  · rename_i path _
    rw [Computation.get_bind]
    cases Run.fileText m.host.files path with
    | ok text => exact .ok trivial hhost
    | error e => exact .fault trivial hhost
  · exact .fault trivial hhost

theorem answers_changeFile (b : Builtin) (change : List UInt8 → List UInt8 → List UInt8) :
    b.Answers line m (Run.changeFile line b change arguments m) := by
  have hhost := consults_refl b m.host
  rw [Run.changeFile.eq_def]
  split
  · rename_i path content _
    rw [Computation.get_bind]
    cases m.host.files.update path (change (Utf8.encode content)) with
    | ok files => exact .ok trivial ⟨rfl, rfl, rfl, fun _ ↦ rfl⟩
    | error e => exact .fault trivial hhost
  · exact .fault trivial hhost
  · exact .fault trivial hhost

theorem answers (b : Builtin) : b.Answers line m (Run.callBuiltin b line arguments m) := by
  cases b with
  | clock => exact .ok trivial ⟨rfl, rfl, rfl, fun _ ↦ rfl⟩
  | readline => exact answers_readLine line m
  | read => exact answers_readFile line arguments m
  | write => exact answers_changeFile line arguments m .write fun new _ ↦ new
  | append => exact answers_changeFile line arguments m .append fun new old ↦ old ++ new

end Builtin

namespace Run

theorem moves_callBuiltin {R : Machine → Machine → Prop} (b : Builtin) (line : Nat)
    (arguments : List Value) (h : ∀ m host, b.Consults m.host host → R m { m with host }) :
    Moves R (callBuiltin b line arguments) := by
  intro m
  have hends := Builtin.answers line arguments m b
  generalize callBuiltin b line arguments m = r at hends ⊢
  cases hends with
  | ok hvalue hhost => exact h m _ hhost
  | fault hcause hhost => exact h m _ hhost

theorem yields_callBuiltin (b : Builtin) (line : Nat) (arguments : List Value) :
    Yields Value.IsData (callBuiltin b line arguments) := by
  intro m value m' h
  have hends := Builtin.answers line arguments m b
  rw [h] at hends
  cases hends with
  | ok hvalue hhost => exact hvalue

end Run

end Lox
