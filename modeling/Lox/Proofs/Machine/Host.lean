import Lox.Machine.Evaluation
import Lox.Proofs.Machine.Builtins

/-!
# Computations on the host

To print, to read and to ask for the time changes nothing in a machine but its host, and so does
whatever a builtin function does.
-/

namespace Lox

open Lox.Computation (EndsIn Moves)

/-- Whatever a computation does, it does to the host. -/
def Run.HostOnly {α : Type} (x : Run α) : Prop :=
  Moves (fun m m' ↦ ∃ host, m' = { m with host }) x

namespace Run.HostOnly

variable {α β : Type}

theorem pure (a : α) : HostOnly (Pure.pure a : Run α) :=
  fun m ↦ ⟨m.host, rfl⟩

theorem throw (halt : Halt) : HostOnly (MonadExcept.throw halt : Run α) :=
  fun m ↦ ⟨m.host, rfl⟩

theorem onHost (change : Host → α × Host) : HostOnly (Run.onHost change) :=
  fun m ↦ ⟨(change m.host).2, rfl⟩

theorem bind {x : Run α} {f : α → Run β} (hx : HostOnly x) (hf : ∀ a, HostOnly (f a)) :
    HostOnly (x >>= f) := by
  refine Moves.bind ?_ hx hf
  rintro m m' m'' ⟨host, rfl⟩ ⟨host', rfl⟩
  exact ⟨host', rfl⟩

theorem printLine (text : String) : HostOnly (Run.printLine text) := by
  refine (onHost _).bind fun result ↦ ?_
  cases result with
  | ok _ => exact pure ()
  | error failure => exact throw _

theorem flush : HostOnly Run.flush := by
  refine (onHost _).bind fun result ↦ ?_
  cases result with
  | ok _ => exact pure ()
  | error failure => exact throw _

theorem callBuiltin (b : Builtin) (line : Nat) (arguments : List Value) :
    HostOnly (Run.callBuiltin b line arguments) :=
  moves_callBuiltin b line arguments fun _ host _ ↦ ⟨host, rfl⟩

/-- What does not depend on the host holds in the end if it holds before. -/
theorem endsIn {P : Machine → Prop} {x : Run α} (hx : HostOnly x) {m : Machine}
    (h : ∀ host, P { m with host }) : EndsIn P x m := by
  refine (EndsIn.of_moves hx m).mono ?_
  rintro _ ⟨host, rfl⟩
  exact h host

end Run.HostOnly

end Lox
