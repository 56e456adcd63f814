import Lox.Proofs.Machine.Discipline
import Lox.Proofs.Session.Scoping
import Lox.Proofs.Session.Steps

/-!
# What lasts in a session

A property of machines lasts if no program that is accepted and no expression that is read well ends
it.  Reading, reporting, printing and resolving change nothing else, so a lasting property holds in
every session that can be reached.
-/

namespace Lox

open Lox.Computation (EndsIn)

-- No source is read to know what lasts.
attribute [local irreducible] readProgram readExpression

theorem Discipline.kept_start {D : Discipline} (host : Host)
    (hshape : D.shape (Machine.start host).heap)
    (hbinding : ∀ b : Builtin, D.binding b.name (.builtin b)) :
    D.Kept (Machine.start host).heap := by
  refine ⟨hshape, fun scope name value hvalue ↦ ?_, fun scope name value hvalue ↦ ?_, nofun⟩
  · obtain ⟨b, rfl, rfl⟩ := Heap.exists_builtin_of_get?_start hvalue
    exact hbinding b
  · obtain ⟨b, -, rfl⟩ := Heap.exists_builtin_of_get?_start hvalue
    trivial

/-- What it takes for a property to outlive every request. -/
structure Machine.Enduring (P : Machine → Prop) : Prop where
  host : ∀ {m} host, P m → P { m with host }
  record : ∀ {m} findings, P m → P (m.record findings)
  program : ∀ {m n source} fuel, (readProgram n (tokens source)).errors = [] →
    Quiet (resolve (readProgram n (tokens source)).result) → P m →
    EndsIn P (Run.program fuel (readProgram n (tokens source)).result)
      (m.record (resolve (readProgram n (tokens source)).result))
  expression : ∀ {m n source e} fuel, (readExpression n (tokens source)).result = some e →
    (readExpression n (tokens source)).errors = [] → P m → EndsIn P (Run.evaluate fuel e) m

/-- What it takes for a property to hold in every session. -/
structure Machine.Lasting (P : Machine → Prop) : Prop extends Machine.Enduring P where
  start : ∀ host, P (.start host)

namespace Machine.Enduring

variable {P : Machine → Prop} (L : Enduring P)
include L

theorem persistent : Session.Persistent fun s ↦ P s.machine :=
  .of_host fun {_ _ host} hmachine _ hs ↦ hmachine ▸ L.host host hs

theorem serve {s : Session} (hs : P s.machine) {fuel : Nat} {request : Request} {step : Step}
    (hstep : s.serve fuel request = some step) : P step.session.machine := by
  cases request with
  | run source =>
    exact L.persistent.runWith hs (L.record _ hs)
      (fun herrors hquiet ↦ L.program fuel herrors hquiet hs) hstep
  | evaluate source =>
    exact L.persistent.printing hs (fun e hresult herrors ↦ L.expression fuel hresult herrors hs)
      hstep
  | parse source => exact L.persistent.parse hs hstep
  | tokenize json source =>
    cases hstep
    exact L.persistent.listItems hs _ _ _
  | reset =>
    cases hstep
    exact hs

end Machine.Enduring

theorem Session.Reachable.lasting {P : Machine → Prop} (L : Machine.Lasting P) {s : Session}
    {known : List Site} (hs : s.Reachable known) : P s.machine := by
  induction hs with
  | start host => exact L.start host
  | serve _ fuel request hstep ih => exact L.serve ih hstep
  | host _ host ih => exact L.host host ih

end Lox
