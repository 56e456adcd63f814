import Lox.Proofs.Machine.Frame
import Lox.Proofs.Session.Steps

/-!
# What a step reports

Running touches neither the stream of diagnostics nor the memory of earlier errors.  So after a step
both are what they would be had the session only reported the diagnostics of the step.
-/

namespace Lox

-- No source is read to know what is reported.
attribute [local irreducible] readProgram

/-- Sessions that have written the same diagnostics, whose stream of diagnostics fails at the same
writes from now on, and that remember the same kinds of errors. -/
structure Session.SameReports (s s' : Session) : Prop where
  err : s.machine.host.err = s'.machine.host.err
  written : Channel.err.pieces s.machine.host.log = Channel.err.pieces s'.machine.host.log
  hadError : s.hadError = s'.hadError
  hadRuntimeError : s.hadRuntimeError = s'.hadRuntimeError

namespace Session

variable {s s' : Session} {step : Step}

/-- The stream of diagnostics once a diagnostic has been reported. -/
def errAfter (err : Sink) : Sink :=
  match err.writeFailure err.writes with
  | some _ => { err with writes := err.writes + 1 }
  | none => { err with writes := err.writes + 1, flushes := err.flushes + 1 }

/-- What is written when a diagnostic is reported: its text, unless the stream fails. -/
def errText (err : Sink) (d : Diagnostic) : List String :=
  match err.writeFailure err.writes with
  | some _ => []
  | none => [d.text ++ "\n"]

theorem err_report (s : Session) (d : Diagnostic) :
    (s.report d).machine.host.err = errAfter s.machine.host.err ∧
      Channel.err.pieces (s.report d).machine.host.log =
        Channel.err.pieces s.machine.host.log ++ errText s.machine.host.err d := by
  unfold report errAfter errText Host.write
  dsimp only [Host.sink, Host.setSink]
  cases s.machine.host.err.writeFailure s.machine.host.err.writes with
  | some failure =>
    refine ⟨rfl, ?_⟩
    exact (List.append_nil _).symm
  | none =>
    have hpieces := Channel.pieces_push .err .err s.machine.host.log (d.text ++ "\n")
    unfold Host.flush
    dsimp only [Host.sink, Host.setSink]
    split
    · exact ⟨rfl, hpieces⟩
    · exact ⟨rfl, hpieces⟩

namespace SameReports

theorem report (h : s.SameReports s') (d : Diagnostic) :
    (s.report d).SameReports (s'.report d) := by
  obtain ⟨herr, hwritten⟩ := s.err_report d
  obtain ⟨herr', hwritten'⟩ := s'.err_report d
  refine ⟨?_, ?_, ?_, ?_⟩
  · rw [herr, herr', h.err]
  · rw [hwritten, hwritten', h.err, h.written]
  · change (s.hadError || _) = (s'.hadError || _)
    rw [h.hadError]
  · change (s.hadRuntimeError || _) = (s'.hadRuntimeError || _)
    rw [h.hadRuntimeError]

theorem reportAll (h : s.SameReports s') (ds : List Diagnostic) :
    (s.reportAll ds).SameReports (s'.reportAll ds) := by
  induction ds generalizing s s' with
  | nil => exact h
  | cons d rest ih => exact ih (h.report d)

/-- What runs reports nothing by itself. -/
theorem ran (h : s.SameReports s') {m : Machine} (hm : s.machine.Spares m) :
    Session.SameReports { s with machine := m } s' :=
  ⟨hm.host.err.trans h.err, hm.host.reported.trans h.written, h.hadError, h.hadRuntimeError⟩

theorem perform (h : s.SameReports s') {action : Run Unit} (haction : Run.Sparing action)
    (hstep : s.perform action = some step) :
    step.session.SameReports (s'.reportAll step.reported) := by
  rcases perform_cases hstep with ⟨m, hok, rfl⟩ | ⟨halt, m, d, herror, -, rfl⟩
  · exact h.ran (haction.of_ok hok)
  · exact (h.ran (haction.of_error herror)).report d

end SameReports

/-- A session that runs a source reports the diagnostics of the step, and nothing else. -/
theorem sameReports_run {fuel : Nat} {source : String} (hstep : s.run fuel source = some step) :
    step.session.SameReports (s.reportAll step.reported) := by
  have hread : ∀ nextId, Session.SameReports { s with nextId } s := fun _ ↦ ⟨rfl, rfl, rfl, rfl⟩
  have hresolved : (s.resolved source).SameReports s := ⟨rfl, rfl, rfl, rfl⟩
  cases s.programFate source with
  | misread _ hfails =>
    rw [Session.run, hfails] at hstep
    cases hstep
    exact (hread _).reportAll _
  | violating _ _ _ hfails =>
    rw [Session.run, hfails] at hstep
    cases hstep
    exact hresolved.reportAll _
  | executed _ _ _ hruns => exact hresolved.perform (.program fuel _) ((hruns _).symm.trans hstep)

end Session

end Lox
