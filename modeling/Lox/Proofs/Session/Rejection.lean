import Lox.Proofs.Session.Likeness
import Lox.Proofs.Session.Steps

/-!
# Rejected sources leave no trace

A source that is rejected has been read and perhaps resolved, and depths may have been recorded for
its nodes.  Nothing of this can be noticed afterwards: whatever a session is asked for then, it
answers as if it had never seen the source.
-/

namespace Lox

-- No source is read to know what becomes of it.
attribute [local irreducible] readProgram readExpression

section Grows

variable {s : Session} {step : Step} {fuel : Nat} {source : String}
  (hrecorded : ∀ id depth, s.machine.addresses[id]? = some depth → id < s.nextId)
  (hrejected : step.outcome = .compileError)

include hrecorded hrejected

/-- A program that is rejected has only been read and resolved. -/
theorem Session.grows_of_run (hstep : s.run fuel source = some step) : s.Grows step.session := by
  have hnext := (issued_readProgram s.nextId (tokens source)).1
  cases s.programFate source with
  | misread _ hfails =>
    rw [Session.run, hfails] at hstep
    cases hstep
    exact (Session.Grows.next_id hrecorded hnext).reportAll isCompileTime_of_mem_errors
  | violating _ _ _ hfails =>
    rw [Session.run, hfails] at hstep
    cases hstep
    exact (Session.Grows.resolved hrecorded source).reportAll isCompileTime_of_mem_violations
  | executed _ _ _ hruns =>
    rw [Session.run, hruns] at hstep
    exact absurd hrejected (Session.outcome_perform hstep)

/-- An expression that is rejected has only been read. -/
theorem Session.grows_of_withExpression {use : Expr → Run Unit}
    (hstep : s.withExpression source use = some step) : s.Grows step.session := by
  have hnext := (issued_readExpression s.nextId (tokens source)).1
  cases s.expressionFate source with
  | misread _ hfails =>
    rw [hfails use] at hstep
    cases hstep
    exact (Session.Grows.next_id hrecorded hnext).reportAll isCompileTime_of_mem_errors
  | used _ _ _ _ huses =>
    rw [huses] at hstep
    exact absurd hrejected (Session.outcome_perform hstep)

theorem Session.grows_of_serve {request : Request}
    (hrequest : ∀ json source, request ≠ .tokenize json source)
    (hstep : s.serve fuel request = some step) : s.Grows step.session := by
  cases request with
  | run source => exact Session.grows_of_run hrecorded hrejected hstep
  | evaluate source => exact Session.grows_of_withExpression hrecorded hrejected hstep
  | parse source => exact Session.grows_of_withExpression hrecorded hrejected hstep
  | tokenize json source => exact absurd rfl (hrequest json source)
  | reset =>
    cases hstep
    cases hrejected

end Grows

/-- Serve requests one after another, each with its own fuel. -/
def Session.serveAll (s : Session) : List (Nat × Request) → Option (List Step)
  | [] => some []
  | (fuel, request) :: rest => do
    let step ← s.serve fuel request
    let later ← step.session.serveAll rest
    return step :: later

/-- Steps that cannot be told apart, except by the identifiers of nodes and by whether there have
been errors before anything ran. -/
structure Step.Same (step step' : Step) : Prop where
  outcome : step.outcome = step'.outcome
  reported : step.reported = step'.reported
  printed : step.session.machine.host.written .out = step'.session.machine.host.written .out
  files : step.session.machine.host.files = step'.session.machine.host.files
  heap : step.session.machine.heap.Alike Eq (fun _ _ ↦ True) step'.session.machine.heap
  current : step.session.machine.current = step'.session.machine.current
  hadRuntimeError : step.session.hadRuntimeError = step'.session.hadRuntimeError

theorem Step.Alike.same {step step' : Step} (h : step.Alike Eq step') : step.Same step' where
  outcome := h.outcome
  reported := Diagnostic.Alike.eq_of_forall₂ h.reported
  printed := h.session.machine.host.written
  files := h.session.machine.host.files
  heap := h.session.machine.heap.imp (fun _ _ ht ↦ ht) fun _ _ _ ↦ trivial
  current := h.session.machine.current
  hadRuntimeError := h.session.hadRuntimeError

/-- By induction on the requests: sessions that are alike cannot be told apart. -/
theorem Session.Alike.serveAll (requests : List (Nat × Request)) {s s' : Session}
    (h : s.Alike Eq s') :
    Option.Rel (List.Forall₂ Step.Same) (s.serveAll requests) (s'.serveAll requests) := by
  induction requests generalizing s s' with
  | nil => exact .some .nil
  | cons head rest ih =>
    obtain ⟨fuel, request⟩ := head
    have hserve := h.serve fuel request
    unfold Session.serveAll
    generalize s.serve fuel request = o at hserve ⊢
    generalize s'.serve fuel request = o' at hserve ⊢
    cases hserve with
    | none => exact .none
    | @some step step' hstep =>
      have hlater := ih hstep.session
      dsimp only [Option.bind_eq_bind, Option.bind_some]
      generalize step.session.serveAll rest = o at hlater ⊢
      generalize step'.session.serveAll rest = o' at hlater ⊢
      cases hlater with
      | none => exact .none
      | some hsteps => exact .some (.cons hstep.same hsteps)

/-- A rejected source leaves no trace: the step touches neither the scopes nor the instances nor the
printed text, and whatever is asked for later, one step after another is the same as without it. -/
theorem Session.Reachable.rejected {s : Session} {known : List Site} (hs : s.Reachable known)
    {fuel : Nat} {request : Request} (hrequest : ∀ json source, request ≠ .tokenize json source)
    {step : Step} (hstep : s.serve fuel request = some step)
    (hrejected : step.outcome = .compileError) :
    step.session.machine.heap = s.machine.heap ∧
      step.session.machine.current = s.machine.current ∧
      step.session.machine.host.written .out = s.machine.host.written .out ∧
      ∀ later : List (Nat × Request),
        Option.Rel (List.Forall₂ Step.Same) (s.serveAll later) (step.session.serveAll later) := by
  have hself := hs.alike
  have hgrows := Session.grows_of_serve hself.recorded hrejected hrequest hstep
  refine ⟨hgrows.heap, hgrows.current, hgrows.host.written.symm, fun later ↦ ?_⟩
  exact (hself.grow (.refl hself.recorded) hgrows).serveAll later

/-- A program that resolution rejects after it has found the depth of a variable. -/
theorem Session.rejected_redeclaration : ∃ step,
    (Session.start {}).serve 9 (.run "{ var a; print a; var a; }") = some step ∧
      step.outcome = .compileError ∧
      Option.Rel (List.Forall₂ Step.Same)
        ((Session.start {}).serveAll [(9, .run "{ var b; print b; }")])
        (step.session.serveAll [(9, .run "{ var b; print b; }")]) := by
  have hmap : ((Session.start {}).serve 9 (.run "{ var a; print a; var a; }")).map Step.outcome =
      some .compileError := by
    decide +kernel
  obtain ⟨step, hstep, hrejected⟩ := Option.map_eq_some_iff.1 hmap
  have hleft := (Session.Reachable.start {}).rejected (by simp) hstep hrejected
  exact ⟨step, hstep, hrejected, hleft.2.2.2 _⟩

end Lox
