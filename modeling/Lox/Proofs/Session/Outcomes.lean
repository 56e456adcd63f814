import Lox.Proofs.Session.Rejection
import Lox.Proofs.Session.Reporting

/-!
# Outcomes, diagnostics and the memory of errors

A step ends in one of three ways.  It reports nothing and succeeds; it reports diagnostics that keep
a program from running and is rejected; or what runs halts, and that is the last thing it reports.
Both memories of errors follow from what was reported since they were last cleared, and none of this
depends on the stream of diagnostics.
-/

namespace Lox

-- No source is read to know how a step ends.
attribute [local irreducible] readProgram readExpression

/-- The only way to fail to print a line is that the stream fails. -/
theorem Run.halt_of_printLine {text : String} {m m' : Machine} {halt : Halt}
    (h : Run.printLine text m = .error halt m') : ∃ failure, halt = .output failure := by
  cases hwrite : m.host.write .out (text ++ "\n") with
  | mk result host =>
    have honHost : Run.onHost (·.write .out (text ++ "\n")) m = .ok result { m with host } := by
      change EStateM.Result.ok (m.host.write .out (text ++ "\n")).1
        { m with host := (m.host.write .out (text ++ "\n")).2 } = _
      rw [hwrite]
    rw [Run.printLine, Computation.bind_of_ok honHost] at h
    cases result with
    | ok _ => cases h
    | error failure =>
      cases h
      exact ⟨failure, rfl⟩

/-- How a step from a session may end. -/
inductive Session.Ends (s : Session) : Step → Prop
  | succeeded {t : Session} (ht : t.SameReports s) : Ends s ⟨.success, [], t⟩
  | rejected {t : Session} {ds : List Diagnostic} (hsome : ds ≠ [])
      (hkind : ∀ d ∈ ds, d.isCompileTime = true) (ht : t.SameReports (s.reportAll ds)) :
      Ends s ⟨.compileError, ds, t⟩
  | halted {t : Session} {ds : List Diagnostic} {d : Diagnostic}
      (hkind : ∀ d ∈ ds, d.isCompileTime = true) (hd : d.isCompileTime = false)
      (ht : t.SameReports (s.reportAll ds)) : Ends s ⟨.runtimeError, ds ++ [d], t.report d⟩

namespace Session

variable {s t : Session} {step : Step} {fuel : Nat} {source : String}

theorem SameReports.reject (ht : t.SameReports s) {ds : List Diagnostic} (hsome : ds ≠ [])
    (hkind : ∀ d ∈ ds, d.isCompileTime = true) : s.Ends (t.reject ds) :=
  .rejected hsome hkind (ht.reportAll ds)

theorem SameReports.ends_of_perform (ht : t.SameReports s) {action : Run Unit}
    (haction : Run.Sparing action) (hstep : t.perform action = some step) : s.Ends step := by
  rcases perform_cases hstep with ⟨m, hok, rfl⟩ | ⟨halt, m, d, herror, hd, rfl⟩
  · exact .succeeded (ht.ran (haction.of_ok hok))
  · have hnone : SameReports { t with machine := m } (s.reportAll []) :=
      ht.ran (haction.of_error herror)
    have hends := Ends.halted (List.forall_mem_nil _) (Halt.isCompileTime_of_diagnostic? hd) hnone
    exact hends

theorem ends_of_run (hstep : s.run fuel source = some step) : s.Ends step := by
  have hread : ∀ nextId, SameReports { s with nextId } s := fun _ ↦ ⟨rfl, rfl, rfl, rfl⟩
  have hresolved : (s.resolved source).SameReports s := ⟨rfl, rfl, rfl, rfl⟩
  cases s.programFate source with
  | misread hsome hfails =>
    rw [Session.run, hfails] at hstep
    cases hstep
    exact (hread _).reject hsome isCompileTime_of_mem_errors
  | violating _ _ hsome hfails =>
    rw [Session.run, hfails] at hstep
    cases hstep
    exact hresolved.reject hsome isCompileTime_of_mem_violations
  | executed _ _ _ hruns =>
    rw [Session.run, hruns] at hstep
    exact hresolved.ends_of_perform (.program fuel _) hstep

theorem ends_of_withExpression {use : Expr → Run Unit} (huse : ∀ e, Run.Sparing (use e))
    (hstep : s.withExpression source use = some step) : s.Ends step := by
  have hread : ∀ nextId, SameReports { s with nextId } s := fun _ ↦ ⟨rfl, rfl, rfl, rfl⟩
  cases s.expressionFate source with
  | misread hsome hfails =>
    rw [hfails use] at hstep
    cases hstep
    exact (hread _).reject hsome isCompileTime_of_mem_errors
  | used e _ _ _ huses =>
    rw [huses] at hstep
    exact (hread _).ends_of_perform (huse e) hstep

/-- By induction on what was scanned; `ds` are the lexical faults before it. -/
theorem SameReports.ends_of_listItems (line : Token → String) {ds : List Diagnostic}
    (ht : t.SameReports (s.reportAll ds)) (hkind : ∀ d ∈ ds, d.isCompileTime = true)
    (items : List Item) : s.Ends (t.listItems line ds items) := by
  induction items generalizing t ds with
  | nil =>
    unfold listItems
    by_cases hds : ds = []
    · subst hds
      exact .succeeded ht
    · rw [if_neg hds]
      exact .rejected hds hkind ht
  | cons item rest ih =>
    cases item with
    | fault n cause =>
      have hreported : (t.report (.lexical n cause)).SameReports
          (s.reportAll (ds ++ [.lexical n cause])) := by
        rw [Session.reportAll, List.foldl_append]
        exact ht.report _
      apply ih hreported
      intro d hd
      rcases List.mem_append.1 hd with hd | hd
      · exact hkind d hd
      · rw [List.mem_singleton.1 hd]
        rfl
    | token tok =>
      have hsparing := Run.Sparing.printLine (line tok)
      unfold listItems
      cases hr : Run.printLine (line tok) t.machine with
      | ok _ m => exact ih (ht.ran (hsparing.of_ok hr)) hkind
      | error halt m =>
        obtain ⟨failure, rfl⟩ := Run.halt_of_printLine hr
        exact .halted hkind rfl (ht.ran (hsparing.of_error hr))

/-- Whatever a session is asked for, it ends in one of the three ways. -/
theorem ends_of_serve {request : Request} (hrequest : request ≠ .reset)
    (hstep : s.serve fuel request = some step) : s.Ends step := by
  cases request with
  | run source => exact ends_of_run hstep
  | evaluate source =>
    have hevaluate := (Run.Sparing.evaluate_and_execute fuel).1
    exact ends_of_withExpression (fun e ↦ (hevaluate e).bind fun _ ↦ .printLine _) hstep
  | parse source => exact ends_of_withExpression (fun _ ↦ .printLine _) hstep
  | tokenize json source =>
    cases hstep
    have hnone : s.SameReports (s.reportAll []) := ⟨rfl, rfl, rfl, rfl⟩
    exact hnone.ends_of_listItems _ (List.forall_mem_nil _) _
  | reset => exact absurd rfl hrequest

end Session

/-- The outcome of a step from a session agrees with what it reported, and a step that halts does
nothing behind the diagnostic of the halt. -/
structure Step.Consistent (s : Session) (step : Step) : Prop where
  success : step.outcome = .success ↔ step.reported = []
  compileError : step.outcome = .compileError ↔
    step.reported ≠ [] ∧ ∀ d ∈ step.reported, d.isCompileTime = true
  runtimeError : step.outcome = .runtimeError ↔ step.reported.countP (!·.isCompileTime) = 1
  halted : step.outcome = .runtimeError → ∃ (before : Session) (earlier : List Diagnostic)
    (d : Diagnostic), step.reported = earlier ++ [d] ∧ d.isCompileTime = false ∧
      before.SameReports (s.reportAll earlier) ∧ step.session = before.report d

section Consistent

variable {s : Session} {step : Step}

theorem countP_eq_zero_of_isCompileTime {ds : List Diagnostic}
    (h : ∀ d ∈ ds, d.isCompileTime = true) : ds.countP (!·.isCompileTime) = 0 := by
  rw [List.countP_eq_zero]
  intro d hd
  simp [h d hd]

theorem Session.Ends.consistent (h : s.Ends step) : step.Consistent s := by
  cases h with
  | succeeded ht => exact ⟨by simp, by simp, by simp, nofun⟩
  | rejected hsome hkind ht =>
    have hcount := countP_eq_zero_of_isCompileTime hkind
    exact ⟨by simp [hsome], by simpa [hsome] using hkind, by simp [hcount], nofun⟩
  | @halted t ds d hkind hd ht =>
    have hcount := countP_eq_zero_of_isCompileTime hkind
    refine ⟨by simp, ?_, by simp [List.countP_append, hcount, hd], ?_⟩
    · constructor
      · exact nofun
      · rintro ⟨-, hall⟩
        have hcontra := hall d (List.mem_append_right _ List.mem_cons_self)
        simp [hd] at hcontra
    · exact fun _ ↦ ⟨t, ds, d, rfl, hd, ht, rfl⟩

/-- The stream of diagnostics and the memories tell what the step reported. -/
theorem Session.Ends.sameReports (h : s.Ends step) :
    step.session.SameReports (s.reportAll step.reported) := by
  cases h with
  | succeeded ht => exact ht
  | rejected _ _ ht => exact ht
  | @halted t ds d _ _ ht =>
    dsimp only
    rw [Session.reportAll, List.foldl_append]
    exact ht.report d

end Consistent

/-! ### One step after another -/

/-- A flag of sessions that remembers whether there has been a diagnostic of some kind. -/
structure Session.Remembers (flag : Session → Bool) (kind : Diagnostic → Bool) : Prop where
  start : ∀ host, flag (.start host) = false
  reset : ∀ s, flag (Session.reset s) = false
  report : ∀ s d, flag (Session.report s d) = (flag s || kind d)
  same : ∀ {s t : Session}, s.SameReports t → flag s = flag t

/-- By what the steps reported: up to the step `k` there was a diagnostic of some kind, and since
then no request to forget it. -/
def ReportedSinceReset (kind : Diagnostic → Bool) (requests : List (Nat × Request))
    (reports : List (List Diagnostic)) (k : Nat) : Prop :=
  ∃ j ds, j ≤ k ∧ reports[j]? = some ds ∧ (∃ d ∈ ds, kind d = true) ∧
    ∀ i fuel, j < i → i ≤ k → requests[i]? ≠ some (fuel, .reset)

section Remembers

variable {flag : Session → Bool} {kind : Diagnostic → Bool} {requests : List (Nat × Request)}
  {reports : List (List Diagnostic)} {ds : List Diagnostic} {steps : List Step} {step : Step}
  {s : Session} {fuel : Nat} {request : Request} {k : Nat}

theorem Session.remembers_hadError : Session.Remembers (·.hadError) (·.isCompileTime) :=
  ⟨fun _ ↦ rfl, fun _ ↦ rfl, fun _ _ ↦ rfl, fun h ↦ h.hadError⟩

theorem Session.remembers_hadRuntimeError :
    Session.Remembers (·.hadRuntimeError) (!·.isCompileTime) :=
  ⟨fun _ ↦ rfl, fun _ ↦ rfl, fun _ _ ↦ rfl, fun h ↦ h.hadRuntimeError⟩

theorem reportedSinceReset_zero (hds : reports[0]? = some ds) :
    ReportedSinceReset kind requests reports 0 ↔ ∃ d ∈ ds, kind d = true := by
  constructor
  · rintro ⟨j, found, hj, hfound, hreported, -⟩
    obtain rfl : j = 0 := Nat.le_zero.1 hj
    rw [hds] at hfound
    cases hfound
    exact hreported
  · intro hreported
    exact ⟨0, ds, Nat.le_refl _, hds, hreported, fun i _ hi hi' ↦ by omega⟩

theorem reportedSinceReset_succ (hds : reports[k + 1]? = some ds) :
    ReportedSinceReset kind requests reports (k + 1) ↔
      (ReportedSinceReset kind requests reports k ∧
        ∀ fuel, requests[k + 1]? ≠ some (fuel, .reset)) ∨ ∃ d ∈ ds, kind d = true := by
  constructor
  · rintro ⟨j, found, hj, hfound, hreported, hkept⟩
    by_cases hlast : j = k + 1
    · subst hlast
      rw [hds] at hfound
      cases hfound
      exact .inr hreported
    · left
      refine ⟨⟨j, found, by omega, hfound, hreported, fun i fuel hi hi' ↦ ?_⟩, fun fuel ↦ ?_⟩
      · exact hkept i fuel hi (by omega)
      · exact hkept (k + 1) fuel (by omega) (Nat.le_refl _)
  · rintro (⟨⟨j, found, hj, hfound, hreported, hkept⟩, hnow⟩ | hreported)
    · refine ⟨j, found, by omega, hfound, hreported, fun i fuel hi hi' ↦ ?_⟩
      by_cases hlast : i = k + 1
      · exact hlast ▸ hnow fuel
      · exact hkept i fuel hi (by omega)
    · exact ⟨k + 1, ds, Nat.le_refl _, hds, hreported, fun i _ hi hi' ↦ by omega⟩

theorem Session.Remembers.reportAll (hflag : Session.Remembers flag kind) (s : Session)
    (ds : List Diagnostic) : flag (s.reportAll ds) = (flag s || ds.any kind) := by
  induction ds generalizing s with
  | nil => simp [Session.reportAll]
  | cons d rest ih =>
    calc flag ((s.report d).reportAll rest)
        = (flag (s.report d) || rest.any kind) := ih (s.report d)
      _ = (flag s || (d :: rest).any kind) := by rw [hflag.report, Bool.or_assoc, List.any_cons]

/-- A step keeps a memory, unless it is asked to clear it, and adds what it reports. -/
theorem Session.Remembers.serve (hflag : Session.Remembers flag kind)
    (hstep : s.serve fuel request = some step) :
    flag step.session = true ↔
      (flag s = true ∧ request ≠ .reset) ∨ ∃ d ∈ step.reported, kind d = true := by
  by_cases hrequest : request = .reset
  · subst hrequest
    cases hstep
    simp [hflag.reset]
  · have hsame := (Session.ends_of_serve hrequest hstep).sameReports
    rw [hflag.same hsame, hflag.reportAll]
    simp [hrequest]

/-- The steps of a session, each from the session behind the one before it. -/
theorem Session.serve_of_serveAll (h : s.serveAll requests = some steps) :
    steps.length = requests.length ∧
      ∀ {k : Nat} {before : Session} {fuel : Nat} {request : Request} {step : Step},
        (s :: steps.map Step.session)[k]? = some before → requests[k]? = some (fuel, request) →
          steps[k]? = some step → before.serve fuel request = some step := by
  induction requests generalizing s steps with
  | nil =>
    cases h
    exact ⟨rfl, nofun⟩
  | cons head rest ih =>
    obtain ⟨fuel₀, request₀⟩ := head
    rw [Session.serveAll] at h
    obtain ⟨step₀, hstep₀, h⟩ := Option.bind_eq_some_iff.1 h
    obtain ⟨later, hlater, h⟩ := Option.bind_eq_some_iff.1 h
    cases h
    obtain ⟨hlength, hserve⟩ := ih hlater
    refine ⟨congrArg (· + 1) hlength, fun {k} before fuel request step hbefore hrequest hstep ↦ ?_⟩
    cases k with
    | zero =>
      cases hbefore
      cases hrequest
      cases hstep
      exact hstep₀
    | succ k => exact hserve hbefore hrequest hstep

/-- By induction on the number of steps: a memory tells whether there has been a diagnostic of its
kind since the last request to forget. -/
theorem Session.Remembers.serveAll (hflag : Session.Remembers flag kind) {host : Host}
    (h : (Session.start host).serveAll requests = some steps) (hstep : steps[k]? = some step) :
    flag step.session = true ↔
      ReportedSinceReset kind requests (steps.map Step.reported) k := by
  obtain ⟨hlength, hserve⟩ := Session.serve_of_serveAll h
  have hrequest : ∀ {i : Nat} {found : Step}, steps[i]? = some found →
      ∃ fuel request, requests[i]? = some (fuel, request) := by
    intro i found hfound
    have hi : i < requests.length := hlength ▸ (List.getElem?_eq_some_iff.1 hfound).1
    exact ⟨_, _, List.getElem?_eq_getElem hi⟩
  have hreport : ∀ {i : Nat} {found : Step}, steps[i]? = some found →
      (steps.map Step.reported)[i]? = some found.reported := by
    intro i found hfound
    rw [List.getElem?_map, hfound]
    rfl
  induction k generalizing step with
  | zero =>
    obtain ⟨fuel, request, hrequest⟩ := hrequest hstep
    rw [reportedSinceReset_zero (hreport hstep), hflag.serve (hserve rfl hrequest hstep),
      hflag.start]
    simp
  | succ k ih =>
    obtain ⟨fuel, request, hrequest⟩ := hrequest hstep
    have hk : k < steps.length := Nat.lt_of_succ_lt (List.getElem?_eq_some_iff.1 hstep).1
    have hprevious : steps[k]? = some steps[k] := List.getElem?_eq_getElem hk
    have hbefore : (Session.start host :: steps.map Step.session)[k + 1]? =
        some steps[k].session := by
      rw [List.getElem?_cons_succ, List.getElem?_map, hprevious]
      rfl
    have hremembered : flag steps[k].session = true ↔
        ReportedSinceReset kind requests (steps.map Step.reported) k := ih hprevious
    rw [reportedSinceReset_succ (hreport hstep), hflag.serve (hserve hbefore hrequest hstep),
      hremembered, hrequest]
    simp

end Remembers

/-! ### The stream of diagnostics -/

/-- Sessions that start with different streams of diagnostics cannot be told apart. -/
theorem Session.alike_start (host : Host) (err : Sink) :
    (Session.start host).Alike Eq (Session.start { host with err }) := by
  have hself := (Session.Reachable.start host).alike
  have hhost : host.Alike { host with err } := ⟨.refl _, rfl, rfl, fun _ ↦ rfl, rfl⟩
  exact ⟨⟨hself.machine.heap, hself.machine.current, ⟨rfl, rfl⟩, hhost⟩, hself.recorded,
    hself.recorded', rfl⟩

/-- What steps report decides what they remember. -/
theorem Session.Remembers.map_eq {flag : Session → Bool} {kind : Diagnostic → Bool}
    (hflag : Session.Remembers flag kind) {host host' : Host} {requests : List (Nat × Request)}
    {steps steps' : List Step} (h : (Session.start host).serveAll requests = some steps)
    (h' : (Session.start host').serveAll requests = some steps')
    (hreports : steps.map Step.reported = steps'.map Step.reported) :
    steps.map (flag ·.session) = steps'.map (flag ·.session) := by
  have hlength : steps.length = steps'.length := by
    simpa using congrArg List.length hreports
  refine List.ext_getElem (by simpa using hlength) fun k hk hk' ↦ ?_
  rw [List.length_map] at hk hk'
  have hflags := hflag.serveAll h (List.getElem?_eq_getElem hk)
  have hflags' := hflag.serveAll h' (List.getElem?_eq_getElem hk')
  rw [List.getElem_map, List.getElem_map, Bool.eq_iff_iff, hflags, hflags', hreports]

/-- Outcomes, flags and diagnostics of a session agree at every step, whichever writes and flushes
fail; and with another stream of diagnostics the steps are the same. -/
theorem Session.outcomes_agree (host : Host) (requests : List (Nat × Request)) {steps : List Step}
    (h : (Session.start host).serveAll requests = some steps) :
    steps.length = requests.length ∧
      (∀ k before fuel request step,
        (Session.start host :: steps.map Step.session)[k]? = some before →
          requests[k]? = some (fuel, request) → steps[k]? = some step →
            step.Consistent before ∧
              (request ≠ .reset →
                step.session.SameReports (before.reportAll step.reported)) ∧
              (step.session.hadError = true ↔
                ReportedSinceReset (·.isCompileTime) requests (steps.map Step.reported) k) ∧
              (step.session.hadRuntimeError = true ↔
                ReportedSinceReset (!·.isCompileTime) requests (steps.map Step.reported) k)) ∧
      ∀ err : Sink, ∃ steps', (Session.start { host with err }).serveAll requests = some steps' ∧
        List.Forall₂ Step.Same steps steps' ∧
          steps.map (·.session.hadError) = steps'.map (·.session.hadError) := by
  obtain ⟨hlength, hserve⟩ := Session.serve_of_serveAll h
  refine ⟨hlength, fun k before fuel request step hbefore hrequest hstep ↦ ?_, fun err ↦ ?_⟩
  · have hserved := hserve hbefore hrequest hstep
    refine ⟨?_, fun hreset ↦ (Session.ends_of_serve hreset hserved).sameReports,
      Session.remembers_hadError.serveAll h hstep,
      Session.remembers_hadRuntimeError.serveAll h hstep⟩
    by_cases hreset : request = .reset
    · subst hreset
      cases hserved
      exact ⟨by simp, by simp, by simp, nofun⟩
    · exact (Session.ends_of_serve hreset hserved).consistent
  · have halike := (Session.alike_start host err).serveAll requests
    rw [h] at halike
    generalize h' : (Session.start { host with err }).serveAll requests = o at halike
    cases halike with
    | @some _ steps' hsame =>
      have hreports : steps.map Step.reported = steps'.map Step.reported := by
        rw [← List.forall₂_eq_eq_eq, List.forall₂_map_left_iff, List.forall₂_map_right_iff]
        exact hsame.imp fun _ _ hs ↦ hs.reported
      exact ⟨steps', rfl, hsame, Session.remembers_hadError.map_eq h h' hreports⟩

/-- A stream of printed values that takes one line, and a stream of diagnostics that takes none.  A
lexical error does not keep the tokens behind it from being listed; a full stream does. -/
theorem Session.outcomes_agree_listing : ∃ steps,
    (Session.start
        { out := { writeFailure := fun k ↦ if k = 1 then some "full" else none }
          err := { writeFailure := fun _ ↦ some "lost" } }).serveAll
          [(0, .tokenize false "@ a b c"), (0, .reset), (9, .run "print nil;")] = some steps ∧
      steps.map (fun step ↦ (step.outcome, step.reported)) =
        [(.runtimeError, [.lexical 1 (.unexpected '@'), .output "full"]), (.success, []),
          (.success, [])] ∧
      ∀ step, steps[0]? = some step →
        (step.session.hadError = true ↔ ReportedSinceReset (·.isCompileTime)
          [(0, .tokenize false "@ a b c"), (0, .reset), (9, .run "print nil;")]
          (steps.map Step.reported) 0) := by
  have hmap : ((Session.start
        { out := { writeFailure := fun k ↦ if k = 1 then some "full" else none }
          err := { writeFailure := fun _ ↦ some "lost" } }).serveAll
          [(0, .tokenize false "@ a b c"), (0, .reset), (9, .run "print nil;")]).map
        (List.map fun step ↦ (step.outcome, step.reported)) =
      some [(.runtimeError, [.lexical 1 (.unexpected '@'), .output "full"]), (.success, []),
          (.success, [])] := by
    decide +kernel
  obtain ⟨steps, hsteps, hreported⟩ := Option.map_eq_some_iff.1 hmap
  have hagree := (Session.outcomes_agree _ _ hsteps).2.1
  exact ⟨steps, hsteps, hreported, fun step hstep ↦ (hagree 0 _ 0 _ step rfl rfl hstep).2.2.1⟩

end Lox
