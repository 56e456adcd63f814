import Lox.Proofs.Machine.Host
import Lox.Proofs.Session.Request

/-!
# What a step can do

A source is rejected as soon as it is read, or once it is resolved; or else it is run, and what runs
succeeds or halts.  It is said here once what becomes of a source (`Session.programFate`,
`Session.expressionFate`) and how what runs may end (`Session.perform_cases`), and what is known of
steps is derived from that.
-/

namespace Lox

open Lox.Computation (EndsIn)

theorem isCompileTime_of_mem_errors {items : List Item} {errors : List SyntaxError} :
    ∀ d ∈ lexicalErrors items ++ errors.map SyntaxError.diagnostic, d.isCompileTime = true := by
  intro d hd
  rcases List.mem_append.1 hd with hd | hd
  · obtain ⟨item, -, hitem⟩ := List.mem_filterMap.1 hd
    cases item with
    | token t => cases hitem
    | fault line cause =>
      cases hitem
      rfl
  · obtain ⟨e, -, rfl⟩ := List.mem_map.1 hd
    rfl

theorem isCompileTime_of_mem_violations {found : List Finding} :
    ∀ d ∈ found.filterMap Finding.violation?, d.isCompileTime = true := by
  intro d hd
  obtain ⟨f, -, hf⟩ := List.mem_filterMap.1 hd
  cases f with
  | use id name depth => cases hf
  | violation token fault =>
    cases hf
    rfl

theorem Halt.isCompileTime_of_diagnostic? {halt : Halt} {d : Diagnostic}
    (h : halt.diagnostic? = some d) : d.isCompileTime = false := by
  cases halt with
  | fault line cause =>
    cases h
    rfl
  | output text =>
    cases h
    rfl
  | exhausted => cases h

/-- Where there is no expression, an error says why. -/
theorem errors_ne_nil_of_result_eq_none {n : NodeId} {ts : List Token}
    (h : (readExpression n ts).result = none) : (readExpression n ts).errors ≠ [] := by
  unfold readExpression at h ⊢
  dsimp only at h ⊢
  split
  · rename_i hread
    rw [hread] at h
    cases h
  · rename_i e s hread
    rw [Array.toList_push]
    exact List.append_ne_nil_of_right_ne_nil _ (List.cons_ne_nil _ _)

namespace Session

/-- The errors that keep a source from being resolved as a program. -/
def programErrors (s : Session) (source : String) : List Diagnostic :=
  lexicalErrors (scan source) ++
    (readProgram s.nextId (tokens source)).errors.map SyntaxError.diagnostic

/-- The errors that keep a source from being used as an expression. -/
def expressionErrors (s : Session) (source : String) : List Diagnostic :=
  lexicalErrors (scan source) ++
    (readExpression s.nextId (tokens source)).errors.map SyntaxError.diagnostic

/-- The violations that keep a program from being executed. -/
def violations (s : Session) (source : String) : List Diagnostic :=
  (resolve (readProgram s.nextId (tokens source)).result).filterMap Finding.violation?

variable {s : Session} {source : String} {action action' : Run Unit} {step : Step}

theorem programErrors_eq_nil_iff : s.programErrors source = [] ↔
    lexicalErrors (scan source) = [] ∧ (readProgram s.nextId (tokens source)).errors = [] := by
  rw [programErrors, List.append_eq_nil_iff, List.map_eq_nil_iff]

theorem expressionErrors_eq_nil_iff : s.expressionErrors source = [] ↔
    lexicalErrors (scan source) = [] ∧ (readExpression s.nextId (tokens source)).errors = [] := by
  rw [expressionErrors, List.append_eq_nil_iff, List.map_eq_nil_iff]

theorem violations_eq_nil_iff : s.violations source = [] ↔
    Quiet (resolve (readProgram s.nextId (tokens source)).result) :=
  List.filterMap_eq_nil_iff

/-- What runs succeeds, or the diagnostic of a halt is reported. -/
theorem perform_cases (hstep : s.perform action = some step) :
    (∃ m, action s.machine = .ok () m ∧ step = ⟨.success, [], { s with machine := m }⟩) ∨
      ∃ halt m d, action s.machine = .error halt m ∧ halt.diagnostic? = some d ∧
        step = ⟨.runtimeError, [d], report { s with machine := m } d⟩ := by
  unfold perform at hstep
  split at hstep
  · rename_i m hok
    cases hstep
    exact .inl ⟨m, hok, rfl⟩
  · rename_i halt m herror
    obtain ⟨d, hd, rfl⟩ := Option.map_eq_some_iff.1 hstep
    exact .inr ⟨halt, m, d, herror, hd, rfl⟩

theorem perform_congr (h : action s.machine = action' s.machine) :
    s.perform action = s.perform action' := by
  unfold perform
  rw [h]

theorem perform_of_ok {m : Machine} (h : action s.machine = .ok () m) :
    s.perform action = some ⟨.success, [], { s with machine := m }⟩ := by
  unfold perform
  rw [h]

/-- What halts either runs out of fuel or ends with a runtime error. -/
theorem outcome_perform_of_error {halt : Halt} {m : Machine} (h : action s.machine = .error halt m)
    (hstep : s.perform action = some step) : step.outcome = .runtimeError := by
  rcases perform_cases hstep with ⟨m, hok, rfl⟩ | ⟨halt, m, d, -, -, rfl⟩
  · rw [h] at hok
    cases hok
  · rfl

theorem outcome_perform (hstep : s.perform action = some step) : step.outcome ≠ .compileError := by
  rcases perform_cases hstep with ⟨m, -, rfl⟩ | ⟨halt, m, d, -, -, rfl⟩
  · exact nofun
  · exact nofun

/-- What becomes of a source that is to be run as a program, whatever it may be to execute one. -/
inductive ProgramFate (s : Session) (source : String) : Prop
  | misread (hsome : s.programErrors source ≠ [])
      (hstep : ∀ execute, s.runWith execute source = some (reject
        { s with nextId := (readProgram s.nextId (tokens source)).nextId }
        (s.programErrors source)))
  | violating (hlexical : lexicalErrors (scan source) = [])
      (herrors : (readProgram s.nextId (tokens source)).errors = [])
      (hsome : s.violations source ≠ [])
      (hstep : ∀ execute, s.runWith execute source =
        some ((s.resolved source).reject (s.violations source)))
  | executed (hlexical : lexicalErrors (scan source) = [])
      (herrors : (readProgram s.nextId (tokens source)).errors = [])
      (hquiet : Quiet (resolve (readProgram s.nextId (tokens source)).result))
      (hstep : ∀ execute, s.runWith execute source =
        (s.resolved source).perform (execute (readProgram s.nextId (tokens source)).result))

theorem programFate (s : Session) (source : String) : s.ProgramFate source := by
  by_cases hnone : s.programErrors source = []
  · obtain ⟨hlexical, herrors⟩ := programErrors_eq_nil_iff.1 hnone
    by_cases hquiet : s.violations source = []
    · refine .executed hlexical herrors (violations_eq_nil_iff.1 hquiet) fun execute ↦ ?_
      calc s.runWith execute source
        _ = if s.violations source ≠ [] then some ((s.resolved source).reject (s.violations source))
            else (s.resolved source).perform
              (execute (readProgram s.nextId (tokens source)).result) := if_neg (not_not.2 hnone)
        _ = _ := if_neg (not_not.2 hquiet)
    · refine .violating hlexical herrors hquiet fun execute ↦ ?_
      calc s.runWith execute source
        _ = if s.violations source ≠ [] then some ((s.resolved source).reject (s.violations source))
            else (s.resolved source).perform
              (execute (readProgram s.nextId (tokens source)).result) := if_neg (not_not.2 hnone)
        _ = _ := if_pos hquiet
  · exact .misread hnone fun execute ↦ if_pos hnone

/-- What becomes of a source that is to be used as an expression, whatever the use. -/
inductive ExpressionFate (s : Session) (source : String) : Prop
  | misread (hsome : s.expressionErrors source ≠ [])
      (hstep : ∀ use, s.withExpression source use = some (reject
        { s with nextId := (readExpression s.nextId (tokens source)).nextId }
        (s.expressionErrors source)))
  | used (e : Expr) (hresult : (readExpression s.nextId (tokens source)).result = some e)
      (hlexical : lexicalErrors (scan source) = [])
      (herrors : (readExpression s.nextId (tokens source)).errors = [])
      (hstep : ∀ use, s.withExpression source use =
        perform { s with nextId := (readExpression s.nextId (tokens source)).nextId } (use e))

theorem expressionFate (s : Session) (source : String) : s.ExpressionFate source := by
  have htokens : (scan source).filterMap Item.token? = tokens source := rfl
  cases hresult : (readExpression s.nextId (tokens source)).result with
  | none =>
    have hsome : s.expressionErrors source ≠ [] := fun hnone ↦
      errors_ne_nil_of_result_eq_none hresult (expressionErrors_eq_nil_iff.1 hnone).2
    refine .misread hsome fun use ↦ ?_
    rw [withExpression, htokens, hresult]
    rfl
  | some e =>
    cases herrors : s.expressionErrors source with
    | nil =>
      obtain ⟨hlexical, hsyntactic⟩ := expressionErrors_eq_nil_iff.1 herrors
      refine .used e hresult hlexical hsyntactic fun use ↦ ?_
      rw [withExpression, htokens, hresult, hlexical, hsyntactic]
      rfl
    | cons d rest =>
      refine .misread (by rw [herrors]; exact List.cons_ne_nil d rest) fun use ↦ ?_
      rw [expressionErrors] at herrors
      rw [withExpression, htokens, hresult, herrors, expressionErrors, herrors]

/-- Only what an accepted program does counts. -/
theorem runWith_congr {execute execute' : List Stmt → Run Unit}
    (h : (readProgram s.nextId (tokens source)).errors = [] →
      Quiet (resolve (readProgram s.nextId (tokens source)).result) →
      execute (readProgram s.nextId (tokens source)).result (s.resolved source).machine =
        execute' (readProgram s.nextId (tokens source)).result (s.resolved source).machine) :
    s.runWith execute source = s.runWith execute' source := by
  cases s.programFate source with
  | misread _ hstep => rw [hstep, hstep]
  | violating _ _ _ hstep => rw [hstep, hstep]
  | executed _ herrors hquiet hstep =>
    rw [hstep, hstep]
    exact perform_congr (h herrors hquiet)

theorem withExpression_congr {use use' : Expr → Run Unit}
    (h : ∀ e, (readExpression s.nextId (tokens source)).result = some e →
      (readExpression s.nextId (tokens source)).errors = [] → use e s.machine = use' e s.machine) :
    s.withExpression source use = s.withExpression source use' := by
  cases s.expressionFate source with
  | misread _ hstep => rw [hstep, hstep]
  | used e hresult _ herrors hstep =>
    rw [hstep, hstep]
    exact perform_congr (h e hresult herrors)

/-- A property of sessions that neither a report nor a printed line ends. -/
structure Persistent (P : Session → Prop) : Prop where
  report : ∀ {s} d, P s → P (Session.report s d)
  print : ∀ {s} text, P s →
    EndsIn (fun m ↦ P { s with machine := m }) (Run.printLine text) s.machine

namespace Persistent

variable {P : Session → Prop}

/-- To report and to print changes nothing but the host and what is remembered of errors. -/
theorem of_host (h : ∀ {s t : Session} {host : Host}, t.machine = { s.machine with host } →
    t.nextId = s.nextId → P s → P t) : Persistent P where
  report _ hs := h rfl rfl hs
  print text hs := (Run.HostOnly.printLine text).endsIn fun _ ↦ h rfl rfl hs

variable (hP : Persistent P)
include hP

theorem reportAll (hs : P s) (ds : List Diagnostic) : P (s.reportAll ds) := by
  induction ds generalizing s with
  | nil => exact hs
  | cons d rest ih => exact ih (hP.report d hs)

theorem perform (hends : EndsIn (fun m ↦ P { s with machine := m }) action s.machine)
    (hstep : s.perform action = some step) : P step.session := by
  rcases perform_cases hstep with ⟨m, hok, rfl⟩ | ⟨halt, m, d, herror, -, rfl⟩
  · exact hends.of_ok hok
  · exact hP.report d (hends.of_error herror)

theorem runWith {execute : List Stmt → Run Unit}
    (hread : P { s with nextId := (readProgram s.nextId (tokens source)).nextId })
    (hresolved : P (s.resolved source))
    (hends : (readProgram s.nextId (tokens source)).errors = [] →
      Quiet (resolve (readProgram s.nextId (tokens source)).result) →
      EndsIn (fun m ↦ P { s.resolved source with machine := m })
        (execute (readProgram s.nextId (tokens source)).result) (s.resolved source).machine)
    (hstep : s.runWith execute source = some step) : P step.session := by
  cases s.programFate source with
  | misread _ hrejected =>
    rw [hrejected execute] at hstep
    cases hstep
    exact hP.reportAll hread _
  | violating _ _ _ hrejected =>
    rw [hrejected execute] at hstep
    cases hstep
    exact hP.reportAll hresolved _
  | executed _ herrors hquiet hruns =>
    rw [hruns] at hstep
    exact hP.perform (hends herrors hquiet) hstep

theorem withExpression {use : Expr → Run Unit}
    (hread : P { s with nextId := (readExpression s.nextId (tokens source)).nextId })
    (hends : ∀ e, (readExpression s.nextId (tokens source)).result = some e →
      (readExpression s.nextId (tokens source)).errors = [] →
      EndsIn (fun m ↦ P { s with
        machine := m
        nextId := (readExpression s.nextId (tokens source)).nextId }) (use e) s.machine)
    (hstep : s.withExpression source use = some step) : P step.session := by
  cases s.expressionFate source with
  | misread _ hrejected =>
    rw [hrejected use] at hstep
    cases hstep
    exact hP.reportAll hread _
  | used e hresult _ herrors huses =>
    exact hP.perform
      (s := { s with nextId := (readExpression s.nextId (tokens source)).nextId })
      (hends e hresult herrors) ((huses use).symm.trans hstep)

theorem printing {value : Expr → Run Value}
    (hread : P { s with nextId := (readExpression s.nextId (tokens source)).nextId })
    (hends : ∀ e, (readExpression s.nextId (tokens source)).result = some e →
      (readExpression s.nextId (tokens source)).errors = [] →
      EndsIn (fun m ↦ P { s with
        machine := m, nextId := (readExpression s.nextId (tokens source)).nextId })
        (value e) s.machine)
    (hstep : s.withExpression source (fun e ↦ do Run.printLine (← value e).display) = some step) :
    P step.session := by
  refine hP.withExpression hread (fun e hresult herrors ↦ ?_) hstep
  exact (hends e hresult herrors).bind fun v m hm ↦ hP.print v.display hm

theorem parse (hread : P { s with nextId := (readExpression s.nextId (tokens source)).nextId })
    (hstep : s.parse source = some step) : P step.session :=
  hP.withExpression hread (fun e _ _ ↦ hP.print e.print hread) hstep

theorem listItems (hs : P s) (line : Token → String) (reported : List Diagnostic)
    (items : List Item) : P (s.listItems line reported items).session := by
  induction items generalizing s reported with
  | nil => exact hs
  | cons item rest ih =>
    cases item with
    | fault n cause => exact ih (hP.report _ hs) _
    | token t =>
      have hends := hP.print (line t) hs
      unfold Session.listItems
      split
      · rename_i m hok
        exact ih (hends.of_ok hok) reported
      · rename_i halt m herror
        exact hP.reportAll (hends.of_error herror) _

end Persistent

end Session

end Lox
