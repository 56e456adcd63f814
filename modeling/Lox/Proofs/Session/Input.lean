import Lox.Proofs.Machine.Diary
import Lox.Proofs.Session.Steps

/-!
# The input of a session

All programs of a session read from one input.  The k-th call of `readline` that any of them makes
comes to the k-th line, and to nil when there are no more (`Session.Heard.answers_by_line`).  A line
loses its terminator, and with it every carriage return and newline that stands in front of that.
-/

namespace Lox

open Lox.Computation (EndsIn)

-- No program is computed to know what it reads.
attribute [local irreducible] readProgram readExpression

/-- The value for a line of the input, of which a part is kept, or nil for none. -/
def lineValue (part : List Char → List Char) : Option (List Char) → Value
  | none => .nil
  | some line => .string (.ofList (part line))

theorem Utf8.Spells.answerTo_eq {input : List UInt8} {text : List Char} (h : Spells input text) :
    answerTo input = some (lineValue trimmed (lines '\n' text)[0]?) := by
  unfold answerTo
  split
  · rename_i hinput
    subst hinput
    rw [h.eq_nil]
    rfl
  · rename_i hinput
    have hdecode : decode (Lox.splitLine 10 input).1 =
        .ok (.ofList (Lox.splitLine '\n' text).1) :=
      h.splitLine.1.decodeFrom_eq 0 []
    have htext : text ≠ [] := by
      rintro rfl
      cases h
      exact hinput rfl
    rw [hdecode, lines_eq_cons htext, List.getElem?_cons_zero]
    exact congrArg (some ∘ Value.string) (Run.trimLine_ofList _)

theorem lines_splitLine (text : List Char) :
    lines '\n' (splitLine '\n' text).2 = (lines '\n' text).tail := by
  cases text with
  | nil => rfl
  | cons c rest => rw [lines_eq_cons (List.cons_ne_nil c rest), List.tail_cons]

/-- By induction on the answers, each of which takes a line from the input. -/
theorem Reads.eq_of_getElem? {input left : List UInt8} {answers : List (Option Value)}
    (h : Reads input answers left) {text : List Char} (htext : Utf8.Spells input text) {k : Nat}
    {answer : Option Value} (hk : answers[k]? = some answer) :
    answer = some (lineValue trimmed (lines '\n' text)[k]?) := by
  induction h generalizing text k with
  | nil input => cases hk
  | cons hrest ih =>
    cases k with
    | zero =>
      rw [List.getElem?_cons_zero, Option.some_inj] at hk
      rw [← hk, htext.answerTo_eq]
    | succ k =>
      rw [List.getElem?_cons_succ] at hk
      rw [ih htext.splitLine.2 hk, lines_splitLine, List.getElem?_tail]

/-- What the answers leave are the lines they did not come to. -/
theorem Reads.spells_left {input left : List UInt8} {answers : List (Option Value)}
    (h : Reads input answers left) {text : List Char} (htext : Utf8.Spells input text) :
    Utf8.Spells left ((lines '\n' text).drop answers.length).flatten := by
  induction h generalizing text with
  | nil input =>
    rw [List.length_nil, List.drop_zero, flatten_lines]
    exact htext
  | cons hrest ih =>
    have hleft := ih htext.splitLine.2
    rw [lines_splitLine, List.drop_tail] at hleft
    exact hleft

namespace Told

variable {α : Type}

/-- What is noted in a diary that is empty at first. -/
def answersOf (x : Told α) (m : Machine) : List (Option Value) :=
  match x ⟨m, []⟩ with
  | .ok _ d => d.answers
  | .error _ d => d.answers

/-- A computation whose diary is thrown away. -/
def forget (x : Told α) : Run α := fun m ↦
  match x ⟨m, []⟩ with
  | .ok a d => .ok a d.machine
  | .error halt d => .error halt d.machine

theorem Tells.forget_eq {x : Told α} {y : Run α} (h : ∀ start, Tells start x y) : x.forget = y := by
  funext m
  have hends := h ⟨m, []⟩ ⟨m, []⟩ m ⟨rfl, .refl _⟩
  unfold forget
  generalize x ⟨m, []⟩ = r at hends ⊢
  generalize y m = r' at hends ⊢
  cases hends with
  | ok ha hs =>
    obtain ⟨rfl, -⟩ := hs
    exact congrArg (EStateM.Result.ok · _) ha
  | error he hs =>
    obtain ⟨rfl, -⟩ := hs
    exact congrArg (EStateM.Result.error · _) he

/-- What is noted was read, and what it leaves is the input of the machine in the end. -/
theorem Tells.reads {x : Told α} {y : Run α} (h : ∀ start, Tells start x y) (m : Machine) :
    EndsIn (fun m' ↦ Reads m.host.input (x.answersOf m) m'.host.input) y m := by
  have hends := h ⟨m, []⟩ ⟨m, []⟩ m ⟨rfl, .refl _⟩
  unfold answersOf EndsIn
  generalize x ⟨m, []⟩ = r at hends ⊢
  generalize y m = r' at hends ⊢
  cases hends with
  | ok ha hs =>
    obtain ⟨rfl, hleads⟩ := hs
    exact hleads.reads
  | error he hs =>
    obtain ⟨rfl, hleads⟩ := hs
    exact hleads.reads

end Told

namespace Session

/-- The program that a source is, if no error keeps it from being run. -/
def program? (s : Session) (source : String) : Option (List Stmt) :=
  let reading := readProgram s.nextId (tokens source)
  if lexicalErrors (scan source) = [] ∧ reading.errors = [] ∧
      (resolve reading.result).filterMap Finding.violation? = [] then some reading.result
  else none

/-- The expression that a source is, if no error keeps it from being evaluated. -/
def expression? (s : Session) (source : String) : Option Expr :=
  let reading := readExpression s.nextId (tokens source)
  if lexicalErrors (scan source) = [] ∧ reading.errors = [] then reading.result else none

/-- What the calls of `readline` come to that a request makes. -/
def answers (fuel : Nat) (s : Session) : Request → List (Option Value)
  | .run source =>
    match s.program? source with
    | some statements => (Told.program fuel statements).answersOf (s.resolved source).machine
    | none => []
  | .evaluate source =>
    match s.expression? source with
    | some e => (Told.evaluate fuel e).answersOf s.machine
    | none => []
  | _ => []

variable {s : Session} {fuel : Nat} {source : String} {step : Step}

theorem input_report (s : Session) (d : Diagnostic) :
    (s.report d).machine.host.input = s.machine.host.input := by
  have hwrite := s.machine.host.input_write .err (d.text ++ "\n")
  unfold report
  dsimp only
  generalize s.machine.host.write .err (d.text ++ "\n") = written at hwrite
  obtain ⟨result, host⟩ := written
  cases result with
  | ok _ =>
    calc (host.flush .err).2.input
      _ = host.input := host.input_flush .err
      _ = s.machine.host.input := hwrite
  | error failure => exact hwrite

/-- To report and to print reads nothing. -/
theorem persistent_input (P : List UInt8 → Prop) : Persistent fun s ↦ P s.machine.host.input where
  report d hs := by
    rw [input_report]
    exact hs
  print {s} text hs := by
    apply (EndsIn.of_moves (Machine.steady_input.printLine text) s.machine).mono
    intro m hkept
    exact hkept.symm ▸ hs

theorem reads_of_reject {t : Session} (ht : t.machine.host = s.machine.host)
    (ds : List Diagnostic) :
    Reads s.machine.host.input [] (t.reject ds).session.machine.host.input := by
  have hread : Reads s.machine.host.input [] t.machine.host.input := ht ▸ .nil _
  exact (persistent_input _).reportAll hread ds

/-- What a program reads, whether it ends or not. -/
theorem endsIn_program (s : Session) (source : String) (fuel : Nat) (statements : List Stmt) :
    EndsIn (fun m ↦ Reads s.machine.host.input
        ((Told.program fuel statements).answersOf (s.resolved source).machine) m.host.input)
      (Run.program fuel statements) (s.resolved source).machine :=
  Told.Tells.reads (fun _ ↦ Told.tells_program fuel statements) (s.resolved source).machine

theorem endsIn_evaluate (s : Session) (fuel : Nat) (e : Expr) :
    EndsIn (fun m ↦ Reads s.machine.host.input
        ((Told.evaluate fuel e).answersOf s.machine) m.host.input)
      (Run.evaluate fuel e) s.machine :=
  Told.Tells.reads (fun _ ↦ (Told.evaluate_and_execute fuel).1 e) s.machine

theorem answers_run (fuel : Nat) (s : Session) (source : String) :
    s.answers fuel (.run source) = (s.program? source).elim [] fun statements ↦
      (Told.program fuel statements).answersOf (s.resolved source).machine := by
  cases h : s.program? source <;> simp only [answers, h, Option.elim]

theorem answers_evaluate (fuel : Nat) (s : Session) (source : String) :
    s.answers fuel (.evaluate source) = (s.expression? source).elim [] fun e ↦
      (Told.evaluate fuel e).answersOf s.machine := by
  cases h : s.expression? source <;> simp only [answers, h, Option.elim]

theorem reads_of_run (hstep : s.run fuel source = some step) :
    Reads s.machine.host.input (s.answers fuel (.run source)) step.session.machine.host.input := by
  rw [answers_run]
  cases s.programFate source with
  | misread hsome hfails =>
    have hnone : s.program? source = none :=
      if_neg fun h ↦ hsome (programErrors_eq_nil_iff.2 ⟨h.1, h.2.1⟩)
    rw [hnone]
    rw [Session.run, hfails] at hstep
    cases hstep
    apply reads_of_reject
    rfl
  | violating _ _ hsome hfails =>
    have hnone : s.program? source = none := if_neg fun h ↦ hsome h.2.2
    rw [hnone]
    rw [Session.run, hfails] at hstep
    cases hstep
    apply reads_of_reject
    rfl
  | executed hlexical herrors hquiet hruns =>
    have hprogram : s.program? source = some (readProgram s.nextId (tokens source)).result :=
      if_pos ⟨hlexical, herrors, violations_eq_nil_iff.2 hquiet⟩
    rw [hprogram]
    exact (persistent_input (Reads s.machine.host.input _)).perform (s.endsIn_program source fuel _)
      ((hruns _).symm.trans hstep)

theorem reads_of_evaluate (hstep : s.evaluate fuel source = some step) :
    Reads s.machine.host.input (s.answers fuel (.evaluate source))
      step.session.machine.host.input := by
  rw [answers_evaluate]
  cases s.expressionFate source with
  | misread hsome hfails =>
    have hnone : s.expression? source = none :=
      if_neg fun h ↦ hsome (expressionErrors_eq_nil_iff.2 h)
    rw [hnone]
    rw [Session.evaluate, hfails] at hstep
    cases hstep
    apply reads_of_reject
    rfl
  | used e hresult hlexical herrors huses =>
    have hexpression : s.expression? source = some e := by
      rw [Session.expression?, if_pos ⟨hlexical, herrors⟩, hresult]
    have hpersistent := persistent_input (Reads s.machine.host.input
      ((Told.evaluate fuel e).answersOf s.machine))
    rw [hexpression]
    rw [Session.evaluate, huses] at hstep
    refine hpersistent.perform ?_ hstep
    exact (s.endsIn_evaluate fuel e).bind fun v m hm ↦
      hpersistent.print (s := { s with machine := m }) v.display hm

/-- What a request reads, and that it leaves the rest. -/
theorem reads_of_serve {request : Request} (hstep : s.serve fuel request = some step) :
    Reads s.machine.host.input (s.answers fuel request) step.session.machine.host.input := by
  cases request with
  | run source => exact reads_of_run hstep
  | evaluate source => exact reads_of_evaluate hstep
  | parse source => exact (persistent_input (Reads s.machine.host.input [])).parse (.nil _) hstep
  | tokenize json source =>
    cases hstep
    exact (persistent_input (Reads s.machine.host.input [])).listItems (.nil _) ..
  | reset =>
    cases hstep
    exact .nil _

/-- A request that is given too little fuel has read what it has read. -/
theorem exists_reads (s : Session) (fuel : Nat) (request : Request) :
    ∃ left, Reads s.machine.host.input (s.answers fuel request) left := by
  cases request with
  | run source =>
    rw [answers_run]
    cases s.program? source with
    | some ss =>
      obtain ⟨m, hreads⟩ := (s.endsIn_program source fuel ss).exists
      exact ⟨_, hreads⟩
    | none => exact ⟨_, .nil _⟩
  | evaluate source =>
    rw [answers_evaluate]
    cases s.expression? source with
    | some e =>
      obtain ⟨m, hreads⟩ := (s.endsIn_evaluate fuel e).exists
      exact ⟨_, hreads⟩
    | none => exact ⟨_, .nil _⟩
  | parse source => exact ⟨_, .nil _⟩
  | tokenize json source => exact ⟨_, .nil _⟩
  | reset => exact ⟨_, .nil _⟩

/-- The sessions that requests lead to from a host, each with what the calls of `readline` have come
to that all its programs made. -/
inductive Heard (host : Host) : Session → List (Option Value) → Prop
  | start : Heard host (.start host) []
  | serve {s : Session} {heard : List (Option Value)} (hs : Heard host s heard) (fuel : Nat)
      (request : Request) {step : Step} (hstep : s.serve fuel request = some step) :
      Heard host step.session (heard ++ s.answers fuel request)

variable {host : Host} {heard : List (Option Value)}

theorem Heard.reads (hs : s.Heard host heard) : Reads host.input heard s.machine.host.input := by
  induction hs with
  | start => exact .nil _
  | serve _ fuel request hstep ih => exact ih.append (reads_of_serve hstep)

/-- The calls of `readline` in a session, and in the request that is served last, whether that ends
or not: the k-th comes to the k-th line of the input, less all carriage returns and newlines at its
end, and to nil if there is no such line.  This is the line less its terminator unless a carriage
return stands in front of that.  Each call takes one line from the input, and to keep the diary that
tells all this changes nothing. -/
theorem Heard.answers_by_line {text : String} (htext : Utf8.decode host.input = .ok text)
    (hs : s.Heard host heard) (fuel : Nat) (request : Request) :
    ((∀ statements, (Told.program fuel statements).forget = Run.program fuel statements) ∧
      ∀ e, (Told.evaluate fuel e).forget = Run.evaluate fuel e) ∧
    Utf8.decode s.machine.host.input =
      .ok (.ofList ((lines '\n' text.toList).drop heard.length).flatten) ∧
    ∀ (k : Nat) answer, (heard ++ s.answers fuel request)[k]? = some answer →
      answer = some (lineValue trimmed (lines '\n' text.toList)[k]?) ∧
      ∀ line, (lines '\n' text.toList)[k]? = some line →
        (trimmed line = withoutTerminator line ↔
          (withoutTerminator line).getLast? ≠ some '\r') := by
  have hspells := Utf8.decode_eq_ok_iff.1 htext
  refine ⟨⟨fun ss ↦ ?_, fun e ↦ ?_⟩, ?_, fun k answer hk ↦ ⟨?_, fun line hline ↦ ?_⟩⟩
  · exact Told.Tells.forget_eq fun _ ↦ Told.tells_program fuel ss
  · exact Told.Tells.forget_eq fun _ ↦ (Told.evaluate_and_execute fuel).1 e
  · exact (hs.reads.spells_left hspells).decodeFrom_eq 0 []
  · obtain ⟨left, hlast⟩ := s.exists_reads fuel request
    exact (hs.reads.append hlast).eq_of_getElem? hspells hk
  · exact trimmed_eq_iff (not_mem_dropLast_of_mem_lines (List.mem_of_getElem? hline))

/-- Two programs that read three lines, one of them with a carriage return, and find no fourth. -/
theorem answers_by_line_three : ∃ host step answer,
    Utf8.decode host.input = .ok "a\r\n\nb" ∧
      (Session.start host).serve 20 (.run "readline();") = some step ∧
      step.session.Heard host ([] ++ (Session.start host).answers 20 (.run "readline();")) ∧
      ([] ++ (Session.start host).answers 20 (.run "readline();") ++
        step.session.answers 20 (.run "readline(); readline(); readline();"))[2]? = some answer ∧
      answer = some (lineValue trimmed (lines '\n' "a\r\n\nb".toList)[2]?) := by
  have htext : Utf8.decode [97, 13, 10, 10, 98] = .ok "a\r\n\nb" := by decide +kernel
  have hthird : (((Session.start { input := [97, 13, 10, 10, 98] }).serve 20
      (.run "readline();")).bind fun step ↦
        ([] ++ (Session.start { input := [97, 13, 10, 10, 98] }).answers 20 (.run "readline();") ++
          step.session.answers 20 (.run "readline(); readline(); readline();"))[2]?).isSome =
            true := by
    decide +kernel
  obtain ⟨answer, hbind⟩ := Option.isSome_iff_exists.1 hthird
  obtain ⟨step, hstep, hanswer⟩ := Option.bind_eq_some_iff.1 hbind
  have hheard := Heard.start.serve 20 _ hstep
  have hlines := hheard.answers_by_line htext 20 (.run "readline(); readline(); readline();")
  exact ⟨_, step, answer, htext, hstep, hheard, hanswer, (hlines.2.2 2 answer hanswer).1⟩

/-- A carriage return at the end of the input ends no line, and yet it is not read. -/
theorem carriage_return_lost :
    Utf8.decode [97, 13] = .ok "a\r" ∧ lines '\n' "a\r".toList = ["a\r".toList] ∧
      withoutTerminator "a\r".toList = "a\r".toList ∧
      ((Session.start { input := [97, 13] }).answers 20 (.run "print readline();")).map
          (Option.map Value.display) = [some "a"] ∧
      ((Session.start { input := [97, 13] }).run 20 "print readline();").map
          (·.session.machine.host.log) = some #[(.out, "a\n")] := by
  decide +kernel

end Session

end Lox
