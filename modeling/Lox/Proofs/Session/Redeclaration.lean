import Lox.Proofs.Machine.Untouched
import Lox.Proofs.Resolution.Occurrences
import Lox.Proofs.Session.Assignment
import Lox.Proofs.Session.Containment
import Lox.Proofs.Session.Standing

/-!
# Declarations that fail

A global variable may be declared again, and the declaration may fail.  A variable is bound once its
initializer has a value, so then it keeps the value it had.  A class is bound before its superclass
is evaluated, so its name loses that value and is nil.  Functions are declared without fail.
-/

namespace Lox

-- No program is computed to know how its declarations fail.
attribute [local irreducible] readProgram

namespace Run

variable {m m' : Machine} {name : Token} {v : Value}

theorem exists_finishClass (hcurrent : m.current = Machine.globals)
    (hbound : m.heap.get? Machine.globals name.lexeme = some v) (make : Layer → Class)
    (methods : List (String × Function)) : ∃ m', finishClass name make methods m = .ok () m' := by
  have hfresh : onHeap (·.freshIdentity) m =
      .ok m.heap.nextIdentity { m with heap := m.heap.freshIdentity.2 } := rfl
  have hholds : m.heap.freshIdentity.2.holds m.current name.lexeme = true := by
    rw [hcurrent]
    exact Option.isSome_iff_exists.2 ⟨v, hbound⟩
  rw [finishClass, Computation.bind_of_ok hfresh, Computation.get_bind]
  exact ⟨_, assignIn_of_holds (m := { m with heap := m.heap.freshIdentity.2 }) hholds _⟩

theorem exists_finishMethods (hcurrent : m.current = Machine.globals)
    (hbound : m.heap.get? Machine.globals name.lexeme = some v) (make : Layer → Class)
    (closure : ScopeRef) (methods : List (Routine Stmt)) :
    ∃ m', (methodsOf closure methods >>= finishClass name make) m = .ok () m' := by
  obtain ⟨fs, heap, hmade⟩ := exists_methodsOf closure methods m
  have hmethods : methodsOf closure methods m = .ok fs { m with heap := heap } := hmade m.current
  have hkept : m.KeepsGlobal name.lexeme { m with heap := heap } :=
    ((Machine.keepsGlobal_steady name.lexeme).methodsOf closure methods).of_ok hmethods
  obtain ⟨hcurrent₁, -, hvalue⟩ := hkept (Nat.zero_lt_of_lt (Heap.lt_size_of_get? hbound))
  rw [Computation.bind_of_ok hmethods]
  exact exists_finishClass (hcurrent₁.trans hcurrent) (hvalue.trans hbound) make fs

/-- How a declaration in the global scope fails of a name that is bound there: the name keeps its
value if a variable is declared, and loses it if a class is. -/
inductive FailedDeclaration (name : Token) (v : Value) (heap : Heap) : Stmt → Prop
  | var {initializer : Expr} (hkept : heap.get? Machine.globals name.lexeme = some v) :
      FailedDeclaration name v heap (.var name (some initializer))
  | classDecl {superclass : Expr} {methods : List (Routine Stmt)}
      (hlost : heap.get? Machine.globals name.lexeme = some .nil) :
      FailedDeclaration name v heap (.classDecl name (some superclass) methods)

section Declarations

variable {evaluate : Expr → Run Value} {execute : Stmt → Run Flow} {halt : Halt}

theorem failedDeclaration_var (hevaluate : ∀ e, KeepsGlobal name.lexeme (evaluate e))
    (hbound : m.heap.get? Machine.globals name.lexeme = some v) {initializer : Option Expr}
    {rounds : Nat}
    (hfails : executeWith evaluate execute rounds (.var name initializer) m = .error halt m') :
    FailedDeclaration name v m'.heap (.var name initializer) := by
  have hsize := Nat.zero_lt_of_lt (Heap.lt_size_of_get? hbound)
  cases initializer with
  | none => cases hfails
  | some e =>
    cases hvalue : evaluate e m with
    | ok w m₁ =>
      have hok : executeWith evaluate execute rounds (.var name (some e)) m = .ok _ _ :=
        Computation.bind_of_ok hvalue
      rw [hok] at hfails
      cases hfails
    | error halt₁ m₁ =>
      have herror : executeWith evaluate execute rounds (.var name (some e)) m = .error halt₁ m₁ :=
        Computation.bind_of_error hvalue
      rw [herror] at hfails
      cases hfails
      obtain ⟨-, -, hkept⟩ := (hevaluate e).of_error hvalue hsize
      exact .var (hkept.trans hbound)

/-- Once its superclass has a value that is a class, a class is declared without fail. -/
theorem exists_declareClass_of_superclass {e : Expr} {c : Class} {m₁ m₂ : Machine}
    (hdefine : define name.lexeme .nil m = .ok () m₁) (hsuper : evaluate e m₁ = .ok (.cls c) m₂)
    (hcurrent : m₂.current = Machine.globals)
    (hbound : m₂.heap.get? Machine.globals name.lexeme = some v) (methods : List (Routine Stmt)) :
    ∃ m', declareClass evaluate name (some e) methods m = .ok () m' := by
  let bindings : Bindings Value := .ofList [("super", .cls c)]
  let m₃ : Machine := { m₂ with heap := (m₂.heap.openScope (some m₂.current) bindings).2 }
  have hopen : openScope m₂.current bindings m₂ = .ok m₂.heap.scopes.size m₃ := rfl
  have hopened : m₂.KeepsGlobal name.lexeme m₃ :=
    ((Machine.keepsGlobal_steady name.lexeme).openScope m₂.current bindings).of_ok hopen
  obtain ⟨-, -, hkept⟩ := hopened (Nat.zero_lt_of_lt (Heap.lt_size_of_get? hbound))
  obtain ⟨m₄, hfinish⟩ := exists_finishMethods (m := m₃) hcurrent (hkept.trans hbound)
    (.derived · c) m₂.heap.scopes.size methods
  refine ⟨m₄, ?_⟩
  calc declareClass evaluate name (some e) methods m
    _ = (evaluate e >>= _) m₁ := by
      rw [declareClass_eq_methodsOf]
      exact Computation.bind_of_ok hdefine
    _ = (openScope m₂.current bindings >>= fun closure ↦
        methodsOf closure methods >>= finishClass name (.derived · c)) m₂ :=
      Computation.bind_of_ok hsuper
    _ = (methodsOf m₂.heap.scopes.size methods >>= finishClass name (.derived · c)) m₃ :=
      Computation.bind_of_ok hopen
    _ = .ok () m₄ := hfinish

/-- A class declaration that fails has a superclass, and leaves nil behind. -/
theorem nil_of_declareClass (hevaluate : ∀ e, KeepsGlobal name.lexeme (evaluate e))
    (hhome : m.current = Machine.globals)
    (hbound : m.heap.get? Machine.globals name.lexeme = some v) {superclass : Option Expr}
    {methods : List (Routine Stmt)}
    (hfails : declareClass evaluate name superclass methods m = .error halt m') :
    (∃ e, superclass = some e) ∧ m'.heap.get? Machine.globals name.lexeme = some .nil := by
  have hsize := Nat.zero_lt_of_lt (Heap.lt_size_of_get? hbound)
  let m₁ : Machine := { m with heap := m.heap.define m.current name.lexeme .nil }
  have hdefine : define name.lexeme .nil m = .ok () m₁ := rfl
  have hnil : m₁.heap.get? Machine.globals name.lexeme = some .nil := by
    change (m.heap.define m.current name.lexeme .nil).get? _ _ = _
    rw [hhome]
    calc (m.heap.define Machine.globals name.lexeme .nil).get? Machine.globals name.lexeme
      _ = if name.lexeme = name.lexeme then some .nil else
          m.heap.get? Machine.globals name.lexeme := m.heap.get?_define hsize ..
      _ = some .nil := if_pos rfl
  have hsize₁ := Nat.zero_lt_of_lt (Heap.lt_size_of_get? hnil)
  cases superclass with
  | none =>
    obtain ⟨m₂, hfinish⟩ := exists_finishMethods (m := m₁) hhome hnil .root m₁.current methods
    have hdone : declareClass evaluate name none methods m = .ok () m₂ := by
      calc declareClass evaluate name none methods m
        _ = (methodsOf m₁.current methods >>= finishClass name .root) m₁ :=
          Computation.bind_of_ok hdefine
        _ = .ok () m₂ := hfinish
    rw [hdone] at hfails
    cases hfails
  | some e =>
    refine ⟨⟨e, rfl⟩, ?_⟩
    cases hsuper : evaluate e m₁ with
    | error halt₁ m₂ =>
      have hdone : declareClass evaluate name (some e) methods m = .error halt₁ m₂ := by
        calc declareClass evaluate name (some e) methods m
          _ = (evaluate e >>= _) m₁ := Computation.bind_of_ok hdefine
          _ = .error halt₁ m₂ := Computation.bind_of_error hsuper
      rw [hdone] at hfails
      cases hfails
      obtain ⟨-, -, hkept⟩ := (hevaluate e).of_error hsuper hsize₁
      exact hkept.trans hnil
    | ok w m₂ =>
      obtain ⟨hcurrent, -, hkept⟩ := (hevaluate e).of_ok hsuper hsize₁
      cases w with
      | cls c =>
        obtain ⟨m₃, hdone⟩ := exists_declareClass_of_superclass hdefine hsuper
          (hcurrent.trans hhome) (hkept.trans hnil) methods
        rw [hdone] at hfails
        cases hfails
      | _ =>
        have hdone : declareClass evaluate name (some e) methods m =
            .error (.fault (superclassToken name e).line .superclassNotClass) m₂ := by
          calc declareClass evaluate name (some e) methods m
            _ = (evaluate e >>= _) m₁ := Computation.bind_of_ok hdefine
            _ = .error _ m₂ := Computation.bind_of_ok hsuper
        rw [hdone] at hfails
        cases hfails
        exact hkept.trans hnil

theorem failedDeclaration_class (hevaluate : ∀ e, KeepsGlobal name.lexeme (evaluate e))
    (hhome : m.current = Machine.globals)
    (hbound : m.heap.get? Machine.globals name.lexeme = some v) {superclass : Option Expr}
    {methods : List (Routine Stmt)} {rounds : Nat}
    (hfails : executeWith evaluate execute rounds (.classDecl name superclass methods) m =
      .error halt m') :
    FailedDeclaration name v m'.heap (.classDecl name superclass methods) := by
  cases hdeclare : declareClass evaluate name superclass methods m with
  | ok _ m₁ =>
    have hok : executeWith evaluate execute rounds (.classDecl name superclass methods) m =
        .ok _ _ := Computation.bind_of_ok hdeclare
    rw [hok] at hfails
    cases hfails
  | error halt₁ m₁ =>
    have herror : executeWith evaluate execute rounds (.classDecl name superclass methods) m =
        .error halt₁ m₁ := Computation.bind_of_error hdeclare
    rw [herror] at hfails
    cases hfails
    obtain ⟨⟨e, rfl⟩, hnil⟩ := nil_of_declareClass hevaluate hhome hbound hdeclare
    exact .classDecl hnil

end Declarations

/-- A declaration at the top of a program, of a name that is bound, that fails though it evaluates
no assignment to that name. -/
theorem failedDeclaration {stmt : Stmt} {fuel : Nat} {halt : Halt}
    (hhome : m.current = Machine.globals) (hname : stmt.ownName = [name])
    (hbound : m.heap.get? Machine.globals name.lexeme = some v)
    (hunassigned : executeOverseen (demandUnassigned name.lexeme .exhausted) fuel stmt m =
      execute fuel stmt m)
    (hfails : execute fuel stmt m = .error halt m') (hhalt : halt ≠ .exhausted) :
    FailedDeclaration name v m'.heap stmt := by
  cases fuel with
  | zero =>
    rw [execute] at hfails
    cases hfails
    exact absurd rfl hhalt
  | succ fuel =>
    have hevaluate := (unassigned_keeps name.lexeme .exhausted fuel).1
    have hpass : (demandUnassigned name.lexeme .exhausted).statement stmt = pure () :=
      ensure_true .exhausted
    rw [← hunassigned, executeOverseen, hpass, pure_bind] at hfails
    cases stmt with
    | var target initializer =>
      cases hname
      exact failedDeclaration_var hevaluate hbound hfails
    | classDecl target superclass methods =>
      cases hname
      exact failedDeclaration_class hevaluate hhome hbound hfails
    | function routine => cases hfails
    | _ => cases hname

theorem unassigned_variable (alarm : Halt) (fuel : Nat) (id : NodeId) (t : Token) :
    evaluateOverseen (demandUnassigned name.lexeme alarm) fuel (.var id t) =
      evaluate fuel (.var id t) := by
  cases fuel with
  | zero => rfl
  | succ fuel =>
    have hunset : ensure (fun m ↦ ¬m.Reassigns name.lexeme (.var id t)) alarm = pure () :=
      funext fun m ↦ ensure_of_property (by rintro ⟨_, _, _, ⟨⟩, _⟩) alarm
    have hpass : (demandUnassigned name.lexeme alarm).expression (.var id t) = pure () := hunset
    rw [evaluateOverseen, hpass, pure_bind, evaluate]
    rfl

theorem unassigned_statement (alarm : Halt) {fuel : Nat} {stmt : Stmt}
    (h : ∀ fuel, executeWith (evaluateOverseen (demandUnassigned name.lexeme alarm) fuel)
      (executeOverseen (demandUnassigned name.lexeme alarm) fuel) fuel stmt =
        executeWith (evaluate fuel) (execute fuel) fuel stmt) :
    executeOverseen (demandUnassigned name.lexeme alarm) fuel stmt = execute fuel stmt := by
  cases fuel with
  | zero => rfl
  | succ fuel =>
    have hpass : (demandUnassigned name.lexeme alarm).statement stmt = pure () := ensure_true alarm
    rw [executeOverseen, hpass, pure_bind, execute]
    exact h fuel

/-- A variable in the place of an initializer assigns nothing. -/
theorem unassigned_initializer (alarm : Halt) (fuel : Nat) (name : Token) (id : NodeId)
    (t : Token) :
    executeOverseen (demandUnassigned name.lexeme alarm) fuel (.var name (some (.var id t))) =
      execute fuel (.var name (some (.var id t))) := by
  refine unassigned_statement alarm fun fuel ↦ ?_
  simp only [executeWith, valueOrNil, unassigned_variable]

/-- And neither does one in the place of a superclass. -/
theorem unassigned_superclass (alarm : Halt) (fuel : Nat) (name : Token) (id : NodeId)
    (t : Token) (methods : List (Routine Stmt)) :
    executeOverseen (demandUnassigned name.lexeme alarm) fuel
        (.classDecl name (some (.var id t)) methods) =
      execute fuel (.classDecl name (some (.var id t)) methods) := by
  refine unassigned_statement alarm fun fuel ↦ ?_
  simp only [executeWith, declareClass, unassigned_variable]

theorem sparing_each (fuel : Nat) (statements : List Stmt) : Sparing (each fuel statements) := by
  induction statements with
  | nil => exact .pure _
  | cons s rest ih => exact ((Sparing.evaluate_and_execute fuel).2 s).bind fun _ ↦ ih

end Run

/-! ### Sessions -/

namespace Session

variable {s : Session} {known : List Site} {source : String} {fuel : Nat} {before after : List Stmt}
  {stmt : Stmt} {m m' : Machine} {halt : Halt} {d : Diagnostic}

/-- A statement of an accepted program that fails is the last one that is executed. -/
theorem run_of_failing (hsource : Accepted source)
    (hprogram : (readProgram s.nextId (tokens source)).result = before ++ stmt :: after)
    (hbefore : Run.each fuel before (s.resolved source).machine = .ok () m)
    (hfails : Run.execute fuel stmt m = .error halt m') (hd : halt.diagnostic? = some d) :
    s.run fuel source =
      some ⟨.runtimeError, [d], report { s.resolved source with machine := m' } d⟩ := by
  have herror : Run.program fuel (before ++ stmt :: after) (s.resolved source).machine =
      .error halt m' := by
    calc
      _ = Run.program fuel (stmt :: after) m := Run.program_append_of_ok hbefore _
      _ = .error halt m' := Computation.bind_of_error hfails
  rw [run, runWith_of_accepted hsource, hprogram, perform, herror]
  dsimp only
  rw [hd, Option.map_some]

/-- A declaration at the top of an accepted program, of a name that is bound, fails while nothing
that it evaluates assigns to that name.  Then it is either that of a variable, whose name is still
bound to the value it had; or that of a class with a superclass, whose name is bound to nil, since a
class is bound before its superclass is evaluated.  Functions are declared without fail. -/
theorem Reachable.failed_declaration (hs : s.Reachable known) (hsource : Accepted source)
    (hprogram : (readProgram s.nextId (tokens source)).result = before ++ stmt :: after)
    {name : Token} (hname : stmt.ownName = [name])
    (hbefore : Run.each fuel before (s.resolved source).machine = .ok () m) {v : Value}
    (hbound : m.heap.get? Machine.globals name.lexeme = some v)
    (hunassigned : Run.executeOverseen (Run.demandUnassigned name.lexeme .exhausted) fuel stmt m =
      Run.execute fuel stmt m)
    (hfails : Run.execute fuel stmt m = .error halt m') (hd : halt.diagnostic? = some d) :
    ∃ step, s.run fuel source = some step ∧ step.outcome = .runtimeError ∧ step.reported = [d] ∧
      Run.FailedDeclaration name v step.session.machine.heap stmt := by
  have hrun := run_of_failing hsource hprogram hbefore hfails hd
  have hstart : (s.resolved source).machine.current = Machine.globals := hs.sound.home.1
  have hhome : m.current = Machine.globals := by
    calc m.current
      _ = (s.resolved source).machine.current :=
        ((Run.sparing_each fuel before).of_ok hbefore).follows.current
      _ = Machine.globals := hstart
  have hhalt : halt ≠ .exhausted := by
    rintro rfl
    cases hd
  have hfailed := Run.failedDeclaration hhome hname hbound hunassigned hfails hhalt
  exact ⟨_, hrun, rfl, rfl, hfailed⟩

/-- Execute two statements, of which the second declares a variable with another one for its
initializer: what its name was bound to before, and what is reported. -/
def redeclareVariable (s : Session) (source : String) :
    Option (Option String × Option Diagnostic) :=
  match (readProgram s.nextId (tokens source)).result with
  | [first, .var name (some (.var id t))] =>
    match Run.each 20 [first] (s.resolved source).machine with
    | .ok () m =>
      match Run.execute 20 (.var name (some (.var id t))) m with
      | .error halt _ =>
        some ((m.heap.get? Machine.globals name.lexeme).map Value.display, halt.diagnostic?)
      | _ => none
    | _ => none
  | _ => none

/-- A variable that is declared again, with an initializer that is not defined, is still true. -/
theorem failed_declaration_of_missing : ∃ first known step name initializer v,
    (Session.start {}).serve 20 (.run "var a = true;") = some first ∧
      first.session.Reachable known ∧
      first.session.run 20 "print a; var a = missing;" = some step ∧ v.display = "true" ∧
      Run.FailedDeclaration name v step.session.machine.heap (.var name initializer) := by
  have haccepted : Accepted "print a; var a = missing;" := by decide +kernel
  have hruns : ((Session.start {}).serve 20 (.run "var a = true;")).bind
      (fun first ↦ first.session.redeclareVariable "print a; var a = missing;") =
        some (some "true", some (.runtime 1 (.undefinedVariable "missing"))) := by
    decide +kernel
  obtain ⟨first, hfirst, hrest⟩ := Option.bind_eq_some_iff.1 hruns
  have hreachable := (Session.Reachable.start {}).serve 20 _ hfirst
  unfold redeclareVariable at hrest
  split at hrest
  · rename_i before name id t hprogram
    split at hrest
    · rename_i m hbefore
      split at hrest
      · rename_i halt m' hfails
        rw [Option.some_inj, Prod.mk.injEq, Option.map_eq_some_iff] at hrest
        obtain ⟨⟨v, hbound, hdisplay⟩, hd⟩ := hrest
        have hunassigned := congrFun (Run.unassigned_initializer .exhausted 20 name id t) m
        have hlast :
            (readProgram first.session.nextId (tokens "print a; var a = missing;")).result =
              [before] ++ .var name (some (.var id t)) :: [] := hprogram
        obtain ⟨step, hstep, -, -, hfailed⟩ := hreachable.failed_declaration haccepted hlast rfl
          hbefore hbound hunassigned hfails hd
        exact ⟨first, _, step, name, _, v, hfirst, hreachable, hstep, hdisplay, hfailed⟩
      · cases hrest
    · cases hrest
  · cases hrest

/-- Execute the declaration of a class without methods, below a variable: what its name was bound to
before, what is reported, and what it is bound to then. -/
def redeclareClass (s : Session) (source : String) :
    Option (Option String × Option Diagnostic × Option String) :=
  match (readProgram s.nextId (tokens source)).result with
  | [.classDecl name (some (.var id t)) []] =>
    match Run.execute 20 (.classDecl name (some (.var id t)) []) (s.resolved source).machine with
    | .error halt m' =>
      some (((s.resolved source).machine.heap.get? Machine.globals name.lexeme).map Value.display,
        halt.diagnostic?, (m'.heap.get? Machine.globals name.lexeme).map Value.display)
    | _ => none
  | _ => none

/-- A class that is declared again, with a superclass that is no class, is nil. -/
theorem class_lost_with_superclass : ∃ (s : Session) (known : List Site), ∃ stmt name m m' v halt d,
    s.Reachable known ∧ Accepted "class A < B {}" ∧
      (readProgram s.nextId (tokens "class A < B {}")).result = [] ++ stmt :: [] ∧
      stmt.ownName = [name] ∧
      Run.each 20 [] (s.resolved "class A < B {}").machine = .ok () m ∧
      m.heap.get? Machine.globals name.lexeme = some v ∧
      Run.executeOverseen (Run.demandUnassigned name.lexeme .exhausted) 20 stmt m =
        Run.execute 20 stmt m ∧
      Run.execute 20 stmt m = .error halt m' ∧ halt.diagnostic? = some d ∧
      m'.heap.get? Machine.globals name.lexeme ≠ some v := by
  have haccepted : Accepted "class A < B {}" := by decide +kernel
  have hruns : ((Session.start {}).serve 20 (.run "class A {} var B = true;")).bind
      (fun first ↦ first.session.redeclareClass "class A < B {}") =
        some (some "A", some (.runtime 1 .superclassNotClass), some "nil") := by
    decide +kernel
  obtain ⟨first, hfirst, hrest⟩ := Option.bind_eq_some_iff.1 hruns
  have hreachable := (Session.Reachable.start {}).serve 20 _ hfirst
  unfold redeclareClass at hrest
  split at hrest
  · rename_i name id t hprogram
    split at hrest
    · rename_i halt m' hfails
      rw [Option.some_inj, Prod.mk.injEq, Prod.mk.injEq, Option.map_eq_some_iff] at hrest
      obtain ⟨⟨v, hbound, hdisplay⟩, hd, hafter⟩ := hrest
      have hunassigned := congrFun (Run.unassigned_superclass .exhausted 20 name id t [])
        (first.session.resolved "class A < B {}").machine
      refine ⟨first.session, _, _, name, _, m', v, halt, _, hreachable, haccepted, hprogram, rfl,
        rfl, hbound, hunassigned, hfails, hd, fun hkept ↦ ?_⟩
      rw [hkept, Option.map_some, hdisplay] at hafter
      exact absurd hafter (by decide)
    · cases hrest
  · cases hrest

end Session

end Lox
