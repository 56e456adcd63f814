import Lox.Proofs.Machine.Census
import Lox.Proofs.Machine.Fields

/-!
# Access to methods and fields

A property of an instance is a field, or else the method that the search from its class finds, bound
to the instance.  The same search finds the methods of superclasses, the initializer that a call of
a class runs and so the number of arguments that the call takes (`Machine.Accesses`).  What it is
known to find, it is known to find in whatever state a machine evaluates an expression
(`Census.Covers.surveys`).
-/

namespace Lox

open Lox.Computation (EndsIn)

/-- A copy of a method for which `this` is an instance. -/
structure Function.CopyOf (f method : Function) (i : Instance) (h : Heap) : Prop where
  routine : f.routine = method.routine
  isInitializer : f.isInitializer = method.isInitializer
  this : h.get? f.closure "this" = some (.instance i)
  closure : h.parent? f.closure = some method.closure

namespace Run

theorem bindMethod_copies (method : Function) (i : Instance) (m : Machine) :
    ∃ f m', bindMethod method i m = .ok f m' ∧ f.CopyOf method i m'.heap ∧
      m'.heap.fields = m.heap.fields :=
  ⟨_, _, rfl, ⟨rfl, rfl, Heap.get?_openScope_self .., Heap.parent?_openScope_self ..⟩, rfl⟩

/-- The method that has been found is bound to an instance, if there is one. -/
structure Binds (found? : Option Function) (i : Instance) (name : Token) (m : Machine)
    (result : EStateM.Result Halt Machine Value) : Prop where
  found : ∀ method, found? = some method → ∃ f m', result = .ok (.function f) m' ∧
    f.CopyOf method i m'.heap
  missing : found? = none → result = .error (.fault name.line (.undefinedProperty name.lexeme)) m

/-- The number of parameters of an initializer, if there is one. -/
def parameters (init? : Option Function) : Nat :=
  init?.elim 0 (·.routine.params.length)

/-- An instance without fields is made, for which the initializer is run that has been found.  A
call takes as many arguments as this has parameters. -/
structure Initializes (init? : Option Function) (c : Class) (fuel : Nat) (paren : Token)
    (arguments : List Value) (m : Machine) (result : EStateM.Result Halt Machine Value) : Prop where
  refused : arguments.length ≠ parameters init? → result =
    .error (.fault paren.line (.wrongArity (parameters init?) arguments.length)) m
  run : ∀ init, init? = some init → arguments.length = parameters init? →
    ∃ f m', f.CopyOf init ⟨m.heap.fields.size, c⟩ m'.heap ∧
      m'.heap.fields = m.heap.fields.push {} ∧
      result = (do
        let _ ← callFunction (execute fuel) f arguments
        return .instance ⟨m.heap.fields.size, c⟩ : Run Value) m'
  plain : init? = none → arguments.length = parameters init? →
    result = .ok (.instance ⟨m.heap.fields.size, c⟩) { m with heap := (m.heap.instantiate c).2 }

end Run

/-- What an expression gives that asks for a property or a method, sets a field or calls a class. -/
def Machine.Accesses (m : Machine) : Expr → Prop
  | .get object name => ∀ fuel i m', Run.evaluate fuel object m = .ok (.instance i) m' →
    (∀ v, (m'.heap.fieldsOf i).get? name.lexeme = some v →
      Run.evaluate (fuel + 1) (.get object name) m = .ok v m') ∧
    ((m'.heap.fieldsOf i).get? name.lexeme = none →
      Run.Binds (i.cls.findMethod? name.lexeme) i name m'
        (Run.evaluate (fuel + 1) (.get object name) m))
  | .set object name value => ∀ fuel i m₁ v m₂,
    Run.evaluate fuel object m = .ok (.instance i) m₁ → Run.evaluate fuel value m₁ = .ok v m₂ →
    ∃ m', Run.evaluate (fuel + 1) (.set object name value) m = .ok v m' ∧
      (m'.heap.fieldsOf i).get? name.lexeme = some v
  | .super id keyword method => ∀ fuel depth c i, m.addresses[id]? = some depth →
    m.heap.getAt? m.current depth keyword.lexeme = some (.cls c) →
    m.heap.getAt? m.current (depth - 1) "this" = some (.instance i) →
    Run.Binds (c.findMethod? method.lexeme) i method m
      (Run.evaluate (fuel + 1) (.super id keyword method) m)
  | .call callee paren es => ∀ fuel c m₁ arguments m₂,
    Run.evaluate fuel callee m = .ok (.cls c) m₁ →
    Run.valuesOf (Run.evaluate fuel) es m₁ = .ok arguments m₂ →
    Run.Initializes (c.findMethod? Class.initializerName) c fuel paren arguments m₂
      (Run.evaluate (fuel + 1) (.call callee paren es) m)
  | _ => True

/-- What is known wherever an expression is evaluated: methods are found, also those of the value
that it gives, and access is through what is found. -/
structure Machine.Surveys (m : Machine) (e : Expr) : Prop where
  known : FindsMethods m.heap.Knows
  value : ∀ fuel v m', Run.evaluate fuel e m = .ok v m' → FindsMethods (m'.heap.KnowsWith v)
  accesses : m.Accesses e

namespace Run

variable {fuel : Nat} {i : Instance} {m m₁ m₂ : Machine}

theorem Binds.intro {found? : Option Function} {name : Token}
    {result : EStateM.Result Halt Machine Value}
    (hfound : ∀ method, found? = some method →
      result = (do return .function (← bindMethod method i) : Run Value) m)
    (hmissing : found? = none →
      result = .error (.fault name.line (.undefinedProperty name.lexeme)) m) :
    Binds found? i name m result := by
  refine ⟨fun method hmethod ↦ ?_, hmissing⟩
  obtain ⟨f, m', hbind, hcopy, -⟩ := bindMethod_copies method i m
  refine ⟨f, m', ?_, hcopy⟩
  rw [hfound method hmethod, Computation.bind_of_ok hbind]
  rfl

theorem evaluate_get_field {object : Expr} {name : Token} {v : Value}
    (hobject : evaluate fuel object m = .ok (.instance i) m₁)
    (hv : (m₁.heap.fieldsOf i).get? name.lexeme = some v) :
    evaluate (fuel + 1) (.get object name) m = .ok v m₁ := by
  calc evaluate (fuel + 1) (.get object name) m
    _ = property i name m₁ := by
      rw [evaluate, evaluateWith, Computation.bind_of_ok hobject]
      rfl
    _ = .ok v m₁ := by
      rw [property, Computation.get_bind, hv]
      rfl

theorem evaluate_get_method {object : Expr} {name : Token}
    (hobject : evaluate fuel object m = .ok (.instance i) m₁)
    (hnone : (m₁.heap.fieldsOf i).get? name.lexeme = none) :
    Binds (i.cls.findMethod? name.lexeme) i name m₁
      (evaluate (fuel + 1) (.get object name) m) := by
  rw [evaluate, evaluateWith, Computation.bind_of_ok hobject]
  dsimp only
  rw [liftM_self, property, Computation.get_bind, hnone]
  dsimp only
  apply Binds.intro
  · intro method hmethod
    rw [hmethod]
  · intro hmissing
    rw [hmissing]
    rfl

theorem evaluate_super {id : NodeId} {keyword method : Token} {depth : Nat} {c : Class}
    (hdepth : m.addresses[id]? = some depth)
    (hc : m.heap.getAt? m.current depth keyword.lexeme = some (.cls c))
    (hi : m.heap.getAt? m.current (depth - 1) "this" = some (.instance i)) :
    Binds (c.findMethod? method.lexeme) i method m
      (evaluate (fuel + 1) (.super id keyword method) m) := by
  rw [evaluate, evaluateWith, liftM_self, superMethod_of_found method hdepth hc hi]
  apply Binds.intro
  · intro found hfound
    rw [hfound]
  · intro hmissing
    rw [hmissing]

/-- A field has the value that it is set to, if the instance is there. -/
theorem evaluate_set {object value : Expr} {name : Token} {v : Value}
    (hobject : evaluate fuel object m = .ok (.instance i) m₁)
    (hvalue : evaluate fuel value m₁ = .ok v m₂) (hi : i.ref < m₂.heap.fields.size) :
    ∃ m', evaluate (fuel + 1) (.set object name value) m = .ok v m' ∧
      (m'.heap.fieldsOf i).get? name.lexeme = some v := by
  refine ⟨{ m₂ with heap := m₂.heap.setField i name.lexeme v }, ?_, Heap.get?_setField hi⟩
  rw [evaluate, evaluateWith, Computation.bind_of_ok hobject]
  dsimp only
  rw [Computation.bind_of_ok hvalue]
  rfl

theorem arity_eq_parameters (c : Class) :
    c.arity = parameters (c.findMethod? Class.initializerName) := by
  rw [Class.arity]
  cases c.findMethod? Class.initializerName with
  | _ => rfl

theorem evaluate_call {callee : Expr} {paren : Token} {es : List Expr} {c : Class}
    {arguments : List Value} (hcallee : evaluate fuel callee m = .ok (.cls c) m₁)
    (harguments : valuesOf (evaluate fuel) es m₁ = .ok arguments m₂) :
    Initializes (c.findMethod? Class.initializerName) c fuel paren arguments m₂
      (evaluate (fuel + 1) (.call callee paren es) m) := by
  have hcall : arguments.length = parameters (c.findMethod? Class.initializerName) →
      evaluate (fuel + 1) (.call callee paren es) m = construct (execute fuel) c arguments m₂ := by
    intro hlength
    rw [evaluate, evaluateWith, Computation.bind_of_ok hcallee]
    dsimp only [Value.callee?]
    rw [Computation.bind_of_ok harguments]
    exact congrFun (if_neg (not_not.2 (hlength.trans (arity_eq_parameters c).symm))) m₂
  have hnew : onHeap (·.instantiate c) m₂ = .ok ⟨m₂.heap.fields.size, c⟩
      { m₂ with heap := (m₂.heap.instantiate c).2 } := rfl
  refine ⟨fun hlength ↦ ?_, fun init hinit hlength ↦ ?_, fun hinit hlength ↦ ?_⟩
  · rw [evaluate, evaluateWith, Computation.bind_of_ok hcallee]
    dsimp only [Value.callee?]
    rw [Computation.bind_of_ok harguments, ← arity_eq_parameters]
    exact congrFun (if_pos fun heq ↦ hlength (heq.trans (arity_eq_parameters c))) m₂
  · obtain ⟨f, m', hbind, hcopy, hfields⟩ := bindMethod_copies init ⟨m₂.heap.fields.size, c⟩
      { m₂ with heap := (m₂.heap.instantiate c).2 }
    refine ⟨f, m', hcopy, hfields, ?_⟩
    rw [hcall hlength, construct, liftM_self, Computation.bind_of_ok hnew, hinit]
    exact Computation.bind_of_ok hbind
  · rw [hcall hlength, construct, liftM_self, Computation.bind_of_ok hnew, hinit]
    rfl

end Run

/-- All that a machine holds is on a census. -/
def Machine.Counted (m : Machine) : Prop :=
  ∃ w : Census, w.Covers m.heap

/-- Halt with an alarm where it is not known of classes and access what should be. -/
noncomputable def Run.demandSurvey (alarm : Halt) : Oversight :=
  .demanding (fun e m ↦ m.Surveys e) (fun _ m ↦ FindsMethods m.heap.Knows) alarm alarm

namespace Census.Covers

variable {w : Census} {m m' : Machine} (hw : w.Covers m.heap)
include hw

theorem evaluate {fuel : Nat} {e : Expr} {v : Value} (h : Run.evaluate fuel e m = .ok v m') :
    ∃ w', w.Grows w' ∧ w'.Covers m'.heap ∧ w'.Has v := by
  rw [← (Run.overseen_blind fuel).1, ← Oversight.demanding_nothing .exhausted .exhausted] at h
  have hmeets := course_meets (fun _ _ ↦ trivial) fun _ _ ↦ trivial
  exact ((Course.evaluate_and_execute_track hmeets _ _ fuel).1 e w m hw).of_ok v m' h

theorem accesses (e : Expr) : m.Accesses e := by
  cases e with
  | get object name =>
    intro fuel i m' hobject
    exact ⟨fun _ ↦ Run.evaluate_get_field hobject, Run.evaluate_get_method hobject⟩
  | set object name value =>
    intro fuel i m₁ v m₂ hobject hvalue
    obtain ⟨w₁, -, hw₁, hi⟩ := hw.evaluate hobject
    obtain ⟨w₂, hgrows, hw₂, -⟩ := hw₁.evaluate hvalue
    exact Run.evaluate_set hobject hvalue (hw₂.instances ▸ ((hi.mono hgrows).inst i rfl).2)
  | super id keyword method =>
    intro fuel depth c i hdepth hc hi
    exact Run.evaluate_super hdepth hc hi
  | call callee paren es =>
    intro fuel c m₁ arguments m₂ hcallee harguments
    exact Run.evaluate_call hcallee harguments
  | _ => trivial

/-- Wherever a census covers the machine, all is known that is to be known of an expression. -/
theorem surveys (e : Expr) : m.Surveys e where
  known := hw.pedigree_knows.findsMethods
  value fuel v m' hv := by
    obtain ⟨w', -, hw', hhas⟩ := hw.evaluate hv
    exact (hw'.pedigree_knowsWith hhas).findsMethods
  accesses := hw.accesses e

end Census.Covers

theorem Census.meets_survey : Census.course.Meets (fun e m ↦ m.Surveys e) (fun _ _ ↦ True)
    (fun _ m ↦ FindsMethods m.heap.Knows) fun _ _ ↦ True :=
  course_meets (fun e hw ↦ hw.surveys e) fun _ hw ↦ hw.pedigree_knows.findsMethods

namespace Machine.Counted

variable {m : Machine} (hm : m.Counted) (alarm : Halt) (fuel : Nat)
include hm

/-- What should be known may be demanded everywhere, and machines stay counted. -/
theorem evaluate (e : Expr) :
    Run.evaluateOverseen (Run.demandSurvey alarm) fuel e m = Run.evaluate fuel e m ∧
      EndsIn Counted (Run.evaluate fuel e) m := by
  obtain ⟨w, hw⟩ := hm
  have htracks :=
    (Course.evaluate_and_execute_track Census.meets_survey alarm alarm fuel).1 e w m hw
  rw [Oversight.demanding_nothing, (Run.overseen_blind fuel).1] at htracks
  exact ⟨htracks.alike, htracks.endsIn fun w' _ hw' ↦ ⟨w', hw'⟩⟩

theorem program (statements : List Stmt) :
    Run.programOverseen (Run.demandSurvey alarm) fuel statements m = Run.program fuel statements m ∧
      EndsIn Counted (Run.program fuel statements) m := by
  obtain ⟨w, hw⟩ := hm
  have htracks := Course.program_tracks Census.meets_survey alarm alarm fuel statements hw
  rw [Oversight.demanding_nothing, Run.programOverseen_blind] at htracks
  exact ⟨htracks.alike, htracks.endsIn fun w' _ hw' ↦ ⟨w', hw'⟩⟩

end Machine.Counted

end Lox
