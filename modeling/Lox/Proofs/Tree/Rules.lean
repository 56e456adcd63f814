import Lox.Tree.Basic

/-!
# Rules for trees

A rule asks something of the expressions, the superclasses and the declared names of a statement,
wherever in it they stand.
-/

namespace Lox

/-- The expressions right inside an expression. -/
def Expr.children : Expr → List Expr
  | literal _ => []
  | grouping inner => [inner]
  | unary _ operand => [operand]
  | binary _ left right => [left, right]
  | logical _ left right => [left, right]
  | var _ _ => []
  | assign _ _ value => [value]
  | call callee _ arguments => callee :: arguments
  | get object _ => [object]
  | set object _ value => [object, value]
  | this _ _ => []
  | super _ _ _ => []

/-- What is asked of the parts of a statement. -/
structure Rules where
  expression : Expr → Prop
  superclass : Expr → Prop
  name : String → Prop

namespace Rules

/-- Whatever one set of rules admits, another one admits, too. -/
structure Within (rules rules' : Rules) : Prop where
  expression : ∀ e, rules.expression e → rules'.expression e
  superclass : ∀ e, rules.superclass e → rules'.superclass e
  name : ∀ name, rules.name name → rules'.name name

/-- Anything goes. -/
def none : Rules :=
  ⟨fun _ ↦ True, fun _ ↦ True, fun _ ↦ True⟩

/-- Whatever the rules admit in a statement is of one kind of expression, with all that is inside
it, and refers to admitted names only. -/
structure Governs (rules : Rules) (expression : Expr → Prop) : Prop where
  of_rule : ∀ {e}, rules.expression e → expression e
  of_superclass : ∀ {e}, rules.superclass e → expression e
  of_child : ∀ {e inner}, expression e → inner ∈ e.children → expression inner
  name_of_assign : ∀ {id name value}, expression (.assign id name value) → rules.name name.lexeme
  name_of_var : ∀ {id name}, expression (.var id name) → rules.name name.lexeme

theorem none_governs : none.Governs fun _ ↦ True :=
  ⟨fun _ ↦ trivial, fun _ ↦ trivial, fun _ _ ↦ trivial, fun _ ↦ trivial, fun _ ↦ trivial⟩

end Rules

mutual

def Stmt.Obeys (rules : Rules) : Stmt → Prop
  | block body => Stmt.ObeysAll rules body
  | classDecl name superclass methods =>
    rules.name name.lexeme ∧ (∀ e, superclass = some e → rules.superclass e) ∧
      Stmt.ObeysMethods rules methods
  | expression e => rules.expression e
  | function routine => rules.name routine.name.lexeme ∧ Stmt.ObeysRoutine rules routine
  | ifElse condition thenBranch elseBranch =>
    rules.expression condition ∧ thenBranch.Obeys rules ∧ Stmt.ObeysOption rules elseBranch
  | print e => rules.expression e
  | .return _ value => ∀ e, value = some e → rules.expression e
  | var name initializer =>
    rules.name name.lexeme ∧ ∀ e, initializer = some e → rules.expression e
  | .while condition body => rules.expression condition ∧ body.Obeys rules
  | .break _ => True
  | .continue _ => True

def Stmt.ObeysAll (rules : Rules) : List Stmt → Prop
  | [] => True
  | s :: rest => s.Obeys rules ∧ Stmt.ObeysAll rules rest

def Stmt.ObeysOption (rules : Rules) : Option Stmt → Prop
  | none => True
  | some s => s.Obeys rules

def Stmt.ObeysRoutine (rules : Rules) : Routine Stmt → Prop
  | ⟨_, params, body⟩ => (∀ param ∈ params, rules.name param.lexeme) ∧ Stmt.ObeysAll rules body

def Stmt.ObeysMethods (rules : Rules) : List (Routine Stmt) → Prop
  | [] => True
  | method :: rest => Stmt.ObeysRoutine rules method ∧ Stmt.ObeysMethods rules rest

end

theorem Stmt.obeysRoutine_iff {rules : Rules} {routine : Routine Stmt} :
    Stmt.ObeysRoutine rules routine ↔
      (∀ param ∈ routine.params, rules.name param.lexeme) ∧
        Stmt.ObeysAll rules routine.body := by
  obtain ⟨_, _, _⟩ := routine
  rw [Stmt.ObeysRoutine]

mutual

theorem Stmt.Obeys.mono {rules rules' : Rules} (h : rules.Within rules') :
    ∀ {s : Stmt}, s.Obeys rules → s.Obeys rules'
  | .block body, hs => by
    rw [Stmt.Obeys] at hs ⊢
    exact Stmt.ObeysAll.mono h hs
  | .classDecl name superclass methods, hs => by
    rw [Stmt.Obeys] at hs ⊢
    exact ⟨h.name _ hs.1, fun e he ↦ h.superclass e (hs.2.1 e he), Stmt.ObeysMethods.mono h hs.2.2⟩
  | .expression e, hs => by
    rw [Stmt.Obeys] at hs ⊢
    exact h.expression e hs
  | .function routine, hs => by
    rw [Stmt.Obeys] at hs ⊢
    exact ⟨h.name _ hs.1, Stmt.ObeysRoutine.mono h hs.2⟩
  | .ifElse condition thenBranch elseBranch, hs => by
    rw [Stmt.Obeys] at hs ⊢
    exact ⟨h.expression _ hs.1, Stmt.Obeys.mono h hs.2.1, Stmt.ObeysOption.mono h hs.2.2⟩
  | .print e, hs => by
    rw [Stmt.Obeys] at hs ⊢
    exact h.expression e hs
  | .return _ value, hs => by
    rw [Stmt.Obeys] at hs ⊢
    exact fun e he ↦ h.expression e (hs e he)
  | .var name initializer, hs => by
    rw [Stmt.Obeys] at hs ⊢
    exact ⟨h.name _ hs.1, fun e he ↦ h.expression e (hs.2 e he)⟩
  | .while condition body, hs => by
    rw [Stmt.Obeys] at hs ⊢
    exact ⟨h.expression _ hs.1, Stmt.Obeys.mono h hs.2⟩
  | .break _, hs => by simp only [Stmt.Obeys]
  | .continue _, hs => by simp only [Stmt.Obeys]

theorem Stmt.ObeysAll.mono {rules rules' : Rules} (h : rules.Within rules') :
    ∀ {ss : List Stmt}, Stmt.ObeysAll rules ss → Stmt.ObeysAll rules' ss
  | [], _ => by simp only [Stmt.ObeysAll]
  | s :: rest, hs => by
    rw [Stmt.ObeysAll] at hs ⊢
    exact ⟨Stmt.Obeys.mono h hs.1, Stmt.ObeysAll.mono h hs.2⟩

theorem Stmt.ObeysOption.mono {rules rules' : Rules} (h : rules.Within rules') :
    ∀ {o : Option Stmt}, Stmt.ObeysOption rules o → Stmt.ObeysOption rules' o
  | none, _ => by simp only [Stmt.ObeysOption]
  | some s, hs => by
    rw [Stmt.ObeysOption] at hs ⊢
    exact Stmt.Obeys.mono h hs

theorem Stmt.ObeysRoutine.mono {rules rules' : Rules} (h : rules.Within rules') :
    ∀ {routine : Routine Stmt}, Stmt.ObeysRoutine rules routine → Stmt.ObeysRoutine rules' routine
  | ⟨_, params, body⟩, hs => by
    rw [Stmt.ObeysRoutine] at hs ⊢
    exact ⟨fun param hparam ↦ h.name _ (hs.1 param hparam), Stmt.ObeysAll.mono h hs.2⟩

theorem Stmt.ObeysMethods.mono {rules rules' : Rules} (h : rules.Within rules') :
    ∀ {methods : List (Routine Stmt)}, Stmt.ObeysMethods rules methods →
      Stmt.ObeysMethods rules' methods
  | [], _ => by simp only [Stmt.ObeysMethods]
  | method :: rest, hs => by
    rw [Stmt.ObeysMethods] at hs ⊢
    exact ⟨Stmt.ObeysRoutine.mono h hs.1, Stmt.ObeysMethods.mono h hs.2⟩

end

mutual

theorem Stmt.obeys_none : ∀ s : Stmt, s.Obeys .none
  | .block body => by
    rw [Stmt.Obeys]
    exact Stmt.obeysAll_none body
  | .classDecl name superclass methods => by
    rw [Stmt.Obeys]
    exact ⟨trivial, fun _ _ ↦ trivial, Stmt.obeysMethods_none methods⟩
  | .expression _ => by rw [Stmt.Obeys]; trivial
  | .function routine => by
    rw [Stmt.Obeys]
    exact ⟨trivial, Stmt.obeysRoutine_none routine⟩
  | .ifElse condition thenBranch elseBranch => by
    rw [Stmt.Obeys]
    exact ⟨trivial, thenBranch.obeys_none, Stmt.obeysOption_none elseBranch⟩
  | .print _ => by rw [Stmt.Obeys]; trivial
  | .return _ _ => by rw [Stmt.Obeys]; exact fun _ _ ↦ trivial
  | .var _ _ => by rw [Stmt.Obeys]; exact ⟨trivial, fun _ _ ↦ trivial⟩
  | .while condition body => by
    rw [Stmt.Obeys]
    exact ⟨trivial, body.obeys_none⟩
  | .break _ => by simp only [Stmt.Obeys]
  | .continue _ => by simp only [Stmt.Obeys]

theorem Stmt.obeysAll_none : ∀ ss : List Stmt, Stmt.ObeysAll .none ss
  | [] => by simp only [Stmt.ObeysAll]
  | s :: rest => by
    rw [Stmt.ObeysAll]
    exact ⟨s.obeys_none, Stmt.obeysAll_none rest⟩

theorem Stmt.obeysOption_none : ∀ o : Option Stmt, Stmt.ObeysOption .none o
  | none => by simp only [Stmt.ObeysOption]
  | some s => by
    rw [Stmt.ObeysOption]
    exact s.obeys_none

theorem Stmt.obeysRoutine_none : ∀ routine : Routine Stmt, Stmt.ObeysRoutine .none routine
  | ⟨_, _, body⟩ => by
    rw [Stmt.ObeysRoutine]
    exact ⟨fun _ _ ↦ trivial, Stmt.obeysAll_none body⟩

theorem Stmt.obeysMethods_none : ∀ methods : List (Routine Stmt), Stmt.ObeysMethods .none methods
  | [] => by simp only [Stmt.ObeysMethods]
  | method :: rest => by
    rw [Stmt.ObeysMethods]
    exact ⟨Stmt.obeysRoutine_none method, Stmt.obeysMethods_none rest⟩

end

end Lox
