import Lox.Resolution

/-!
# Orderly trees

What the trees of scanned programs have in common beyond their shape: `this` and `super` are spelled
so, nothing is declared under these names, and the branches of an `if` and the bodies of loops are
no declarations, so that they leave the scopes around them as they are.
-/

namespace Lox

/-- The names that classes put into scopes of their own. -/
def Reserved (name : String) : Prop :=
  name = "this" ∨ name = "super"

mutual

def Expr.Orderly : Expr → Prop
  | literal _ => True
  | grouping inner => inner.Orderly
  | unary _ operand => operand.Orderly
  | binary _ left right => left.Orderly ∧ right.Orderly
  | logical _ left right => left.Orderly ∧ right.Orderly
  | var _ _ => True
  | assign _ _ value => value.Orderly
  | call callee _ arguments => callee.Orderly ∧ Expr.OrderlyAll arguments
  | get object _ => object.Orderly
  | set object _ value => object.Orderly ∧ value.Orderly
  | this _ keyword => keyword.lexeme = "this"
  | super _ keyword _ => keyword.lexeme = "super"

def Expr.OrderlyAll : List Expr → Prop
  | [] => True
  | e :: rest => e.Orderly ∧ Expr.OrderlyAll rest

end

def Expr.OrderlyOption : Option Expr → Prop
  | none => True
  | some e => e.Orderly

/-- A statement that adds no name to the scope it stands in. -/
def Stmt.DeclaresNothing (s : Stmt) : Prop :=
  ∀ scopes, s.scopesAfter scopes = scopes

mutual

def Stmt.Orderly : Stmt → Prop
  | block body => Stmt.OrderlyAll body
  | classDecl name superclass methods =>
    ¬Reserved name.lexeme ∧ Expr.OrderlyOption superclass ∧ Stmt.OrderlyMethods methods
  | expression e => e.Orderly
  | function routine => ¬Reserved routine.name.lexeme ∧ Stmt.OrderlyRoutine routine
  | ifElse condition thenBranch elseBranch =>
    condition.Orderly ∧ (thenBranch.Orderly ∧ thenBranch.DeclaresNothing) ∧
      Stmt.OrderlyOption elseBranch
  | print e => e.Orderly
  | .return _ value => Expr.OrderlyOption value
  | var name initializer => ¬Reserved name.lexeme ∧ Expr.OrderlyOption initializer
  | .while condition body => condition.Orderly ∧ body.Orderly ∧ body.DeclaresNothing
  | .break _ => True
  | .continue _ => True

def Stmt.OrderlyAll : List Stmt → Prop
  | [] => True
  | s :: rest => s.Orderly ∧ Stmt.OrderlyAll rest

def Stmt.OrderlyOption : Option Stmt → Prop
  | none => True
  | some s => s.Orderly ∧ s.DeclaresNothing

def Stmt.OrderlyRoutine : Routine Stmt → Prop
  | ⟨_, params, body⟩ => (∀ param ∈ params, ¬Reserved param.lexeme) ∧ Stmt.OrderlyAll body

def Stmt.OrderlyMethods : List (Routine Stmt) → Prop
  | [] => True
  | method :: rest => Stmt.OrderlyRoutine method ∧ Stmt.OrderlyMethods rest

end

theorem Stmt.orderlyRoutine_iff (routine : Routine Stmt) :
    Stmt.OrderlyRoutine routine ↔
      (∀ param ∈ routine.params, ¬Reserved param.lexeme) ∧ Stmt.OrderlyAll routine.body := by
  obtain ⟨_, _, _⟩ := routine
  rw [Stmt.OrderlyRoutine]

end Lox
