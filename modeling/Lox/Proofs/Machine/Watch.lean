import Lox.Proofs.Machine.Oversight

/-!
# Watched execution

Execution that is overseen with a check before every expression that is evaluated, and none before
statements.
-/

namespace Lox.Run

variable (watch : Expr → Run Unit) (fuel : Nat)

/-- Evaluate an expression, with a watch on every expression that is evaluated. -/
def evaluateWatched : Expr → Run Value :=
  evaluateOverseen (.ofWatch watch) fuel

/-- Execute a statement, with a watch on every expression that is evaluated. -/
def executeWatched : Stmt → Run Flow :=
  executeOverseen (.ofWatch watch) fuel

/-- Execute the statements of a program, with a watch on every expression that is evaluated. -/
def programWatched : List Stmt → Run Unit :=
  programOverseen (.ofWatch watch) fuel

theorem evaluateWatched_succ (e : Expr) :
    evaluateWatched watch (fuel + 1) e = (do
      watch e
      evaluateWith (evaluateWatched watch fuel) (executeWatched watch fuel) e) :=
  evaluateOverseen.eq_2 ..

theorem executeWatched_succ (s : Stmt) :
    executeWatched watch (fuel + 1) s =
      executeWith (evaluateWatched watch fuel) (executeWatched watch fuel) fuel s := by
  rw [executeWatched, executeOverseen]
  exact pure_bind ..

end Lox.Run
