import Shiba.Eval.Stmt

/-!
# Evaluation

The recursion behind expressions and statements.  Every nested step takes one unit of fuel, and
a loop with a condition may take as many turns as there is fuel, so that evaluation always comes
to an end; a run that needs more says so by `Stop.outOfFuel`, which no program can produce
itself.
-/

namespace Shiba

mutual

/-- Evaluates an expression with a given fuel. -/
def evalExpr (cfg : Config) : (fuel : Nat) → Context → Expr → Eval BoxId
  | 0, _, _ => throw .outOfFuel
  | fuel + 1, ctx, e => Eval.expr ⟨evalExpr cfg fuel, evalStmt cfg fuel⟩ cfg ctx e

/-- Runs a statement with a given fuel. -/
def evalStmt (cfg : Config) : (fuel : Nat) → Context → Stmt → Eval Flow
  | 0, _, _ => throw .outOfFuel
  | fuel + 1, ctx, s => Eval.stmt ⟨evalExpr cfg fuel, evalStmt cfg fuel⟩ cfg fuel ctx s

end

/-- The evaluators with a given fuel. -/
def evaluators (cfg : Config) (fuel : Nat) : Evaluators := ⟨evalExpr cfg fuel, evalStmt cfg fuel⟩

theorem evalExpr_zero (cfg : Config) (ctx : Context) (e : Expr) :
    evalExpr cfg 0 ctx e = throw .outOfFuel := by
  unfold evalExpr; rfl

theorem evalStmt_zero (cfg : Config) (ctx : Context) (s : Stmt) :
    evalStmt cfg 0 ctx s = throw .outOfFuel := by
  unfold evalStmt; rfl

theorem evalExpr_succ (cfg : Config) (fuel : Nat) (ctx : Context) (e : Expr) :
    evalExpr cfg (fuel + 1) ctx e = Eval.expr (evaluators cfg fuel) cfg ctx e := by
  conv => lhs; unfold evalExpr
  rfl

theorem evalStmt_succ (cfg : Config) (fuel : Nat) (ctx : Context) (s : Stmt) :
    evalStmt cfg (fuel + 1) ctx s = Eval.stmt (evaluators cfg fuel) cfg fuel ctx s := by
  conv => lhs; unfold evalStmt
  rfl

end Shiba
