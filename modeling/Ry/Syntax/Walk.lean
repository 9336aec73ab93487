import Ry.Core.Ast

/-! # The shared walk

`walk_stmt` and `walk_expr` with a callback that either breaks at a node or goes on into it:
whether the callback breaks anywhere.
-/

namespace Ry

inductive AstNode
  | stmt (s : Stmt)
  | expr (e : Expr)

/-- Which well-known subtrees a walk enters. -/
structure WalkPolicy where
  assignTargets : Bool := true
  /-- The left operand of an assignment in expression position. -/
  assignOperands : Bool := true
  /-- The field of `$` and the slot of `@`. -/
  dollarArgs : Bool := true
  fnBodies : Bool := true
  /-- The conditions of `if` and `while` and the iterator of `for`. -/
  controlTests : Bool := true
  /-- The defaults of nested functions.  The source's walker has no such knob: a callback that
  wants them walks them itself. -/
  defaults : Bool := false

/-- `Walk::ALL` -/
def WalkPolicy.all : WalkPolicy := {}

/-- `FRAME_WALK`: code that runs in the walked frame. -/
def WalkPolicy.frame : WalkPolicy := { fnBodies := false, dollarArgs := false }

def IndexKind.isMember : IndexKind → Bool
  | .dollar | .slot => true
  | .single | .double => false

/-- Whether a walk enters the left operand. -/
def WalkPolicy.entersLhs (policy : WalkPolicy) : BinOpKind → Bool
  | .assign | .superAssign => policy.assignOperands
  | _ => true

section Walk

variable (policy : WalkPolicy) (hit : AstNode → Bool)

mutual
def anyInStmt (s : Stmt) : Bool :=
  hit (.stmt s) || match s with
    | .assign target value _ => policy.assignTargets && anyInExpr target || anyInExpr value
    | .expr e => anyInExpr e
    | .ite cond thenBranch elseBranch _ =>
      policy.controlTests && anyInExpr cond || anyInStmts thenBranch || anyInElseStmts elseBranch
    | .forLoop _ _ iter body _ => policy.controlTests && anyInExpr iter || anyInStmts body
    | .whileLoop cond body _ => policy.controlTests && anyInExpr cond || anyInStmts body
    | .functionDef params body _ =>
      policy.defaults && anyInParams params || policy.fnBodies && anyInStmts body
    | .ret value _ => anyInOption value
termination_by structural s
def anyInExpr (e : Expr) : Bool :=
  hit (.expr e) || match e with
    | .call func args _ => anyInExpr func || anyInArgs args
    | .binOp op lhs rhs _ =>
      policy.entersLhs op && anyInExpr lhs || anyInExpr rhs
    | .unaryOp _ e _ => anyInExpr e
    | .index base kind args _ =>
      anyInExpr base || (!kind.isMember || policy.dollarArgs) && anyInArgs args
    | .function params body _ =>
      policy.defaults && anyInParams params || policy.fnBodies && anyInStmts body
    | .block body _ => anyInStmts body
    | .ite cond thenBranch elseBranch _ =>
      policy.controlTests && anyInExpr cond || anyInExpr thenBranch || anyInOption elseBranch
    | _ => false
termination_by structural e
def anyInStmts : List Stmt → Bool
  | [] => false
  | s :: ss => anyInStmt s || anyInStmts ss
termination_by structural l => l
def anyInElseStmts : Option (List Stmt) → Bool
  | none => false
  | some ss => anyInStmts ss
termination_by structural o => o
def anyInOption : Option Expr → Bool
  | none => false
  | some e => anyInExpr e
termination_by structural o => o
def anyInArgs : List Arg → Bool
  | [] => false
  | arg :: args => anyInArg arg || anyInArgs args
termination_by structural l => l
def anyInArg : Arg → Bool
  | .mk _ value _ => anyInExpr value
termination_by structural a => a
def anyInParams : List Param → Bool
  | [] => false
  | param :: params => anyInParam param || anyInParams params
termination_by structural l => l
def anyInParam : Param → Bool
  | .mk _ default _ => anyInOption default
termination_by structural p => p
end

section

-- Lean derives the equations of these functions here, once for the modules that rewrite by them
attribute [local simp] anyInStmt anyInExpr anyInStmts anyInElseStmts anyInOption anyInArgs
  anyInArg anyInParams anyInParam

end

theorem anyInStmt_of_hit {s : Stmt} (h : hit (.stmt s) = true) : anyInStmt policy hit s = true := by
  cases s <;> simp [anyInStmt, h]

theorem anyInExpr_of_hit {e : Expr} (h : hit (.expr e) = true) : anyInExpr policy hit e = true := by
  cases e <;> simp [anyInExpr, h]

end Walk

end Ry
