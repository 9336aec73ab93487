import Ry.Core.Types

/-! # The syntax tree

The parser's tree as the checker reads it: `ry-core`'s `ast.rs`, and from `walk.rs`
the one walk the scope needs, the identifiers an expression mentions.
-/

namespace Ry

/-- A byte range in a source file, with its line and column. -/
structure Span where
  start : Nat
  stop : Nat
  line : Nat
  col : Nat
deriving DecidableEq, Repr

inductive BinOpKind
  | add | sub | mul | div | pow | mod | idiv
  | colon
  | lt | le | gt | ge | eq | ne
  | and | andAnd | or | orOr
  | elemOf
  | assign | superAssign
  | pipeForward | pipeNative | pipeTee | pipeAssign
deriving DecidableEq, Repr

/-- `+ - * / ^ %% %/%` -/
def BinOpKind.isArithmetic : BinOpKind → Bool
  | add | sub | mul | div | pow | mod | idiv => true
  | _ => false

inductive UnaryOpKind
  | neg | not
deriving DecidableEq, Repr

inductive IndexKind
  | single | double | dollar | slot
deriving DecidableEq, Repr

mutual
/-- An actual argument: `name = value` if named, otherwise positional. -/
inductive Arg
  | mk (name : Option String) (value : Expr) (span : Span)
/-- A formal parameter. -/
inductive Param
  | mk (name : String) (default : Option Expr) (span : Span)
inductive Expr
  | logical (value : Bool) (span : Span)
  | integer (value : Int) (span : Span)
  /-- The `f64` by its bit pattern. -/
  | double (bits : UInt64) (span : Span)
  | string (value : String) (span : Span)
  | null (span : Span)
  | na (type : RType) (span : Span)
  | call (func : Expr) (args : List Arg) (span : Span)
  | ident (name : String) (span : Span)
  | binOp (op : BinOpKind) (lhs rhs : Expr) (span : Span)
  | unaryOp (op : UnaryOpKind) (expr : Expr) (span : Span)
  | index (base : Expr) (kind : IndexKind) (args : List Arg) (span : Span)
  | function (params : List Param) (body : List Stmt) (span : Span)
  | block (body : List Stmt) (span : Span)
  | ite (cond thenBranch : Expr) (elseBranch : Option Expr) (span : Span)
  /-- An omitted actual argument, as in `f(, x)`. -/
  | missing (span : Span)
  | unknown (span : Span)
inductive Stmt
  | assign (target value : Expr) (span : Span)
  | expr (e : Expr)
  | ite (cond : Expr) (thenBranch : List Stmt) (elseBranch : Option (List Stmt)) (span : Span)
  | forLoop (name : String) (nameSpan : Span) (iter : Expr) (body : List Stmt) (span : Span)
  | whileLoop (cond : Expr) (body : List Stmt) (span : Span)
  | functionDef (params : List Param) (body : List Stmt) (span : Span)
  | ret (value : Option Expr) (span : Span)
end

namespace Arg

def name : Arg → Option String
  | mk name _ _ => name

def value : Arg → Expr
  | mk _ value _ => value

end Arg

/-! ## The identifiers of an expression

`walk_expr` under `Walk::ALL`, collecting every identifier in source order.  The walk
enters function bodies, assignment targets and `$` fields, and no parameter default. -/

mutual
def Expr.idents : Expr → List String
  | .ident name _ => [name]
  | .call func args _ => func.idents ++ argIdents args
  | .binOp _ lhs rhs _ => lhs.idents ++ rhs.idents
  | .unaryOp _ e _ => e.idents
  | .index base _ args _ => base.idents ++ argIdents args
  | .function _ body _ | .block body _ => stmtIdents body
  | .ite cond thenBranch elseBranch _ =>
    cond.idents ++ thenBranch.idents ++ optionIdents elseBranch
  | .logical .. | .integer .. | .double .. | .string .. | .null _ | .na .. | .missing _
  | .unknown _ => []
termination_by structural e => e
def argIdents : List Arg → List String
  | [] => []
  | arg :: args => arg.idents ++ argIdents args
termination_by structural l => l
def Arg.idents : Arg → List String
  | .mk _ value _ => value.idents
termination_by structural a => a
def optionIdents : Option Expr → List String
  | none => []
  | some e => e.idents
termination_by structural o => o
def Stmt.idents : Stmt → List String
  | .assign target value _ => target.idents ++ value.idents
  | .expr e => e.idents
  | .ite cond thenBranch elseBranch _ =>
    cond.idents ++ stmtIdents thenBranch ++ optionStmtIdents elseBranch
  | .forLoop _ _ iter body _ => iter.idents ++ stmtIdents body
  | .whileLoop cond body _ => cond.idents ++ stmtIdents body
  | .functionDef _ body _ => stmtIdents body
  | .ret value _ => optionIdents value
termination_by structural s => s
def stmtIdents : List Stmt → List String
  | [] => []
  | s :: ss => s.idents ++ stmtIdents ss
termination_by structural l => l
def optionStmtIdents : Option (List Stmt) → List String
  | none => []
  | some ss => stmtIdents ss
termination_by structural o => o
end

end Ry
