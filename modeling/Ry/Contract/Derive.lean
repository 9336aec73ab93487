import Ry.Scope.State
import Ry.Syntax.Lower

/-! # Call contracts

`contract.rs`: what a call reveals through a definition whose whole body is one bare formal or one
base operation on it, read off the lowered literal.
-/

namespace Ry

def Expr.span : Expr → Span
  | .logical _ s | .integer _ s | .double _ s | .string _ s | .null s | .na _ s | .call _ _ s
  | .ident _ s | .binOp _ _ _ s | .unaryOp _ _ s | .index _ _ _ s | .function _ _ s | .block _ s
  | .ite _ _ _ s | .missing s | .unknown s => s

def Param.name : Param → String
  | .mk name _ _ => name

namespace BinOpKind

def symbol : BinOpKind → String
  | add => "+"
  | sub => "-"
  | mul => "*"
  | div => "/"
  | pow => "^"
  | mod => "%%"
  | idiv => "%/%"
  | colon => ":"
  | lt => "<"
  | le => "<="
  | gt => ">"
  | ge => ">="
  | eq => "=="
  | ne => "!="
  | and => "&"
  | andAnd => "&&"
  | or => "|"
  | orOr => "||"
  | elemOf => "%in%"
  | assign => "<-"
  | superAssign => "<<-"
  | pipeForward => "%>%"
  | pipeNative => "|>"
  | pipeTee => "%T>%"
  | pipeAssign => "%<>%"

end BinOpKind

namespace Contract

inductive Demand
  /-- An arithmetic operand beside a numeric or logical literal. -/
  | arithmeticOperand
  /-- The receiver of `$`. -/
  | dollarReceiver
  deriving DecidableEq, Repr

/-- The fact a call carries for the actual bound to `formal`. -/
inductive CallContract
  /-- The call returns its actual. -/
  | identity (formal : Nat)
  /-- The body is one base operation that errors unless the formal's value can take part;
  `arithmetic` is its arithmetic operator, also for `df$value * 2`. -/
  | demand (formal : Nat) (demand : Demand) (arithmetic : Option BinOpKind)
  deriving DecidableEq, Repr

namespace CallContract

def formal : CallContract → Nat
  | identity formal => formal
  | demand formal _ _ => formal

/-- The operators the body looks up in the definition's environment. -/
def operators : CallContract → List String
  | identity _ => []
  | demand _ kind arithmetic =>
    (if kind = .dollarReceiver then ["$"] else []) ++ (arithmetic.map BinOpKind.symbol).toList

end CallContract

section Derive

variable (params : List Param)

def formalOf : Expr → Option Nat
  | .ident name _ =>
    if semanticArgumentName name ≠ "..." then
      params.findIdx? fun param => semanticArgumentName param.name = semanticArgumentName name
    else none
  | _ => none

def receiverOf : Expr → Option Nat
  | .index base .dollar _ span => if base.span.start = span.start then formalOf params base else none
  | _ => none

def operandOf (expr : Expr) : Option (Nat × Demand) :=
  match formalOf params expr with
  | some formal => some (formal, .arithmeticOperand)
  | none => (receiverOf params expr).map fun formal => (formal, .dollarReceiver)

def isLiteral : Expr → Bool
  | .integer .. | .double .. | .logical .. => true
  | _ => false

/-- The operand that is demanded, beside a literal. -/
def demandedOf (lhs rhs : Expr) : Option (Nat × Demand) :=
  match operandOf params lhs, operandOf params rhs with
  | some demanded, none => if isLiteral rhs then some demanded else none
  | none, some demanded => if isLiteral lhs then some demanded else none
  | _, _ => none

def contractOf (expr : Expr) : Option CallContract :=
  match formalOf params expr with
  | some formal => some (.identity formal)
  | none =>
    match receiverOf params expr with
    | some formal => some (.demand formal .dollarReceiver none)
    | none =>
      match expr with
      | .binOp op lhs rhs span =>
        -- a wrapped operand starts or ends inside the operation
        if op.isArithmetic = false ∨ lhs.span.start ≠ span.start ∨ rhs.span.stop ≠ span.stop then none
        else
          (demandedOf params lhs rhs).map fun demanded =>
            .demand demanded.1 demanded.2 (some op)
      | _ => none

/-- The contract of `function(params) body` at `span`; `mayWrite` says whether the defaults may
write a name. -/
def derive (mayWrite : List Param → String → Bool) (body : List Stmt) (span : Span) :
    Option CallContract :=
  match body with
  | [.expr expr] =>
    -- lowering drops braces and parentheses and keeps the inner span
    if expr.span.stop ≠ span.stop then none
    else
      (contractOf params expr).filter fun contract =>
        !(contract.operators.any fun operator =>
            params.any fun param => semanticArgumentName param.name = operator)
          && !((params[contract.formal]?).any fun param =>
            mayWrite params (semanticArgumentName param.name))
  | _ => none

end Derive

end Contract

end Ry
