import Ry.Core.Values
import Ry.Scope.State
import Ry.Syntax.Lower

/-! # How R evaluates a small body

The evaluation of the forms a contract is read off.  Every operator, parentheses included, is a
call of what its name is bound to: a binding that masks the base one gets the unevaluated operands
and may do anything, and the base ones dispatch on objects.  The other forms are left to the
environment.
-/

namespace Ry.Contract

inductive Outcome
  | value (v : RValue)
  | error

namespace Outcome

def bind (o : Outcome) (f : RValue → Outcome) : Outcome :=
  match o with
  | value v => f v
  | error => error

@[simp] theorem bind_value (v : RValue) (f : RValue → Outcome) : (value v).bind f = f v := rfl

@[simp] theorem bind_error (f : RValue → Outcome) : error.bind f = error := rfl

end Outcome

/-- What the evaluation of a body depends on. -/
structure Env where
  /-- A variable of the call's frame, its promise forced. -/
  lookup : String → Outcome
  namespaced : (package operator name : String) → Outcome
  /-- The operator's name is bound to base R's. -/
  isBase : String → Bool
  /-- A call of the binding that masks an operator. -/
  masked : String → List Cst → Outcome
  /-- A method or the default for an object. -/
  dispatch : String → List RValue → Outcome
  /-- Base arithmetic on operands that can take part. -/
  arithmetic : String → RValue → RValue → Outcome
  /-- `$` on a receiver without atomic storage. -/
  field : RValue → String → Outcome
  other : Cst → Outcome

def isNumericStorage : Storage → Bool
  | .logical | .integer | .double | .complex => true
  | _ => false

def isAtomicStorage : Storage → Bool
  | .logical | .integer | .double | .complex | .character | .raw => true
  | _ => false

section Eval

variable (env : Env)

/-- Unary plus and minus make an integer of a logical. -/
def applyUnary (operator : String) (v : RValue) : Outcome :=
  if v.cls ≠ [] then env.dispatch operator [v]
  else if isNumericStorage v.storage then
    .value { v with storage := if v.storage = .logical then .integer else v.storage }
  else .error

def takesPart (v : RValue) : Bool := isNumericStorage v.storage || v.storage = .null

def applyArithmetic (operator : String) (v w : RValue) : Outcome :=
  if v.cls ≠ [] ∨ w.cls ≠ [] then env.dispatch operator [v, w]
  else if takesPart v && takesPart w then env.arithmetic operator v w
  else .error

def applyDollar (v : RValue) (name : String) : Outcome :=
  if v.cls ≠ [] then env.dispatch "$" [v]
  else if isAtomicStorage v.storage then .error
  else env.field v name

def arithmeticOperators : List String := ["+", "-", "*", "/", "^", "**", "%%", "%/%"]

/-- `**` is the parser's other spelling of `^`. -/
def functionName (operator : String) : String := if operator = "**" then "^" else operator

def scalarOf (storage : Storage) : RValue := ⟨storage, 1, [], [], []⟩

def eval : Cst → Outcome
  | .logical _ _ => .value (scalarOf .logical)
  | .number (.integer _) _ => .value (scalarOf .integer)
  | .number (.double _) _ => .value (scalarOf .double)
  | .identifier text _ => env.lookup (semanticArgumentName text)
  | .namespaced package operator name _ => env.namespaced package operator name
  | .parenthesized inner _ => if env.isBase "(" then eval inner else env.masked "(" [inner]
  | .unary operator operand span =>
    if operator ∉ ["+", "-"] then env.other (.unary operator operand span)
    else if env.isBase operator then (eval operand).bind (applyUnary env operator)
    else env.masked operator [operand]
  | .binary operator operatorSpan lhs rhs span =>
    if operator ∉ arithmeticOperators then env.other (.binary operator operatorSpan lhs rhs span)
    else if env.isBase (functionName operator) then
      (eval lhs).bind fun v => (eval rhs).bind fun w => applyArithmetic env (functionName operator) v w
    else env.masked (functionName operator) [lhs, rhs]
  | .extract operator lhs rhs span =>
    if operator ≠ "$" then env.other (.extract operator lhs rhs span)
    else if env.isBase "$" then (eval lhs).bind fun v => applyDollar env v rhs
    else env.masked "$" [lhs]
  -- there is no loop around a body
  | .jump _ _ => .error
  | node => env.other node
termination_by structural node => node

end Eval

end Ry.Contract
