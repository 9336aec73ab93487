import Ry.Supply.Facts

/-! # The walk over one formal's body

`FormalSupplyWalk`.  The walk carries a point and ends at the first read that may evaluate the
default: where the source sets `hit`, and every later step returns at once, the walk below is an
error with the read's span.
-/

namespace Ry.FormalSupply

/-- What the walk asks of the checker. -/
structure Checker where
  heads : Divergence.Heads
  /-- `captured_arguments`: the arguments a call receives unevaluated. -/
  capturedArguments : Expr → List Arg → List Bool

namespace Checker

variable (c : Checker)

/-- `helperDiverges` with fuel for every helper. -/
def helper : String → Bool := Divergence.helperDiverges c.heads c.heads.live.keys.card ∅

def blockDiverges (stmts : List Stmt) : Bool := Divergence.stmtsDiverge c.heads c.helper .full stmts

def exprDivergesFull (e : Expr) : Bool := Divergence.exprDiverges c.heads c.helper .full e

end Checker

/-- Whether a `for` iterator is a literal `a:b` sequence or a single non-`NA` literal. -/
def iteratorProvablyNonempty : Expr → Bool
  | .integer .. | .double .. | .string .. => true
  | .binOp .colon lhs rhs _ => isNumber lhs && isNumber rhs
  | _ => false
where
  isNumber : Expr → Bool
    | .integer .. | .double .. => true
    | _ => false

section Walk

variable (c : Checker) (formal : String)

/-- What becomes of the point when `target` is assigned a value already walked.  A plain name is not
a read; any other target is read and replaces the promise. -/
def assignTo (target value : Expr) (walkTarget : SupplyPoint → Except Span SupplyPoint)
    (point : SupplyPoint) : Except Span SupplyPoint :=
  match target with
  | .ident name _ =>
    if name = formal then .ok { point with alive := none }
    else .ok { point with proxies := Function.update point.proxies name (cachedTest formal value) }
  | target => do
    let point ← walkTarget point
    if referencesFormal formal target then .ok { point with alive := none } else .ok point

/-- The condition's walk, and what the two arms begin with.  A condition with a supply test is
walked silently, and the walk's point is dropped. -/
def conditionArms (cond : Expr) (walkCond : SupplyPoint → Except Span SupplyPoint)
    (point : SupplyPoint) : Except Span (SupplyPoint × Option Supply × Option Supply) :=
  match atom formal cond true point with
  | .noInfo => do
    let point ← walkCond point
    .ok (point, point.alive, point.alive)
  | .test thenFact elseFact => do
    let _ ← walkCond { point with alive := some .supplied }
    .ok (point, armState point thenFact, armState point elseFact)
  | .mention => do
    let _ ← walkCond { point with alive := some .supplied }
    .ok (point, armState point .supplied, armState point .supplied)

/-- A conditional whose arms are walked by `walkThen` and `walkElse`. -/
def walkArms (cond : Expr) (walkCond walkThen walkElse : SupplyPoint → Except Span SupplyPoint)
    (thenDiverges elseDiverges : Bool) (point : SupplyPoint) : Except Span SupplyPoint := do
  let (point, thenAlive, elseAlive) ← conditionArms formal cond walkCond point
  let thenPoint ← walkThen { point with alive := thenAlive }
  let elsePoint ← walkElse { point with alive := elseAlive }
  .ok (mergeLiveArms point thenPoint thenDiverges elsePoint elseDiverges)

mutual
def walkStmt (s : Stmt) (point : SupplyPoint) : Except Span SupplyPoint :=
  match s with
  -- the statement `p <<- v`: the wrapper's left operand restates the target
  | .assign _ (.binOp .superAssign _ rhs _) _ => walkExpr rhs point
  | .assign target value _ => do
    assignTo formal target value (walkExpr target) (← walkExpr value point)
  | .expr e => walkExpr e point
  | .ite cond thenBranch elseBranch _ =>
    walkArms formal cond (walkExpr cond) (walkStmts thenBranch) (walkElseStmts elseBranch)
      (c.blockDiverges thenBranch) (elseBranch.any c.blockDiverges) point
  | .forLoop name _ iter body _ => do
    let point ← walkExpr iter point
    let inner ← walkStmts body (if name = formal then { point with alive := none } else point)
    if name = formal then .ok { point with alive := none }
    else if iteratorProvablyNonempty iter then .ok inner
    else .ok point
  | .whileLoop cond body _ => do
    let (point, thenAlive, elseAlive) ← conditionArms formal cond (walkExpr cond) point
    let inner ← walkStmts body { point with alive := thenAlive }
    match cond with
    | .logical true _ => .ok inner
    | _ => .ok { point with alive := elseAlive }
  -- reads only inside closures stay silent
  | .functionDef .. => .ok point
  | .ret value _ => walkOption value point
termination_by structural s
def walkExpr (e : Expr) (point : SupplyPoint) : Except Span SupplyPoint :=
  match e with
  | .ident name span =>
    if name = formal ∧ point.Open then .error span else .ok point
  | .call func args _ =>
    -- `missing(p)` inspects the promise without forcing it
    if isMissingTestCall formal func args then .ok point
    else do walkArgs (c.capturedArguments func args) args (← walkExpr func point)
  | .binOp .assign lhs rhs _ => do
    assignTo formal lhs rhs (walkExpr lhs) (← walkExpr rhs point)
  | .binOp .superAssign lhs rhs _ => do
    let point ← walkExpr rhs point
    match lhs with
    | .ident .. => .ok point
    | lhs => walkExpr lhs point
  | .binOp _ lhs rhs _ => do walkExpr rhs (← walkExpr lhs point)
  | .unaryOp _ e _ => walkExpr e point
  | .index base _ args _ => do walkArgs [] args (← walkExpr base point)
  | .function .. => .ok point
  | .block body _ => walkStmts body point
  | .ite cond thenBranch elseBranch _ =>
    walkArms formal cond (walkExpr cond) (walkExpr thenBranch) (walkOption elseBranch)
      (c.exprDivergesFull thenBranch) (elseBranch.any c.exprDivergesFull) point
  | .missing _ | .unknown _ | .logical .. | .integer .. | .double .. | .string .. | .null _
  | .na .. => .ok point
termination_by structural e
def walkStmts : List Stmt → SupplyPoint → Except Span SupplyPoint
  | [], point => .ok point
  | s :: ss, point => do walkStmts ss (← walkStmt s point)
termination_by structural l => l
def walkElseStmts : Option (List Stmt) → SupplyPoint → Except Span SupplyPoint
  | none, point => .ok point
  | some ss, point => walkStmts ss point
termination_by structural o => o
def walkOption : Option Expr → SupplyPoint → Except Span SupplyPoint
  | none, point => .ok point
  | some e, point => walkExpr e point
termination_by structural o => o
/-- Arguments in order, but those received unevaluated. -/
def walkArgs : List Bool → List Arg → SupplyPoint → Except Span SupplyPoint
  | _, [], point => .ok point
  | captured, arg :: args, point => do
    let point ← if captured.head?.getD false then .ok point else walkArg arg point
    walkArgs captured.tail args point
termination_by structural _ l => l
def walkArg : Arg → SupplyPoint → Except Span SupplyPoint
  | .mk _ value _, point => walkExpr value point
termination_by structural a => a
end

/-- The first read of `formal` in `body` that may evaluate an untested or proven-defaulted value. -/
def firstUnguardedDefaultedUse (body : List Stmt) : Option Span :=
  match walkStmts c formal body .new with
  | .error span => some span
  | .ok _ => none

end Walk

end Ry.FormalSupply
