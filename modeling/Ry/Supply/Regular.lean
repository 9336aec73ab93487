import Ry.Supply.Runs

/-! # Bodies whose reports can be trusted

`Regular` says of every place the walk comes to, in the point it comes with, that the walk and the
executions agree on what happens there.  Its main clause is about conditions: no supply test is
decoded where an earlier one has silenced the formal, since the decoded facts then replace what was
proven.  The others keep out code after a statement that never completes, and places where the walk
takes more or less to be evaluated, tested or assigned than R does.
-/

namespace Ry.FormalSupply

/-! ## Code that completes -/

section Flows

variable (c : Checker)

def isNamed : List Arg → Bool
  | [.mk _ (.ident ..) _] => true
  | _ => false

mutual
/-- The statement can complete, where the walk goes on behind it. -/
def stmtFlows : Stmt → Bool
  | .assign target value span => exprFlows value && (isOutward span value || exprFlows target)
  | .expr e => exprFlows e
  | .ite cond thenBranch elseBranch _ =>
    exprFlows cond && (c.blockDiverges thenBranch || stmtsFlow thenBranch) &&
      (elseBranch.any c.blockDiverges || elseFlows elseBranch)
  | .forLoop .. | .whileLoop .. | .ret .. => false
  | .functionDef .. => true
termination_by structural s => s
def exprFlows : Expr → Bool
  | .call func args _ =>
    if isMissingHead func then isNamed args
    else exprFlows func && argsFlow (c.capturedArguments func args) args && !callLeaves c func
  | .binOp .superAssign lhs rhs _ => exprFlows rhs && outwardFlows lhs
  | .binOp _ lhs rhs _ => exprFlows lhs && exprFlows rhs
  | .unaryOp _ e _ => exprFlows e
  | .index base kind args _ => exprFlows base && (kind.isMember || argsFlow [] args)
  | .block body _ => stmtsFlow body
  | .ite cond thenBranch elseBranch _ =>
    exprFlows cond && (c.exprDivergesFull thenBranch || exprFlows thenBranch) &&
      (elseBranch.any c.exprDivergesFull || optionFlows elseBranch)
  | _ => true
termination_by structural e => e
def stmtsFlow : List Stmt → Bool
  | [] => true
  | s :: ss => stmtFlows s && stmtsFlow ss
termination_by structural l => l
def elseFlows : Option (List Stmt) → Bool
  | none => true
  | some ss => stmtsFlow ss
termination_by structural o => o
def optionFlows : Option Expr → Bool
  | none => true
  | some e => exprFlows e
termination_by structural o => o
def argsFlow : List Bool → List Arg → Bool
  | _, [] => true
  | captured, arg :: args =>
    (captured.head?.getD false || argFlows arg) && argsFlow captured.tail args
termination_by structural _ l => l
def argFlows : Arg → Bool
  | .mk _ value _ => exprFlows value
termination_by structural a => a
def outwardFlows : Expr → Bool
  | .ident .. | .string .. => true
  | .index base kind args _ => outwardFlows base && (kind.isMember || argsFlow [] args)
  | .call _ (.mk _ value _ :: args) _ => outwardFlows value && argsFlow [] args
  | _ => false
termination_by structural e => e
end

end Flows

/-! ## Names that decide a truth value -/

mutual
def stmtTruthNames : Stmt → List String
  | .assign _ value _ => exprTruthNames value
  | .expr e => exprTruthNames e
  | .ite _ thenBranch elseBranch _ => stmtsTruthNames thenBranch ++ elseTruthNames elseBranch
  | _ => []
termination_by structural s => s
def exprTruthNames : Expr → List String
  | .ident name _ => [name]
  | .unaryOp .not e _ => exprTruthNames e
  | .binOp .andAnd lhs rhs _ | .binOp .orOr lhs rhs _ => exprTruthNames lhs ++ exprTruthNames rhs
  | .binOp .assign _ rhs _ | .binOp .superAssign _ rhs _ => exprTruthNames rhs
  | .block body _ => stmtsTruthNames body
  | .ite _ thenBranch elseBranch _ => exprTruthNames thenBranch ++ optionTruthNames elseBranch
  | _ => []
termination_by structural e => e
def stmtsTruthNames : List Stmt → List String
  | [] => []
  | s :: ss => if ss.isEmpty then stmtTruthNames s else stmtsTruthNames ss
termination_by structural l => l
def elseTruthNames : Option (List Stmt) → List String
  | none => []
  | some ss => stmtsTruthNames ss
termination_by structural o => o
def optionTruthNames : Option Expr → List String
  | none => []
  | some e => exprTruthNames e
termination_by structural o => o
end

/-! ## The places a walk comes to -/

inductive Site
  | stmts (ss : List Stmt)
  | stmt (s : Stmt)
  | expr (e : Expr)
  | args (captured : List Bool) (args : List Arg)
  /-- The target of a replacement, once it is walked. -/
  | replaced (target : Expr)

abbrev Visits := List (Site × SupplyPoint)

section Visits

variable (c : Checker) (formal : String)

def after (walked : Except Span SupplyPoint) (visits : SupplyPoint → Visits) : Visits :=
  match walked with
  | .ok point => visits point
  | .error _ => []

/-- The point a condition is walked with. -/
def condPoint (cond : Expr) (point : SupplyPoint) : SupplyPoint :=
  match atom formal cond true point with
  | .noInfo => point
  | .test .. | .mention => { point with alive := some .supplied }

def visitTarget (target : Expr) (walkTarget : SupplyPoint → Except Span SupplyPoint)
    (visitsTarget : SupplyPoint → Visits) (point : SupplyPoint) : Visits :=
  match target with
  | .ident .. => []
  | target =>
    visitsTarget point ++ after (walkTarget point) fun point => [(.replaced target, point)]

def visitArms (cond : Expr) (walkCond walkThen : SupplyPoint → Except Span SupplyPoint)
    (visitsCond visitsThen visitsElse : SupplyPoint → Visits) (point : SupplyPoint) : Visits :=
  visitsCond (condPoint formal cond point) ++
    match conditionArms formal cond walkCond point with
    | .error _ => []
    | .ok (point, thenAlive, elseAlive) =>
      visitsThen { point with alive := thenAlive } ++
        after (walkThen { point with alive := thenAlive }) fun _ =>
          visitsElse { point with alive := elseAlive }

mutual
def visitStmt (s : Stmt) (point : SupplyPoint) : Visits :=
  (.stmt s, point) ::
    match s with
    | .assign _ (.binOp .superAssign _ rhs _) _ => visitExpr rhs point
    | .assign target value _ =>
      visitExpr value point ++ after (walkExpr c formal value point)
        (visitTarget target (walkExpr c formal target) (visitExpr target))
    | .expr e => visitExpr e point
    | .ite cond thenBranch elseBranch _ =>
      visitArms formal cond (walkExpr c formal cond) (walkStmts c formal thenBranch)
        (visitExpr cond) (visitStmts thenBranch) (visitElse elseBranch) point
    | .forLoop .. | .whileLoop .. | .functionDef .. => []
    | .ret value _ => visitOption value point
termination_by structural s
def visitExpr (e : Expr) (point : SupplyPoint) : Visits :=
  (.expr e, point) ::
    match e with
    | .call func args _ =>
      if isMissingTestCall formal func args then []
      else
        visitExpr func point ++ after (walkExpr c formal func point)
          (visitArgs (c.capturedArguments func args) args)
    | .binOp .assign lhs rhs _ =>
      visitExpr rhs point ++ after (walkExpr c formal rhs point)
        (visitTarget lhs (walkExpr c formal lhs) (visitExpr lhs))
    | .binOp .superAssign lhs rhs _ =>
      visitExpr rhs point ++ after (walkExpr c formal rhs point) fun point =>
        match lhs with
        | .ident .. => []
        | lhs => visitExpr lhs point
    | .binOp _ lhs rhs _ =>
      visitExpr lhs point ++ after (walkExpr c formal lhs point) (visitExpr rhs)
    | .unaryOp _ e _ => visitExpr e point
    | .index base _ args _ =>
      visitExpr base point ++ after (walkExpr c formal base point) (visitArgs [] args)
    | .block body _ => visitStmts body point
    | .ite cond thenBranch elseBranch _ =>
      visitArms formal cond (walkExpr c formal cond) (walkExpr c formal thenBranch)
        (visitExpr cond) (visitExpr thenBranch) (visitOption elseBranch) point
    | .ident .. | .function .. | .missing _ | .unknown _ | .logical .. | .integer .. | .double ..
    | .string .. | .null _ | .na .. => []
termination_by structural e
def visitStmts : List Stmt → SupplyPoint → Visits
  | [], _ => []
  | s :: ss, point =>
    (.stmts (s :: ss), point) ::
      (visitStmt s point ++ after (walkStmt c formal s point) (visitStmts ss))
termination_by structural l => l
def visitElse : Option (List Stmt) → SupplyPoint → Visits
  | none, _ => []
  | some ss, point => visitStmts ss point
termination_by structural o => o
def visitOption : Option Expr → SupplyPoint → Visits
  | none, _ => []
  | some e, point => visitExpr e point
termination_by structural o => o
def visitArgs : List Bool → List Arg → SupplyPoint → Visits
  | _, [], _ => []
  | captured, arg :: args, point =>
    (.args captured (arg :: args), point) ::
      ((if captured.head?.getD false then [] else visitArg arg point) ++
        after (if captured.head?.getD false then .ok point else walkArg c formal arg point)
          (visitArgs captured.tail args))
termination_by structural _ l => l
def visitArg : Arg → SupplyPoint → Visits
  | .mk _ value _, point => visitExpr value point
termination_by structural a => a
end

end Visits

/-! ## What is asked at each place -/

section Regular

variable (c : Checker) (formal : String)

def stirs : AstNode → Bool
  | .stmt (.assign ..) | .stmt (.ite ..) | .stmt (.forLoop ..) | .stmt (.whileLoop ..) => true
  | .expr (.binOp .assign ..) | .expr (.binOp .superAssign ..) | .expr (.ite ..) => true
  | _ => false

/-- The expression neither branches nor assigns. -/
def isStraight (e : Expr) : Bool := !anyInExpr { fnBodies := false } stirs e

/-- Whether the conjunction or disjunction asserts a test that its left side refutes. -/
def isCoherent (point : SupplyPoint) : Expr → Bool
  | .unaryOp .not e _ => isCoherent point e
  | .binOp .andAnd lhs rhs _ =>
    isCoherent point lhs && isCoherent point rhs &&
      !((atom formal lhs true point).facts.1 = .defaulted ∧
        (atom formal rhs true point).facts.1 = .supplied)
  | .binOp .orOr lhs rhs _ =>
    isCoherent point lhs && isCoherent point rhs &&
      !((atom formal lhs true point).facts.2 = .defaulted ∧
        (atom formal rhs true point).facts.2 = .supplied)
  | _ => true

/-- The nodes that test the formal, or name what holds a test. -/
def testNode (tested : Finset String) : AstNode → Bool :=
  supplyTestNode formal fun name => if name ∈ tested then some true else none

/-- No truth value that `names` decide comes from a test. -/
def Free (tested : Finset String) (hasTest : Bool) (names : List String) : Prop :=
  hasTest = false ∧ ∀ name ∈ names, name ∉ tested

variable (tested : Finset String)

/-- A test is decoded only where nothing has silenced the formal, in a condition that neither
branches nor assigns; a name that may hold a test is known to. -/
def CondOk (cond : Expr) (point : SupplyPoint) : Prop :=
  match atom formal cond true point with
  | .noInfo =>
    point.Open → exprFlows c cond = true ∧ ∀ name ∈ exprTruthNames cond, name ∉ tested
  | .test .. => point.alive ≠ some .supplied ∧ (point.Open →
      exprFlows c cond = true ∧ isStraight cond = true ∧ isCoherent formal point cond = true ∧
        ∀ name ∈ exprTruthNames cond, name ∈ tested → (point.proxies name).isSome)
  | .mention => True

/-- `tested` has every name that is assigned a test, and a target that is walked comes after a value
that completes. -/
def AssignOk (target value : Expr) : Prop :=
  match target with
  | .ident name _ => anyInExpr .all (testNode formal tested) value = true → name ∈ tested
  | .string name _ =>
    exprFlows c value = true ∧
      (anyInExpr .all (testNode formal tested) value = true → name ∈ tested)
  | _ => exprFlows c value = true

/-- Both operands of a conjunction or disjunction can be come to, or the right one does nothing. -/
def JunctionOk (lhs rhs : Expr) : Prop :=
  exprFlows c lhs = true ∧
    (isStraight rhs = true ∧ referencesFormal formal rhs = false ∨
      Free tested (anyInExpr .all (testNode formal ∅) lhs) (exprTruthNames lhs))

def isPlainName : Expr → Bool
  | .ident name _ => name ≠ formal
  | .string .. => true
  | _ => false

/-- What is asked of a place the walk comes to. -/
def Ok : Site → SupplyPoint → Prop
  | .stmts (s :: _ :: _), point => point.Open → stmtFlows c s = true
  | .stmts _, _ => True
  | .stmt (.assign _ (.binOp .superAssign lhs rhs operation) span), point =>
    point.Open → isOutward span (.binOp .superAssign lhs rhs operation) = true ∧
      isStraight lhs = true
  | .stmt (.assign target value _), point => point.Open → AssignOk c formal tested target value
  | .stmt (.ite cond _ _ _), point => CondOk c formal tested cond point
  | .stmt (.forLoop ..), _ | .stmt (.whileLoop ..), _ => False
  | .stmt (.expr _), _ | .stmt (.functionDef ..), _ | .stmt (.ret ..), _ => True
  | .expr (.call func args _), point => point.Open →
      if isMissingHead func then isMissingTestCall formal func args = false →
        isNamed args = true ∧ Divergence.identName func ≠ some formal
      else exprFlows c func = true
  | .expr (.binOp .assign lhs rhs _), point => point.Open → AssignOk c formal tested lhs rhs
  | .expr (.binOp .superAssign lhs _ _), point => point.Open →
      (match lhs with
      | .ident .. | .string .. => True
      | _ => False)
  | .expr (.binOp .andAnd lhs rhs _), point | .expr (.binOp .orOr lhs rhs _), point =>
    point.Open → JunctionOk c formal tested lhs rhs
  | .expr (.binOp _ lhs _ _), point => point.Open → exprFlows c lhs = true
  | .expr (.index base kind args _), point => point.Open →
      exprFlows c base = true ∧
        (kind.isMember = true → args.all fun arg => isPlainName formal arg.value)
  | .expr (.ite cond _ _ _), point => CondOk c formal tested cond point
  | .expr _, _ => True
  | .args captured (arg :: _ :: _), point => point.Open →
      captured.head?.getD false = true ∨ argFlows c arg = true
  | .args _ _, _ => True
  | .replaced target, point => point.Open → ∀ name, targetBase target = some name →
      point.proxies name = none ∧ (name = formal → referencesFormal formal target = true)

/-- Every place the walk of the body comes to is in order, for the names that may hold a test. -/
def Regular (body : List Stmt) : Prop :=
  ∃ tested : Finset String, ∀ visit ∈ visitStmts c formal body .new,
    Ok c formal tested visit.1 visit.2

end Regular

end Ry.FormalSupply
