import Ry.Lib.Outcomes
import Ry.Supply.Walk

/-! # Executions of a body with the formal omitted

What R does with a loop-free body when the caller omits the formal, as far as the walk is
concerned: whether the name still holds its promise, and the truth values held by names that were
assigned a test.  `missing(p)` holds until the name is rebound.  Every other condition, a literal
too, may have either truth value each time it is evaluated.

A call forces its arguments in order, apart from those it receives unevaluated; a call judged
never to return leaves the body.  Names are compared as they are spelled.
-/

namespace Ry.FormalSupply

/-- The frame of one execution. -/
structure Frame where
  rebound : Bool
  held : String → Option Bool

def Frame.new : Frame := ⟨false, fun _ => none⟩

/-- An execution completes, leaves the body, or has reached a read while the formal still holds
its default. -/
abbrev Runs := List (Outcome Frame Span)

/-- The variable a replacement rebinds. -/
def targetBase : Expr → Option String
  | .ident name _ | .string name _ => some name
  | .index base _ _ _ => targetBase base
  | .call _ (.mk _ value _ :: _) _ => targetBase value
  | _ => none
termination_by structural e => e

section Runs

variable (c : Checker) (formal : String)

/-- A value decided by a supply test. -/
def isTested (value : Expr) (f : Frame) : Bool :=
  anyInExpr .all (supplyTestNode formal f.held) value

/-- The frame after `name` is bound to a value with truth value `b`. -/
def bind (name : String) (value : Expr) (b : Bool) (f : Frame) : Frame :=
  if name = formal then { f with rebound := true }
  else
    { f with
      held := Function.update f.held name (if isTested formal value f then some b else none) }

/-- The frame after a replacement of a part of `name`. -/
def replace (name : String) (f : Frame) : Frame :=
  if name = formal then { f with rebound := true }
  else { f with held := Function.update f.held name none }

/-- `missing()` inspects the promise of a name, and fails on anything else. -/
def missingRuns (args : List Arg) (f : Frame) : Runs :=
  match args with
  | [.mk _ (.ident name _) _] | [.mk _ (.string name _) _] =>
    if name = formal then [.done (!f.rebound) f] else Outcome.either f
  | _ => [.left]

def callLeaves (func : Expr) : Bool :=
  (Divergence.identName func).any (Divergence.callDiverges c.heads c.helper .full)

/-- The end of an assignment of a value with truth value `b`. -/
def assignRuns (target value : Expr) (b : Bool) (targetRuns : Frame → Runs) (f : Frame) : Runs :=
  match target with
  | .ident name _ => [.done b (bind formal name value b f)]
  | .string name _ => [.done b (bind formal name value b f)]
  | target => Outcome.andThen (targetRuns f) fun _ f =>
    [.done b ((targetBase target).elim f fun name => replace formal name f)]

/-- The marker of a statement `x <<- v`: only the operation inside writes, and it writes outward. -/
def isOutward (span : Span) : Expr → Bool
  | .binOp .superAssign _ _ operation => operation = span
  | _ => false

mutual
def stmtRuns (s : Stmt) (f : Frame) : Runs :=
  match s with
  | .assign target value span =>
    Outcome.andThen (exprRuns value f) fun b f =>
      if isOutward span value then [.done b f]
      else assignRuns formal target value b (exprRuns target) f
  | .expr e => exprRuns e f
  | .ite cond thenBranch elseBranch _ =>
    Outcome.andThen (exprRuns cond f) fun b f =>
      if b then stmtsRuns thenBranch f else elseRuns elseBranch f
  -- loops are left out
  | .forLoop .. | .whileLoop .. => []
  | .functionDef .. => Outcome.either f
  | .ret value _ => Outcome.andThen (optionRuns value f) fun _ _ => [.left]
termination_by structural s
def exprRuns (e : Expr) (f : Frame) : Runs :=
  match e with
  | .ident name span =>
    if name = formal then (if f.rebound then [] else [.reached span]) ++ Outcome.either f
    else
      match f.held name with
      | some b => [.done b f]
      | none => Outcome.either f
  | .call func args _ =>
    if isMissingHead func then missingRuns formal args f
    else
      Outcome.andThen (exprRuns func f) fun _ f =>
        Outcome.andThen (argsRuns (c.capturedArguments func args) args f) fun _ f =>
          if callLeaves c func then [.left] else Outcome.either f
  | .binOp .assign lhs rhs _ =>
    Outcome.andThen (exprRuns rhs f) fun b f => assignRuns formal lhs rhs b (exprRuns lhs) f
  | .binOp .superAssign lhs rhs _ =>
    Outcome.andThen (exprRuns rhs f) fun b f =>
      Outcome.andThen (outwardRuns lhs f) fun _ f => [.done b f]
  | .binOp .andAnd lhs rhs _ =>
    Outcome.andThen (exprRuns lhs f) fun b f => if b then exprRuns rhs f else [.done false f]
  | .binOp .orOr lhs rhs _ =>
    Outcome.andThen (exprRuns lhs f) fun b f => if b then [.done true f] else exprRuns rhs f
  | .binOp _ lhs rhs _ =>
    Outcome.andThen (exprRuns lhs f) fun _ f =>
      Outcome.andThen (exprRuns rhs f) fun _ f => Outcome.either f
  | .unaryOp .not e _ => Outcome.andThen (exprRuns e f) fun b f => [.done (!b) f]
  | .unaryOp .neg e _ => Outcome.andThen (exprRuns e f) fun _ f => Outcome.either f
  | .index base kind args _ =>
    -- the field of `$` and the slot of `@` are names
    Outcome.andThen (exprRuns base f) fun _ f =>
      if kind.isMember then Outcome.either f
      else Outcome.andThen (argsRuns [] args f) fun _ f => Outcome.either f
  | .block body _ => stmtsRuns body f
  | .ite cond thenBranch elseBranch _ =>
    Outcome.andThen (exprRuns cond f) fun b f =>
      if b then exprRuns thenBranch f else optionRuns elseBranch f
  | .function .. | .missing _ | .unknown _ | .logical .. | .integer .. | .double .. | .string ..
  | .null _ | .na .. => Outcome.either f
termination_by structural e
/-- The last statement gives the truth value. -/
def stmtsRuns : List Stmt → Frame → Runs
  | [], f => Outcome.either f
  | s :: ss, f =>
    Outcome.andThen (stmtRuns s f) fun b f => if ss.isEmpty then [.done b f] else stmtsRuns ss f
termination_by structural l => l
def elseRuns : Option (List Stmt) → Frame → Runs
  | none, f => Outcome.either f
  | some ss, f => stmtsRuns ss f
termination_by structural o => o
def optionRuns : Option Expr → Frame → Runs
  | none, f => Outcome.either f
  | some e, f => exprRuns e f
termination_by structural o => o
def argsRuns : List Bool → List Arg → Frame → Runs
  | _, [], f => Outcome.either f
  | captured, arg :: args, f =>
    Outcome.andThen (if captured.head?.getD false then Outcome.either f else argRuns arg f)
      fun _ f => argsRuns captured.tail args f
termination_by structural _ l => l
def argRuns : Arg → Frame → Runs
  | .mk _ value _, f => exprRuns value f
termination_by structural a => a
/-- The target of an outward assignment: its variable is looked up outside, its subscripts here. -/
def outwardRuns : Expr → Frame → Runs
  | .ident .. , f | .string .., f => Outcome.either f
  | .index base kind args _, f =>
    Outcome.andThen (outwardRuns base f) fun _ f =>
      if kind.isMember then Outcome.either f else argsRuns [] args f
  | .call _ (.mk _ value _ :: args) _, f =>
    Outcome.andThen (outwardRuns value f) fun _ f => argsRuns [] args f
  | _, _ => [.left]
termination_by structural e => e
end

/-- The executions of a body whose caller omits the formal. -/
def bodyRuns (body : List Stmt) : Runs := stmtsRuns c formal body .new

end Runs

end Ry.FormalSupply
