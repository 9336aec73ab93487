import Ry.Promise.Mentions

/-! # Required formals

`block_force_flow` and the functions under it, which decide whether a body must force a formal,
and the `required` of `record_fn`.
-/

namespace Ry.Promise

/-- Whether code must force the name, whether control always falls through it, and whether it
may rebind the name first. -/
structure ForceFlow where
  forces : Bool
  falls : Bool
  rebinds : Bool
deriving DecidableEq

section Test

variable (alphanumeric : Char → Bool)

/-- `Some(true)` for `missing(name)`, `Some(false)` for `!missing(name)`, and what a junction
makes of them where nothing beside the test can touch a missing argument. -/
def missingTest (name : String) : Expr → Option Bool
  | .unaryOp .not e _ => (missingTest name e).map (!·)
  | .binOp op lhs rhs _ =>
    let test (decided shortCircuits : Bool) : Option Bool :=
      let left := missingTest name lhs
      let right := missingTest name rhs
      let safe (test : Option Bool) (operand : Expr) :=
        test.isSome || !exprMentions alphanumeric operand name
      if left = some decided && (shortCircuits || safe right rhs)
        || right = some decided && safe left lhs then some decided
      else none
    match op with
    | .orOr => test true true
    | .or => test true false
    | .andAnd => test false true
    | .and => test false false
    | _ => none
  | .call (.ident callee _) [.mk _ (.ident probed _) _] _ =>
    if Divergence.bareName callee = "missing" && probed = name then some true else none
  | _ => none

end Test

section Flow

variable (alphanumeric : Char → Bool) (name : String)

/-- What an `if` rebinds: a missing argument takes the `missing(name)` branch. -/
def armsRebind (cond : Expr) (thenRebinds elseRebinds : Bool) : Bool :=
  match missingTest alphanumeric name cond with
  | some true => thenRebinds
  | some false => elseRebinds
  | none => thenRebinds && elseRebinds

/-- A bare name under `[` may be the empty subscript. -/
def isEmptySubscript (kind : IndexKind) : Expr → Bool
  | .ident .. => kind = .single
  | _ => false

def isReturnCall : Expr → Bool
  | .call (.ident name _) _ _ => name = "return"
  | _ => false

mutual
/-- Force detection stops at the first forcing, non-falling or rebinding statement, while the
fall-through is that of the whole block. -/
def blockForceFlow : List Stmt → ForceFlow
  | [] => ⟨false, true, false⟩
  | s :: ss =>
    let flow := statementForceFlow s
    let rest := blockForceFlow ss
    if flow.forces then ⟨true, flow.falls && rest.falls, false⟩
    else if !flow.falls || flow.rebinds then ⟨false, flow.falls && rest.falls, flow.rebinds⟩
    else ⟨rest.forces, flow.falls && rest.falls, rest.rebinds⟩
termination_by structural l => l
def elseForceFlow : Option (List Stmt) → ForceFlow
  | none => ⟨false, true, false⟩
  | some ss => blockForceFlow ss
termination_by structural o => o
def statementForceFlow (s : Stmt) : ForceFlow :=
  match s with
  | .assign _ value _ | .expr value =>
    if isReturnCall value then ⟨returnedMustForce value, false, false⟩
    else if isDispatchCall value then ⟨false, false, false⟩
    else
      let forces := expressionMustForce value
      ⟨forces, true, !forces && statementBinds s name⟩
  | .ite cond thenBranch elseBranch _ =>
    let thenFlow := blockForceFlow thenBranch
    let elseFlow := elseForceFlow elseBranch
    let forces := expressionMustForce cond || thenFlow.forces && elseFlow.forces
    ⟨forces, thenFlow.falls && elseFlow.falls,
      !forces && armsRebind alphanumeric name cond thenFlow.rebinds elseFlow.rebinds⟩
  -- an empty iterable never runs the body
  | .forLoop binder _ iter _ _ =>
    let forces := expressionMustForce iter
    ⟨forces, true, !forces && semanticArgumentName binder = semanticArgumentName name⟩
  | .whileLoop cond _ _ => ⟨expressionMustForce cond, false, false⟩
  | .ret value _ => ⟨optionMustForce value, false, false⟩
  | .functionDef .. => ⟨false, true, false⟩
termination_by structural s
/-- Whether the value of a `return` call must force the name. -/
def returnedMustForce : Expr → Bool
  | .call _ args _ => firstMustForce args
  | _ => false
termination_by structural e => e
def firstMustForce : List Arg → Bool
  | [] => false
  | arg :: _ => argMustForce arg
termination_by structural l => l
def argMustForce : Arg → Bool
  | .mk _ value _ => expressionMustForce value
termination_by structural a => a
def expressionMustForce : Expr → Bool
  | .ident identifier _ => identifier = name
  | .binOp op lhs rhs _ =>
    match op with
    -- a name that is assigned is written, not read
    | .assign | .superAssign =>
      if (bindingName lhs).isSome then expressionMustForce rhs
      else expressionMustForce lhs || expressionMustForce rhs
    | .andAnd | .orOr => expressionMustForce lhs
    | _ => expressionMustForce lhs || expressionMustForce rhs
  | .unaryOp _ e _ => expressionMustForce e
  | .index base kind args _ =>
    expressionMustForce base || !kind.isMember && subscriptsMustForce kind args
  | .call func _ _ => expressionMustForce func
  | .block body _ => (blockForceFlow body).forces
  | .ite cond thenBranch elseBranch _ =>
    expressionMustForce cond || expressionMustForce thenBranch && optionMustForce elseBranch
  | _ => false
termination_by structural e => e
def subscriptsMustForce (kind : IndexKind) : List Arg → Bool
  | [] => false
  | arg :: args => subscriptMustForce kind arg || subscriptsMustForce kind args
termination_by structural l => l
def subscriptMustForce (kind : IndexKind) : Arg → Bool
  | .mk _ value _ => !isEmptySubscript kind value && expressionMustForce value
termination_by structural a => a
def optionMustForce : Option Expr → Bool
  | none => false
  | some e => expressionMustForce e
termination_by structural o => o
end

section

-- Lean derives the equations of these functions here, once for the modules that rewrite by them
attribute [local simp] blockForceFlow elseForceFlow statementForceFlow returnedMustForce
  firstMustForce argMustForce expressionMustForce subscriptsMustForce subscriptMustForce
  optionMustForce

end

end Flow

/-- Whether `record_fn` marks a formal required. -/
def required (alphanumeric : Char → Bool) (params : List Param) (body : List Stmt) : Param → Bool
  | .mk name default _ =>
    name != "..." && default.isNone && !defaultsMayWrite params (semanticArgumentName name)
      && (blockForceFlow alphanumeric name body).forces

end Ry.Promise
