import Ry.Contract.Derive
import Ry.Promise.Runs

/-! # Guaranteed evaluation of a formal

The force and identifier functions of `quoting.rs`.  Two of them, `definitelyForcedIdentifier`
and `firstExecutedIdentifier`, call each other on one node: each has the cases it shares with
the other written out.

A prefix that cannot replace the promise or run user code may be crossed
(`expressionPreservesBinding`); what is read behind it is still read from the original promise.
-/

namespace Ry.Promise

/-- Pipes and `%in%` are calls with lazy arguments. -/
def opaqueBinaryOperator : BinOpKind → Bool
  | .pipeNative | .pipeForward | .pipeTee | .pipeAssign | .elemOf => true
  | _ => false

def isShortCircuit : BinOpKind → Bool
  | .andAnd | .orOr => true
  | _ => false

def isAssignment : BinOpKind → Bool
  | .assign | .superAssign => true
  | _ => false

def literalTruth : Expr → Option Bool
  | .logical b _ => some b
  | _ => none

/-- The literal operands that guarantee the evaluation of the right one. -/
def guaranteesRhs : BinOpKind → Option Bool → Bool
  | .andAnd, some true | .orOr, some false => true
  | _, _ => false

def startsWithBackquote (name : String) : Bool := name.toList.head? = some '\x60'

/-- The parser keeps backquotes and escapes: alternate spellings of one symbol are no
independent bindings. -/
def plainDistinctBindings (left right : String) : Bool :=
  !startsWithBackquote left && !startsWithBackquote right && left != right

section Analysis

variable (force : String → String → Option ForceSpec) (wanted : String)

/-! ## Prefixes that may be crossed -/

mutual
def statementPreservesBinding : Stmt → Bool
  | .assign target value _ =>
    (Divergence.identName target).any (plainDistinctBindings · wanted)
      && expressionPreservesBinding value
  | .expr value => expressionPreservesBinding value
  | .functionDef .. => true
  | .ite cond thenBranch elseBranch _ =>
    match literalTruth cond with
    | some true => statementsPreserveBinding thenBranch
    | some false => elseStatementsPreserveBinding elseBranch
    | none => false
  | _ => false
termination_by structural s => s
def statementsPreserveBinding : List Stmt → Bool
  | [] => true
  | s :: ss => statementPreservesBinding s && statementsPreserveBinding ss
termination_by structural l => l
def elseStatementsPreserveBinding : Option (List Stmt) → Bool
  | none => true
  | some ss => statementsPreserveBinding ss
termination_by structural o => o
def expressionPreservesBinding : Expr → Bool
  | .logical .. | .integer .. | .double .. | .string .. | .null _ | .na .. | .function .. => true
  | .binOp op lhs rhs _ =>
    match op with
    | .assign =>
      (Divergence.identName lhs).any (plainDistinctBindings · wanted)
        && expressionPreservesBinding rhs
    | _ => false
  | .block body _ => statementsPreserveBinding body
  | .ite cond thenBranch elseBranch _ =>
    match literalTruth cond with
    | some true => expressionPreservesBinding thenBranch
    | some false => elsePreservesBinding elseBranch
    | none => false
  | _ => false
termination_by structural e => e
def elsePreservesBinding : Option Expr → Bool
  | none => true
  | some e => expressionPreservesBinding e
termination_by structural o => o
end

/-! ## Forces -/

mutual
def guaranteedForceBeforeReplacement : List Stmt → Bool
  | [] => false
  | s :: ss =>
    (definitelyForcedIdentifierInStmt s).isSome
      || (statementPreservesBinding wanted s && guaranteedForceBeforeReplacement ss)
termination_by structural l => l
def guaranteedForceInElse : Option (List Stmt) → Bool
  | none => false
  | some ss => guaranteedForceBeforeReplacement ss
termination_by structural o => o
/-- Branch and loop bodies are not guaranteed to run; their conditions and a `for` loop's
iterator are. -/
def definitelyForcedIdentifierInStmt : Stmt → Option Span
  | .assign _ value _ => definitelyForcedIdentifier value
  | .expr value => definitelyForcedIdentifier value
  | .ite cond thenBranch elseBranch _ =>
    match literalTruth cond with
    | some true => if guaranteedForceBeforeReplacement thenBranch then some cond.span else none
    | some false => if guaranteedForceInElse elseBranch then some cond.span else none
    | none => definitelyForcedIdentifier cond
  | .whileLoop cond _ _ => definitelyForcedIdentifier cond
  | .forLoop _ _ iter _ _ => definitelyForcedIdentifier iter
  | .ret value _ => definitelyForcedOption value
  | .functionDef .. => none
termination_by structural s => s
def definitelyForcedIdentifier : Expr → Option Span
  | .binOp op lhs rhs _ =>
    if opaqueBinaryOperator op then none
    else if isShortCircuit op then
      (definitelyForcedIdentifier lhs).or
        (if guaranteesRhs op (literalTruth lhs) then definitelyForcedIdentifier rhs else none)
    else if isAssignment op then definitelyForcedIdentifier rhs
    else
      (definitelyForcedIdentifier lhs).or
        (if expressionPreservesBinding wanted lhs then definitelyForcedIdentifier rhs else none)
  | .ite cond thenBranch elseBranch _ =>
    match literalTruth cond with
    | some true => definitelyForcedIdentifier thenBranch
    | some false => definitelyForcedOption elseBranch
    | none => definitelyForcedIdentifier cond
  | .unaryOp _ e _ => definitelyForcedIdentifier e
  -- index methods can ignore subscript promises
  | .index base _ _ _ => definitelyForcedIdentifier base
  | .block body span => if guaranteedForceBeforeReplacement body then some span else none
  | .ident name span => if name = wanted then some span else none
  | .call func args _ =>
    (firstExecutedIdentifier func).or
      (((Divergence.identName func).bind (qualifiedForce force)).bind fun spec =>
        definitelyForcedArgument spec args)
  | _ => none
termination_by structural e => e
def definitelyForcedOption : Option Expr → Option Span
  | none => none
  | some e => definitelyForcedIdentifier e
termination_by structural o => o
/-- The only argument, where the contract speaks of it. -/
def definitelyForcedArgument (spec : ForceSpec) : List Arg → Option Span
  | [arg] => definitelyForcedArg spec arg
  | _ => none
termination_by structural l => l
def definitelyForcedArg (spec : ForceSpec) : Arg → Option Span
  | .mk name value _ =>
    if acceptsArgument spec name value then definitelyForcedIdentifier value else none
termination_by structural a => a
def firstExecutedIdentifierInStmts : List Stmt → Option Span
  | [] => none
  | s :: ss =>
    (firstExecutedIdentifierInStmt s).or
      (if statementPreservesBinding wanted s then firstExecutedIdentifierInStmts ss else none)
termination_by structural l => l
def firstExecutedInElse : Option (List Stmt) → Option Span
  | none => none
  | some ss => firstExecutedIdentifierInStmts ss
termination_by structural o => o
def firstExecutedIdentifierInStmt : Stmt → Option Span
  | .assign _ value _ => firstExecutedIdentifier value
  | .expr value => firstExecutedIdentifier value
  | .ite cond thenBranch elseBranch _ =>
    match literalTruth cond with
    | some true => firstExecutedIdentifierInStmts thenBranch
    | some false => firstExecutedInElse elseBranch
    | none => firstExecutedIdentifier cond
  | .forLoop _ _ iter _ _ => firstExecutedIdentifier iter
  | .whileLoop cond _ _ => firstExecutedIdentifier cond
  | .ret value _ => firstExecutedOption value
  | .functionDef .. => none
termination_by structural s => s
def firstExecutedIdentifier : Expr → Option Span
  | .binOp op lhs rhs _ =>
    if opaqueBinaryOperator op then none
    else if isShortCircuit op then
      (definitelyForcedIdentifier lhs).or
        (if guaranteesRhs op (literalTruth lhs) then definitelyForcedIdentifier rhs else none)
    else if isAssignment op then firstExecutedIdentifier rhs
    else
      (firstExecutedIdentifier lhs).or
        (if expressionPreservesBinding wanted lhs then firstExecutedIdentifier rhs else none)
  | .ident name span => if name = wanted then some span else none
  | .call func args _ =>
    (firstExecutedIdentifier func).or
      (((Divergence.identName func).bind (qualifiedForce force)).bind fun spec =>
        definitelyForcedArgument spec args)
  | .unaryOp _ e _ => firstExecutedIdentifier e
  | .index base _ _ _ => firstExecutedIdentifier base
  | .block body _ => firstExecutedIdentifierInStmts body
  | .ite cond thenBranch elseBranch _ =>
    match literalTruth cond with
    | some true => firstExecutedIdentifier thenBranch
    | some false => firstExecutedOption elseBranch
    | none => firstExecutedIdentifier cond
  | _ => none
termination_by structural e => e
def firstExecutedOption : Option Expr → Option Span
  | none => none
  | some e => firstExecutedIdentifier e
termination_by structural o => o
end

section

-- Lean derives the equations of these functions here, once for the modules that rewrite by them
attribute [local simp] statementPreservesBinding statementsPreserveBinding
  elseStatementsPreserveBinding expressionPreservesBinding elsePreservesBinding
  guaranteedForceBeforeReplacement guaranteedForceInElse definitelyForcedIdentifierInStmt
  definitelyForcedIdentifier definitelyForcedOption definitelyForcedArgument definitelyForcedArg
  firstExecutedIdentifierInStmts firstExecutedInElse firstExecutedIdentifierInStmt
  firstExecutedIdentifier firstExecutedOption

end

/-- The force of the argument a contract speaks of. -/
theorem forcedArgument_bind (func : Expr) (args : List Arg) :
    (forcedArgument force func args).bind (definitelyForcedIdentifier force wanted) =
      ((Divergence.identName func).bind (qualifiedForce force)).bind fun spec =>
        definitelyForcedArgument force wanted spec args := by
  unfold forcedArgument
  cases Divergence.identName func with
  | none => rfl
  | some name =>
    rw [Option.bind_some]
    cases hforce : qualifiedForce force name with
    | none => simp [hforce]
    | some spec =>
      simp only [hforce, Option.bind_some]
      match args with
      | [] => rfl
      | .mk .. :: _ :: _ => rfl
      | [.mk name value span] =>
        simp only [definitelyForcedArgument, definitelyForcedArg]
        split <;> rfl

/-- A formal whose default recurses: reported with the place of the reference, as certain when
the body must force the promise. -/
def recursingDefault (body : List Stmt) : Param → Option Span
  | .mk _ none _ => none
  | .mk _ (some default) _ =>
    if guaranteedForceBeforeReplacement force wanted body then
      firstExecutedIdentifier force wanted default
    else none

end Analysis

end Ry.Promise
