import Ry.Infer.Diverges
import Ry.Scope.State
import Ry.Syntax.Walk

/-! # The bindings of a frame

The parts of `collect.rs` that say which nodes bind a name in the frame they run in, and which
calls leave a generic's body.
-/

namespace Ry.Promise

def bindingName : Expr → Option String
  | .ident name _ | .string name _ => some name
  | _ => none

/-- The name a plain identifier denotes; none when it is spelled with an escape. -/
def identifierName (name : String) : Option String :=
  if hasEscape name then none else some (semanticArgumentName name)

def targetName : Expr → Option String
  | .ident name _ => identifierName name
  | .string name _ => some name
  | _ => none

/-- The value repeats the statement: only that inner operation writes, and it writes outward. -/
def isOutwardMarker (span : Span) : Expr → Bool
  | .binOp .superAssign _ _ operation => operation = span
  | _ => false

/-- The name `node` binds in the frame it runs in, where it binds one; an undecodable one may
be any name. -/
def frameBinding : AstNode → Option (Option String)
  | .stmt (.assign target value span) =>
    if (bindingName target).isSome && !isOutwardMarker span value then some (targetName target)
    else none
  | .expr (.binOp .assign lhs _ _) =>
    if (bindingName lhs).isSome then some (targetName lhs) else none
  | .stmt (.forLoop name _ _ _ _) => some (identifierName name)
  | _ => none

/-- `strip_package`: the name without its `package::` or `package:::`. -/
def stripPackage (name package : String) : Option String :=
  match rsplitOnceColons name.toList with
  | some (front, bare) =>
    let front := if front.getLast? = some ':' then front.dropLast else front
    if String.ofList front = package then some (String.ofList bare) else none
  | none => none

def namedOrFirstPositional (args : List Arg) (formal : String) : Option Arg :=
  (args.find? fun argument => argument.name.map semanticArgumentName = some formal).or
    (args.find? fun argument => argument.name.isNone)

def stringLiteral : Expr → Option String
  | .string value _ => some value
  | _ => none

/-- The number of positional arguments before the one that selects another environment. -/
def installerArity (name : String) : Option Nat :=
  match (stripPackage name "base").getD name with
  | "assign" => some 2
  | "delayedAssign" => some 3
  | _ => none

/-- The literal name an `assign()` or `delayedAssign()` call binds in the calling frame. -/
def installsInFrame : AstNode → Option String
  | .expr (.call (.ident name _) args _) =>
    match installerArity (semanticArgumentName name) with
    | none => none
    | some positionalLimit =>
      let elsewhere := args.any fun argument => argument.name.any fun tag =>
        semanticArgumentName tag ∈ ["pos", "envir", "assign.env"]
      if elsewhere || (args.filter (·.name.isNone)).length > positionalLimit then none
      else (namedOrFirstPositional args "x").bind fun argument => stringLiteral argument.value
  | _ => none

/-- Whether the name that `node` binds by an assignment may be `name`. -/
def mayBind (name : String) (node : AstNode) : Bool :=
  (frameBinding node).any fun bound => bound.all (· = name)

/-- Whether `statement` may bind `name` in the function's own frame. -/
def statementBinds (statement : Stmt) (name : String) : Bool :=
  let name := semanticArgumentName name
  anyInStmt .frame (fun node => mayBind name node || installsInFrame node = some name) statement

/-- Whether a default may write `name` in the frame: `default_local_writes` and `may_write`. -/
def defaultsMayWrite (params : List Param) (name : String) : Bool :=
  params.any fun
    | .mk _ none _ => false
    | .mk _ (some default) _ => anyInExpr .frame (mayBind name) default

/-- `UseMethod()` and `standardGeneric()` never return to the generic's body. -/
def isDispatchCall : Expr → Bool
  | .call (.ident name _) _ _ =>
    Divergence.bareName (semanticArgumentName name) ∈ ["UseMethod", "standardGeneric"]
  | _ => false

end Ry.Promise
