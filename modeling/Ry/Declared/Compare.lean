import Ry.Core.Ast
import Ry.Core.Join
import Ry.Infer.Args
import Ry.Project.Definitions

/-! # Checking adopted declarations

`declaration_check.rs` compares what inference knows of a value with a predicate an author
declared, gives a declared formal its type in the body, and checks the actuals of a call.
`declarations.rs` has the predicates.
-/

namespace Ry.Declared

inductive AtomicMode
  | logical | integer | double | complex | character | raw
  | list
  | null
  deriving DecidableEq, Repr

inductive DeclaredLength
  | exact (n : Nat)
  | nonempty
  deriving DecidableEq, Repr

/-- A declared predicate. -/
inductive TypeExpr
  /-- No type claim was established. -/
  | unknown
  /-- The single effective value returned by R's `class()`. -/
  | exactClass (expected : String)
  | atomic (mode : AtomicMode) (length : Option DeclaredLength)
  | union (alternatives : List TypeExpr)

inductive Evidence
  | compatible
  | incompatible
  | insufficient
  deriving DecidableEq, Repr

def atomicMode : AtomicMode → Mode
  | .logical => .logical
  | .integer => .integer
  | .double => .double
  | .complex => .complex
  | .character => .character
  | .raw => .raw
  | .list => .list
  | .null => .null

/-! ## Evidence -/

/-- A union constraint holds when any alternative holds, and is violated only when every
alternative is. -/
def combineAny (results : List Evidence) : Evidence :=
  if .compatible ∈ results then .compatible
  else if results ≠ [] ∧ ∀ result ∈ results, result = .incompatible then .incompatible
  else .insufficient

def combineAll (results : List Evidence) : Evidence :=
  if results = [] then .insufficient
  else if ∀ result ∈ results, result = .compatible then .compatible
  else if ∀ result ∈ results, result = .incompatible then .incompatible
  else .insufficient

def compareLength (actual : Length) : DeclaredLength → Evidence
  | .exact expected =>
    match actual with
    | .zero => if expected = 0 then .compatible else .incompatible
    | .one => if expected = 1 then .compatible else .incompatible
    | .known n => if n = expected then .compatible else .incompatible
    | .nonempty => if expected = 0 then .incompatible else .insufficient
    | .atLeast n => if expected < n then .incompatible else .insufficient
    | .unknown => .insufficient
  | .nonempty =>
    match actual with
    | .zero | .known 0 => .incompatible
    | .one | .known _ | .nonempty | .atLeast _ => .compatible
    | .unknown => .insufficient

/-- An empty class attribute does not establish the effective class, and a class test proves only
that the value passed it. -/
def compareClass (cls : ClassVector) (expected : String) : Evidence :=
  if !cls.known || cls.guarded || cls.names.isEmpty || decide (4 ≤ cls.names.length) then
    .insufficient
  else if cls.names = [expected] then .compatible
  else .incompatible

mutual
/-- The comparison for a type that is no union. -/
def compareOne (t : RType) : TypeExpr → Evidence
  | .exactClass expected => compareClass t.cls expected
  | .unknown => .insufficient
  | .union alternatives =>
    if t.mode.isUnknownOrNonVector then .insufficient
    else combineAny (compareAlternatives t alternatives)
  | .atomic mode length =>
    if t.mode.isUnknownOrNonVector then .insufficient
    else if t.mode ≠ atomicMode mode then .incompatible
    else
      match length with
      | none => .compatible
      | some declared => compareLength t.length declared
termination_by structural constraint => constraint
def compareAlternatives (t : RType) : List TypeExpr → List Evidence
  | [] => []
  | part :: parts => compareOne t part :: compareAlternatives t parts
termination_by structural parts => parts
end

mutual
/-- A mixed union or an unknown fact is never a proven violation. -/
def compare (constraint : TypeExpr) : RType → Evidence
  | ⟨mode, length, cls, columns, fnSig, members, valueFacts⟩ =>
    if mode = .union then compareMembers? constraint members
    else compareOne ⟨mode, length, cls, columns, fnSig, members, valueFacts⟩ constraint
termination_by structural t => t
def compareMembers? (constraint : TypeExpr) : Option (List RType) → Evidence
  | none => .insufficient
  | some members => combineAll (compareMembers constraint members)
termination_by structural members => members
def compareMembers (constraint : TypeExpr) : List RType → List Evidence
  | [] => []
  | member :: members => compare constraint member :: compareMembers constraint members
termination_by structural members => members
end

/-- Direct literal syntax proves the implicit class. -/
def directLiteralClass : Expr → Option String
  | .logical .. => some "logical"
  | .integer .. => some "integer"
  | .double .. => some "numeric"
  | .string .. => some "character"
  | .null _ => some "NULL"
  | .na type _ =>
    match type.mode with
    | .logical => some "logical"
    | .integer => some "integer"
    | .double => some "numeric"
    | .complex => some "complex"
    | .character => some "character"
    | _ => none
  | _ => none

mutual
def compareActual (t : RType) (expression : Expr) : TypeExpr → Evidence
  | .exactClass expected =>
    match compare (.exactClass expected) t with
    | .insufficient =>
      match directLiteralClass expression with
      | none => .insufficient
      | some actual => if actual = expected then .compatible else .incompatible
    | established => established
  | .union alternatives => combineAny (compareActualAlternatives t expression alternatives)
  | .unknown => compare .unknown t
  | .atomic mode length => compare (.atomic mode length) t
termination_by structural constraint => constraint
def compareActualAlternatives (t : RType) (expression : Expr) : List TypeExpr → List Evidence
  | [] => []
  | part :: parts =>
    compareActual t expression part :: compareActualAlternatives t expression parts
termination_by structural parts => parts
end

/-! ## The type a declared formal has in the body -/

def entryLength (mode : AtomicMode) : Option DeclaredLength → Length
  | some (.exact 0) => .zero
  | some (.exact 1) => .one
  | some (.exact n) => .known n
  | some .nonempty => .nonempty
  | none => if mode = .null then .zero else .unknown

mutual
def bodyEntryType : TypeExpr → Option RType
  | .unknown => some .unknown
  | .exactClass _ => none
  | .atomic mode length =>
    -- a storage-mode declaration does not prove a known-empty class
    some ((RType.new (atomicMode mode) (entryLength mode length)).withClass .unknown)
  | .union alternatives =>
    if alternatives ≠ [] ∧ alternatives.length ≤ maxUnionMembers then
      (bodyEntryTypes alternatives).map fun members =>
        (RType.ofMembers members).withClass .unknown
    else none
termination_by structural constraint => constraint
def bodyEntryTypes : List TypeExpr → Option (List RType)
  | [] => some []
  | part :: parts =>
    (bodyEntryType part).bind fun member => (bodyEntryTypes parts).map (member :: ·)
termination_by structural parts => parts
end

/-! ## The actuals of a call -/

inductive ParameterForm
  | ordinary
  | variadic
  deriving DecidableEq

inductive SupplyStatus
  | required
  | defaulted
  | defaultedSuppliedOnly
  | unknown
  deriving DecidableEq

inductive EvaluationSemantics
  | value
  | promise
  | quoted
  | unknown
  deriving DecidableEq

structure DeclaredParameter where
  name : String
  form : ParameterForm
  supplied : SupplyStatus
  evaluation : EvaluationSemantics
  /-- No constraint at all is not an explicit unknown one. -/
  constraint : Option TypeExpr

/-- A signature may constrain an ordered subset of the formals. -/
def matchesFormals : List DeclaredParameter → List (String × Bool) → List (String × Bool) →
    Except String Unit
  | [], _, _ => .ok ()
  | parameter :: parameters, formals, rest =>
    match rest.dropWhile fun formal => semanticArgumentName formal.1 ≠ parameter.name with
    | [] =>
      if formals.any fun formal => semanticArgumentName formal.1 = parameter.name then
        .error s!"declared parameter `{parameter.name}` has a different order from the attached function"
      else .error s!"declared parameter `{parameter.name}` is absent from the attached function"
    | (_, defaulted) :: rest =>
      if decide (parameter.form = .variadic) ≠ decide (parameter.name = "...") then
        .error s!"declared parameter `{parameter.name}` has the wrong formal form"
      else if ((parameter.supplied = .defaulted ∨ parameter.supplied = .defaultedSuppliedOnly) ∧
            defaulted = false) ∨
          (parameter.supplied = .required ∧ defaulted = true) then
        .error s!"declared supplied/defaulted status of `{parameter.name}` disagrees with its R formal"
      else matchesFormals parameters formals rest

/-- An actual that contradicts the constraint of a formal. -/
structure Mismatch where
  span : Span
  formal : String
  constraint : TypeExpr

def Arg.span : Arg → Span
  | .mk _ _ span => span

def isMissing : Expr → Bool
  | .missing _ => true
  | _ => false

/-- What is wrong with one actual. -/
def checkActual (signature : List DeclaredParameter) (params : List UserParam)
    (bindings : ArgumentMatch) : (Arg × RType) × Nat → Option Mismatch
  | ((argument, actual), index) =>
    if isMissing argument.value then none
    else
      -- dots have element semantics of their own
      ((bindings.actual index).bind fun formal => params[formal]?).bind fun formal =>
        ((signature.find? fun declared =>
          declared.name = semanticArgumentName formal.name).bind (·.constraint)).bind
            fun constraint =>
              if compareActual actual argument.value constraint = .incompatible then
                some ⟨Arg.span argument, formal.name, constraint⟩
              else none

def callBindings (function : UserFn) (args : List Arg) : ArgumentMatch :=
  matchArgumentNames (function.params.map fun parameter => semanticArgumentName parameter.name)
    (args.map fun argument => argument.name.map semanticArgumentName)

/-- The mismatches of a call to a function with an adopted declaration; `target` is the selected
signature of a definition. -/
def callMismatches (target : FunctionId → Option (List DeclaredParameter)) (discarding : Bool)
    (originalName : String) (function : Option UserFn) (args : List Arg)
    (argTypes : List RType) : List Mismatch :=
  if discarding || decide ("::".toList <:+: originalName.toList) then []
  else
    match function with
    | none => []
    | some function =>
      match target function.id with
      | none => []
      | some signature =>
        let formals := function.params.map fun parameter => (parameter.name, parameter.defaulted)
        match matchesFormals signature formals formals with
        | .error _ => []
        | .ok _ =>
          (args.zip argTypes).zipIdx.filterMap
            (checkActual signature function.params (callBindings function args))

structure DeclarationFinding where
  path : String
  span : Span
  message : String
  deriving DecidableEq

/-- The findings a call adds; `canonical` spells a constraint. -/
def checkDeclarationCall (canonical : TypeExpr → String)
    (target : FunctionId → Option (List DeclaredParameter)) (discarding : Bool)
    (path originalName lookupName : String) (function : Option UserFn) (args : List Arg)
    (argTypes : List RType) : List DeclarationFinding :=
  (callMismatches target discarding originalName function args argTypes).map fun mismatch =>
    let formal := mismatch.formal
    let constraint := canonical mismatch.constraint
    ⟨path, mismatch.span, s!"argument for `{lookupName}` formal `{formal}` conflicts with adopted constraint `{constraint}`"⟩

end Ry.Declared
