import Ry.Declared.Compare
import Ry.Lib.Bytes
import Ry.Lib.Delimited
import Mathlib.Data.List.Lex

/-! # Declared signatures

`declarations.rs`: the canonical spelling and the normalized form of a declared predicate and of a
signature, with the budgets both are under, and `decide_target` of `declaration_check.rs`, which
selects a contract for a function from the records about it.  Texts are lists of characters, and
how JSON quotes a name is a parameter.
-/

namespace Ry.Declared

def maxDeclarationBytes : Nat := 4096
def maxDeclarationDepth : Nat := 16
def maxDeclarationNodes : Nat := 64
def maxUnionAlternatives : Nat := 16
def maxSignatureParameters : Nat := 64
def maxParameterNameBytes : Nat := 256

inductive DeclarationError
  | invalidSyntax (reason : String)
  | resourceLimit (reason : String)
  deriving DecidableEq

def DeclarationError.display : DeclarationError → String
  | .invalidSyntax reason => s!"invalid declaration: {reason}"
  | .resourceLimit reason => s!"declaration resource limit: {reason}"

/-- How `serde_json` writes a string: quoted, so that it shows where it ends. -/
structure JsonStrings where
  quote : List Char → List Char
  delimited : Delimited quote

/-- JSON strings as `serde_json` writes them. -/
def jsonStrings : JsonStrings := ⟨quoteString, quoteString_delimited⟩

def AtomicMode.name : AtomicMode → String
  | .logical => "logical"
  | .integer => "integer"
  | .double => "double"
  | .complex => "complex"
  | .character => "character"
  | .raw => "raw"
  | .list => "list"
  | .null => "null"

/-! ## Budgets -/

/-- One more node at this depth. -/
def countNode (depth nodes : Nat) : Except DeclarationError Nat :=
  if maxDeclarationDepth ≤ depth ∨ maxDeclarationNodes < nodes + 1 then
    .error (.resourceLimit "type nesting or node count exceeded")
  else .ok (nodes + 1)

mutual
def countTypeNodes : TypeExpr → Nat → Nat → Except DeclarationError Nat
  | .union members, depth, nodes =>
    match countNode depth nodes with
    | .error e => .error e
    | .ok nodes => countMemberNodes members (depth + 1) nodes
  | .unknown, depth, nodes => countNode depth nodes
  | .exactClass _, depth, nodes => countNode depth nodes
  | .atomic _ _, depth, nodes => countNode depth nodes
termination_by structural ty => ty
def countMemberNodes : List TypeExpr → Nat → Nat → Except DeclarationError Nat
  | [], _, nodes => .ok nodes
  | member :: members, depth, nodes =>
    match countTypeNodes member depth nodes with
    | .error e => .error e
    | .ok nodes => countMemberNodes members depth nodes
termination_by structural members => members
end

/-- A spelling within the byte budget. -/
def bounded (spelling : List Char) : Except DeclarationError (List Char) :=
  if maxDeclarationBytes < byteLen spelling then
    .error (.resourceLimit s!"canonical form exceeds {maxDeclarationBytes} bytes")
  else .ok spelling

/-! ## Types -/

section Spelling

variable (json : JsonStrings)

def lengthText : Option DeclaredLength → List Char
  | none => []
  | some (.exact value) => "<len=".toList ++ (Nat.toDigits 10 value ++ ['>'])
  | some .nonempty => "<len=".toList ++ ("1+".toList ++ ['>'])

def commaSpace : List Char := ", ".toList

def joined (texts : List (List Char)) : List Char := commaSpace.intercalate texts

mutual
/-- Only normalized expressions reach this formatter. -/
def render : TypeExpr → Except DeclarationError (List Char)
  | .unknown => bounded "unknown".toList
  | .exactClass name =>
    if name.toList = [] ∨ maxParameterNameBytes < byteLen name.toList then
      .error (.invalidSyntax "class name must be nonempty and at most 256 bytes")
    else bounded ("class".toList ++ ('[' :: json.quote name.toList ++ [']']))
  | .atomic mode length =>
    if mode = .null ∧ length ≠ none ∧ length ≠ some (.exact 0) then
      .error (.invalidSyntax "null has length zero")
    else bounded (mode.name.toList ++ lengthText length)
  | .union members =>
    match renderAll members with
    | .error e => .error e
    | .ok rendered => bounded ("union".toList ++ ('[' :: joined rendered ++ [']']))
termination_by structural ty => ty
def renderAll : List TypeExpr → Except DeclarationError (List (List Char))
  | [] => .ok []
  | member :: members =>
    match render member with
    | .error e => .error e
    | .ok text =>
      match renderAll members with
      | .error e => .error e
      | .ok texts => .ok (text :: texts)
termination_by structural members => members
end

/-- The members with their spellings. -/
def keyMembers : List TypeExpr → Except DeclarationError (List (List Char × TypeExpr))
  | [] => .ok []
  | member :: members =>
    match render json member with
    | .error e => .error e
    | .ok key =>
      match keyMembers members with
      | .error e => .error e
      | .ok keyed => .ok ((key, member) :: keyed)

/-- `dedup_by` on the keys, after an entry that stays. -/
def dedupAfter (last : List Char × TypeExpr) :
    List (List Char × TypeExpr) → List (List Char × TypeExpr)
  | [] => []
  | entry :: entries =>
    if entry.1 = last.1 then dedupAfter last entries else entry :: dedupAfter entry entries

def dedupByKey : List (List Char × TypeExpr) → List (List Char × TypeExpr)
  | [] => []
  | entry :: entries => entry :: dedupAfter entry entries

def sortByKey (keyed : List (List Char × TypeExpr)) : List (List Char × TypeExpr) :=
  keyed.mergeSort fun left right => decide (left.1 ≤ right.1)

/-- The alternatives a member contributes. -/
def TypeExpr.alternatives : TypeExpr → List TypeExpr
  | .union inner => inner
  | other => [other]

def TypeExpr.isUnknown : TypeExpr → Bool
  | .unknown => true
  | _ => false

def tooManyAlternatives : DeclarationError :=
  .resourceLimit s!"union has more than {maxUnionAlternatives} alternatives"

/-- The union of flattened members: sorted, without duplicates, and no union when one is left. -/
def collapse (flattened : List TypeExpr) : Except DeclarationError TypeExpr :=
  if flattened.any TypeExpr.isUnknown then
    .error (.invalidSyntax "unknown cannot be a union alternative")
  else
    match keyMembers json flattened with
    | .error e => .error e
    | .ok keyed =>
      let keyed := dedupByKey (sortByKey keyed)
      if maxUnionAlternatives < keyed.length then .error tooManyAlternatives
      else
        match keyed.map (·.2) with
        | [member] => .ok member
        | members => .ok (.union members)

mutual
def normalizedType : TypeExpr → Except DeclarationError TypeExpr
  | .union members =>
    if members.isEmpty then .error (.invalidSyntax "empty union")
    else if maxUnionAlternatives < members.length then .error tooManyAlternatives
    else
      match flattenMembers members with
      | .error e => .error e
      | .ok flattened => collapse json flattened
  | .unknown => .ok .unknown
  | .exactClass expected => .ok (.exactClass expected)
  | .atomic mode length => .ok (.atomic mode length)
termination_by structural ty => ty
def flattenMembers : List TypeExpr → Except DeclarationError (List TypeExpr)
  | [] => .ok []
  | member :: members =>
    match normalizedType member with
    | .error e => .error e
    | .ok normal =>
      match flattenMembers members with
      | .error e => .error e
      | .ok flattened => .ok (normal.alternatives ++ flattened)
termination_by structural members => members
end

/-- The stable spelling of a predicate.  The original tree is counted before it is flattened. -/
def canonicalType (ty : TypeExpr) : Except DeclarationError (List Char) :=
  match countTypeNodes ty 0 0 with
  | .error e => .error e
  | .ok _ =>
    match normalizedType json ty with
    | .error e => .error e
    | .ok normal => render json normal

/-! ## Signatures -/

inductive AssignmentSemantics
  | entryOnly
  | persistentBinding
  | coercesInput
  | unknown
  deriving DecidableEq

structure DeclaredSignature where
  parameters : List DeclaredParameter
  returnConstraint : Option TypeExpr
  assignment : AssignmentSemantics

def SupplyStatus.name : SupplyStatus → String
  | .required => "required"
  | .defaulted => "defaulted"
  | .defaultedSuppliedOnly => "defaulted_supplied_only"
  | .unknown => "unknown"

def EvaluationSemantics.name : EvaluationSemantics → String
  | .value => "value"
  | .promise => "promise"
  | .quoted => "quoted"
  | .unknown => "unknown"

def AssignmentSemantics.name : AssignmentSemantics → String
  | .entryOnly => "entry_only"
  | .persistentBinding => "persistent_binding"
  | .coercesInput => "coerces_input"
  | .unknown => "unknown"

def signatureTooLong : DeclarationError :=
  .resourceLimit s!"signature exceeds {maxDeclarationBytes} bytes"

/-- The constraint of a formal, or of the result, counted with those before it. -/
def countConstraint (constraint : Option TypeExpr) (nodes : Nat) : Except DeclarationError Nat :=
  match constraint with
  | none => .ok nodes
  | some constraint => countTypeNodes constraint 0 nodes

/-- The formals after the names in `seen`. -/
def validateParameters : List DeclaredParameter → List String → Nat → Except DeclarationError Nat
  | [], _, nodes => .ok nodes
  | parameter :: parameters, seen, nodes =>
    if maxParameterNameBytes < byteLen parameter.name.toList then
      .error (.resourceLimit s!"parameter name exceeds {maxParameterNameBytes} bytes")
    else if parameter.name = "" ∨
        decide (parameter.form = .variadic) ≠ decide (parameter.name = "...") ∨
        parameter.name ∈ seen then
      .error (.invalidSyntax "invalid or duplicate formal identity")
    else if parameter.form = .variadic ∧ parameter.supplied ≠ .unknown then
      .error (.invalidSyntax "variadic formal cannot have required/defaulted status")
    else
      match countConstraint parameter.constraint nodes with
      | .error e => .error e
      | .ok nodes => validateParameters parameters (parameter.name :: seen) nodes

def DeclaredSignature.validate (signature : DeclaredSignature) : Except DeclarationError Nat :=
  if maxSignatureParameters < signature.parameters.length then
    .error (.resourceLimit s!"signature has more than {maxSignatureParameters} parameters")
  else
    match validateParameters signature.parameters [] 0 with
    | .error e => .error e
    | .ok nodes => countConstraint signature.returnConstraint nodes

def constraintText : Option TypeExpr → Except DeclarationError (List Char)
  | none => .ok "none".toList
  | some constraint => canonicalType json constraint

def formText (parameter : DeclaredParameter) : String :=
  match parameter.form with
  | .variadic => "variadic"
  | .ordinary => parameter.supplied.name

/-- A formal up to its constraint. -/
def formalText (parameter : DeclaredParameter) : List Char :=
  (formText parameter).toList ++ '/' :: (parameter.evaluation.name.toList ++ ' ' ::
    (json.quote parameter.name.toList ++ ": ".toList))

/-- The formals after the text so far. -/
def spellParameters : List DeclaredParameter → List Char → Bool →
    Except DeclarationError (List Char)
  | [], text, _ => .ok text
  | parameter :: parameters, text, first =>
    match constraintText json parameter.constraint with
    | .error e => .error e
    | .ok constraint =>
      let text := text ++ ((if first then [] else commaSpace) ++
        (formalText json parameter ++ constraint))
      if maxDeclarationBytes < byteLen text then .error signatureTooLong
      else spellParameters parameters text false

/-- The canonical spelling: formals, supplied status, evaluation, assignment effects and
constraints. -/
def DeclaredSignature.canonical (signature : DeclaredSignature) :
    Except DeclarationError (List Char) :=
  match signature.validate with
  | .error e => .error e
  | .ok _ =>
    match spellParameters json signature.parameters
        ("fn[".toList ++ (signature.assignment.name.toList ++ ']' :: ['('])) true with
    | .error e => .error e
    | .ok text =>
      match constraintText json signature.returnConstraint with
      | .error e => .error e
      | .ok constraint =>
        let text := text ++ (") -> ".toList ++ constraint)
        if maxDeclarationBytes < byteLen text then .error signatureTooLong else .ok text

def normalizedConstraint : Option TypeExpr → Except DeclarationError (Option TypeExpr)
  | none => .ok none
  | some constraint => (normalizedType json constraint).map some

def normalizedParameters : List DeclaredParameter →
    Except DeclarationError (List DeclaredParameter)
  | [] => .ok []
  | parameter :: parameters =>
    match normalizedConstraint json parameter.constraint with
    | .error e => .error e
    | .ok constraint =>
      match normalizedParameters parameters with
      | .error e => .error e
      | .ok parameters => .ok ({ parameter with constraint } :: parameters)

/-- The signature that `canonical` spells. -/
def DeclaredSignature.normalized (signature : DeclaredSignature) :
    Except DeclarationError DeclaredSignature :=
  match signature.canonical json with
  | .error e => .error e
  | .ok _ =>
    match normalizedParameters json signature.parameters with
    | .error e => .error e
    | .ok parameters =>
      match normalizedConstraint json signature.returnConstraint with
      | .error e => .error e
      | .ok returnConstraint => .ok { signature with parameters, returnConstraint }

/-! ## Records and the contract of a function -/

structure ResidualConstraint where
  raw : String
  span : Span
  reason : String

inductive Translation
  | exact (signature : DeclaredSignature)
  | partly (supported : DeclaredSignature) (residuals : List ResidualConstraint)
  | unsupported (residuals : List ResidualConstraint)
  | invalidSyntax (reason : String)
  | ambiguousAttachment (reason : String)

inductive EvidenceUse
  | adoptedContract
  | runtimeGuard
  | documentationCandidate
  deriving DecidableEq

/-- What `decide_target` reads of a record. -/
structure DeclarationRecord where
  provider : String
  translation : Translation
  evidence : EvidenceUse

inductive FindingKind
  | mismatch
  | partly
  | unsupported
  | conflict
  | invalidSyntax
  | ambiguousAttachment
  deriving DecidableEq

structure TargetDecision where
  span : Span
  signature : Option DeclaredSignature
  reports : List (FindingKind × String)

/-- A constrained formal is a value or a promise when the body is entered. -/
def DeclaredSignature.evaluable (signature : DeclaredSignature) : Bool :=
  signature.parameters.all fun parameter =>
    parameter.constraint.isNone || parameter.evaluation = .promise || parameter.evaluation = .value

/-- What one record comes to. -/
inductive RecordOutcome
  /-- Not an adopted contract. -/
  | skipped
  | reported (kind : FindingKind) (message : String)
  | exact (canonical : List Char) (signature : DeclaredSignature)

def recordOutcome (record : DeclarationRecord) : RecordOutcome :=
  if record.evidence ≠ .adoptedContract then .skipped
  else
    let provider := record.provider
    match record.translation with
    | .exact signature =>
      match signature.canonical json with
      | .ok canonical =>
        if signature.assignment = .entryOnly then
          if signature.evaluable then .exact canonical signature
          else .reported .unsupported
            s!"adopted {provider} declaration has quoted or unknown parameter evaluation; no entry assumption is selected"
        else .reported .unsupported
          s!"adopted {provider} declaration has assignment effects outside entry-only checking"
      | .error error =>
        let reason := error.display
        .reported .invalidSyntax s!"adopted {provider} declaration is invalid: {reason}"
    | .partly _ residuals =>
      let count := residuals.length
      .reported .partly
        s!"adopted {provider} declaration has {count} unsupported residual constraint(s); no complete contract is selected"
    | .unsupported residuals =>
      let count := residuals.length
      .reported .unsupported
        s!"adopted {provider} declaration is unsupported ({count} residual constraint(s))"
    | .invalidSyntax reason =>
      .reported .invalidSyntax s!"adopted {provider} declaration has invalid syntax: {reason}"
    | .ambiguousAttachment reason =>
      .reported .ambiguousAttachment
        s!"adopted {provider} declaration has ambiguous attachment: {reason}"

/-- The selected signatures by canonical text, and the reports.  `none` is the panic of a
canonical signature that does not normalize. -/
def gatherRecords : List DeclarationRecord → List (List Char × DeclaredSignature) →
    List (FindingKind × String) →
    Option (List (List Char × DeclaredSignature) × List (FindingKind × String))
  | [], exact, reports => some (exact, reports)
  | record :: records, exact, reports =>
    match recordOutcome json record with
    | .skipped => gatherRecords records exact reports
    | .reported kind message => gatherRecords records exact (reports ++ [(kind, message)])
    | .exact canonical signature =>
      if exact.any fun entry => entry.1 = canonical then gatherRecords records exact reports
      else
        match signature.normalized json with
        | .error _ => none
        | .ok normal => gatherRecords records (exact ++ [(canonical, normal)]) reports

def conflictMessage : String :=
  "adopted declarations for this lexical function cannot be reconciled; none is used as a contract"

def decideTarget (span : Span) (records : List DeclarationRecord) : Option TargetDecision :=
  match gatherRecords json records [] [] with
  | none => none
  | some (exact, reports) =>
    let blocked := !reports.isEmpty
    let reports :=
      if 1 < exact.length ∨ (blocked ∧ exact ≠ []) then reports ++ [(.conflict, conflictMessage)]
      else reports
    let signature := if blocked ∨ exact.length ≠ 1 then none else exact.head?.map (·.2)
    some { span, signature, reports }

end Spelling

end Ry.Declared
