import Ry.Declared.Signatures
import Ry.Lib.Grouping
import Ry.Lib.Table
import Ry.Syntax.Lexical
import Ry.Syntax.Walker
import Ry.Workspace.Discovery
import Mathlib.Data.Prod.Lex

/-! # Declarations in comments

`typehint.rs`: the reader of `#| formal class` comments.  It finds the function of each comment in
one sweep over the file, gathers the clauses of each function and makes its records.  `none` is the
panic of a slice that is none.
-/

namespace Ry.Typehint

open Declared Lexical

def maxClausesPerFunction : Nat := 64
def maxAnnotationBytes : Nat := 4096

/-- The spans of functions in order. -/
abbrev Key := Nat ×ₗ Nat

def functionKey (span : Span) : Key := toLex (span.start, span.stop)

/-- What the reader reads of a file. -/
structure SourceFile where
  path : String
  /-- The path on disk, if the file was read from there. -/
  nativePath : Option Path
  source : List Char
  stmts : List Stmt
  parseErrors : List Span
  invalidUtf8 : List Span
  leadingBom : Bool
  syntaxViolations : List Span
  comments : List Comment
  functionBodies : List FunctionBody

/-- `box_imports::rejected_by_r` -/
def SourceFile.rejectedByR (file : SourceFile) : Bool :=
  file.leadingBom || !file.invalidUtf8.isEmpty || !file.parseErrors.isEmpty ||
    !file.syntaxViolations.isEmpty

structure NamedFunction where
  name : String
  span : Span
  /-- The formals by their semantic names, and whether they have a default. -/
  params : List (String × Bool)

inductive Clause
  /-- `#| formal class [rest]`; a class spelling that is not supported is in the residual. -/
  | claim (span : Span) (argument : String) (cls : Option String)
      (residual : Option ResidualConstraint)
  | invalid (span : Span) (reason : String)

def Clause.span : Clause → Span
  | claim span _ _ _ | invalid span _ => span

/-! ## Clauses -/

/-- The first word after an offset. -/
def nextToken (raw : List Char) (after : Nat) : Option (Nat × Nat) :=
  let rest := suffixBytes raw after
  match rest.dropWhile isWhitespace with
  | [] => none
  | word =>
    let start := after + byteLen (rest.takeWhile isWhitespace)
    some (start, start + byteLen (word.takeWhile (!isWhitespace ·)))

/-- `&raw[start..stop]` -/
def textBetween (raw : List Char) (start stop : Nat) : List Char :=
  suffixBytes (prefixBytes raw stop) start

def simpleWord (word : List Char) : Bool :=
  word ≠ [] && word.all fun c => c.isAlphanum || c = '.' || c = '_'

def validFormal (word : List Char) : Bool := word ≠ ['.', '.', '.'] && simpleWord word

def validClass (word : List Char) : Bool := byteLen word ≤ 256 && simpleWord word

def invalidClause (span : Span) : Clause := .invalid span "expected `#| formal class`"

/-- What stands from an offset on, and why it is not read. -/
def residualAt (raw : List Char) (span : Span) (offset : Nat) (reason : String) :
    ResidualConstraint :=
  let rest := trimEnd (suffixBytes raw offset)
  let start := span.start + offset
  ⟨String.ofList rest, ⟨start, start + byteLen rest, span.line, span.col + offset⟩, reason⟩

def unsupportedClass : String := "class spelling is outside the audited simple typehint subset"

def unsupportedRest : String :=
  "typehint dimension, exclusion, or value expression requires runtime evaluation"

/-- The clause of two words. -/
def wordClause (raw : List Char) (span : Span) (argument cls : List Char) (classStart classEnd : Nat) :
    Clause :=
  if !validFormal argument then invalidClause span
  else if !validClass cls then
    .claim span (String.ofList argument) none
      (some (residualAt raw span classStart unsupportedClass))
  else
    .claim span (String.ofList argument) (some (String.ofList cls))
      ((nextToken raw classEnd).map fun rest => residualAt raw span rest.1 unsupportedRest)

def parseClause (raw : List Char) (span : Span) : Clause :=
  match nextToken raw 2 with
  | none => invalidClause span
  | some (argumentStart, argumentEnd) =>
    match nextToken raw argumentEnd with
    | none => invalidClause span
    | some (classStart, classEnd) =>
      wordClause raw span (textBetween raw argumentStart argumentEnd)
        (textBetween raw classStart classEnd) classStart classEnd

/-- The clause of a comment whose text was cut to `raw`. -/
def clauseOf (raw : List Char) (span : Span) (fullEnd : Nat) : Clause :=
  if span.stop < fullEnd then
    .invalid span s!"typehint clause exceeds {maxAnnotationBytes} byte reader budget"
  else parseClause raw span

/-! ## The sweep -/

/-- What the callback notes down at an assignment of a function to a name. -/
def nameFunction (named : Table Key NamedFunction) : AstNode → Table Key NamedFunction
  | .stmt (.assign (.ident name _) (.function params _ span) _) =>
    named.insert (functionKey span) ⟨name, span,
      params.map fun | .mk name default _ => (semanticArgumentName name, default.isSome)⟩
  | _ => named

def namedFunctions (stmts : List Stmt) : Table Key NamedFunction :=
  (walkStmts WalkPolicy.all
    (fun named node _ => (nameFunction named node, (Answer.into : Answer Empty))) stmts ∅).1

/-- The comments with their byte offsets, in order. -/
def startedComments (file : SourceFile) : List (Nat × Comment) :=
  (file.comments.filterMap fun comment =>
    (lineStarts file.source)[comment.line]?.map fun line => (line + comment.col, comment)).mergeSort
    fun c d => decide (c.1 ≤ d.1)

def isBlank (c : Char) : Bool := c = ' ' || c = '\t'

/-- A Quarto cell option: `key: value`. -/
def isCellOption (afterPipe : List Char) : Bool :=
  (splitWhitespace afterPipe).head?.any fun word => word.getLast? = some ':'

/-- Where the text of a comment is cut. -/
def cutEnd (source : List Char) (start : Nat) (comment : Comment) : Nat :=
  backToBoundary source start
    (min (start + (1 + byteLen comment.body)) (start + maxAnnotationBytes))

/-- The innermost function, if the text is in its braced body and it is named. -/
def ownerOf (named : Table Key NamedFunction) (innermost : Option FunctionBody) (start stop : Nat) :
    Option Key :=
  innermost.bind fun innermost =>
    innermost.body.bind fun body =>
      if start ≤ body.start ∨ body.stop ≤ stop then none
      else (named.lookup (functionKey innermost.function)).map fun _ =>
        functionKey innermost.function

/-- The function that a comment belongs to, and the clause it is. -/
def readComment (source : List Char) (named : Table Key NamedFunction)
    (innermost : Option FunctionBody) (start : Nat) (comment : Comment) :
    Option (Option (Key × Clause)) :=
  let stop := cutEnd source start comment
  match slice source start stop with
  | none => some none
  | some raw =>
    match comment.body with
    | '|' :: afterPipe =>
      (slice source (start - comment.col) start).map fun before =>
        if !before.all isBlank || isCellOption afterPipe then none
        else
          (ownerOf named innermost start stop).map fun key =>
            (key, clauseOf raw ⟨start, stop, comment.line, comment.col⟩
              (start + (1 + byteLen comment.body)))
    | _ => some none

/-- One clause more than the budget records the overflow. -/
def pushClause (clauses : List Clause) (clause : Clause) : List Clause :=
  if clauses.length ≤ maxClausesPerFunction then clauses ++ [clause] else clauses

/-- The loop over the comments: the functions to come and the open ones, and the clauses so far. -/
def sweepComments (source : List Char) (named : Table Key NamedFunction) :
    List (Nat × Comment) → List FunctionBody × List FunctionBody → List (Key × List Clause) →
      Option (List (Key × List Clause))
  | [], _, groups => some groups
  | (start, comment) :: comments, state, groups =>
    let state := Sweep.advance (·.function.start) (·.function.stop) state start
    match readComment source named state.2.head? start comment with
    | none => none
    | some none => sweepComments source named comments state groups
    | some (some (key, clause)) =>
      sweepComments source named comments state (updateGroup key (pushClause · clause) groups)

/-! ## Records -/

/-- A class and the text of a residual. -/
abbrev Claim := Option String × Option String

/-- Whether two clauses claim different things of one formal, given the last claims so far. -/
def conflicting : List Clause → Table String Claim → Bool
  | [], _ => false
  | .invalid _ _ :: clauses, claims => conflicting clauses claims
  | .claim _ argument cls residual :: clauses, claims =>
    let claim := (cls, residual.map (·.raw))
    (claims.lookup argument).any (· ≠ claim) ||
      conflicting clauses (claims.insert argument claim)

/-- The range of a group, and the budget that it exceeds. -/
def groupExtent (clauses : List Clause) : Option (Span × Option String) :=
  match clauses.head?, clauses.getLast? with
  | some first, some last =>
    let (first, last) := (first.span, last.span)
    if maxAnnotationBytes < last.stop - first.start then
      some (first,
        some s!"typehint annotation range exceeds {maxAnnotationBytes} byte reader budget")
    else
      some (⟨first.start, last.stop, first.line, first.col⟩,
        if maxClausesPerFunction < clauses.length then
          some s!"more than {maxClausesPerFunction} typehint clauses for one function"
        else none)
  | _, _ => none

structure DeclarationTarget where
  path : String
  definition : Span
  displayName : Option String

structure DeclarationSource where
  provider : String
  providerVersion : Option String
  path : String
  span : Span
  raw : List Char
  target : DeclarationTarget

/-- A record with its source. -/
structure SourcedRecord where
  source : DeclarationSource
  translation : Translation
  evidence : EvidenceUse
  assumptions : List String

/-- The locals of the loop over the clauses. -/
structure Building where
  parameters : List DeclaredParameter := []
  residuals : List ResidualConstraint := []
  invalid : Option String := none
  ambiguous : Option String := none

def encodedFormal : String :=
  "an encoded or escaped R formal cannot be matched by the static typehint reader"

def declare (argument cls : String) (defaulted : Bool) : DeclaredParameter :=
  ⟨argument, .ordinary, if defaulted then .defaultedSuppliedOnly else .required, .promise,
    some (.exactClass cls)⟩

/-- The class of a formal; repeated clauses do not add a claim. -/
def addParameter (argument : String) (defaulted : Bool) (b : Building) : Option String → Building
  | none => b
  | some cls =>
    if b.parameters.any fun parameter => parameter.name = argument then b
    else { b with parameters := b.parameters ++ [declare argument cls defaulted] }

def addClause (target : NamedFunction) (b : Building) : Clause → Building
  | .invalid _ reason => { b with invalid := b.invalid <|> some reason }
  | .claim _ argument cls residual =>
    match target.params.find? fun formal => formal.1 = argument with
    | none =>
      if target.params.any fun formal => hasEscape formal.1 then
        { b with ambiguous := b.ambiguous <|> some encodedFormal }
      else
        let name := target.name
        { b with invalid := b.invalid <|> some s!"`{argument}` is not a formal of `{name}`" }
    | some (_, defaulted) =>
      addParameter argument defaulted { b with residuals := b.residuals ++ residual.toList } cls

/-- Where a formal stands. -/
def formalPosition (target : NamedFunction) (parameter : DeclaredParameter) : Nat :=
  (target.params.findIdx? fun formal => formal.1 = parameter.name).getD (2 ^ 64 - 1)

variable (json : JsonStrings)

def translationOf (target : NamedFunction) (b : Building) : Translation :=
  let signature : DeclaredSignature :=
    ⟨b.parameters.mergeSort fun p q => decide (formalPosition target p ≤ formalPosition target q),
      none, .entryOnly⟩
  match b.invalid, b.ambiguous with
  | some reason, _ => .invalidSyntax reason
  | none, some reason => .ambiguousAttachment reason
  | none, none =>
    match signature.canonical json with
    | .error error => .invalidSyntax error.display
    | .ok _ =>
      if b.residuals.isEmpty then .exact signature
      else if signature.parameters.isEmpty then .unsupported b.residuals
      else .partly signature b.residuals

def adoptedAssumptions : List String :=
  ["The authored comment is adopted as a static contract; execution of check_types() is not inferred",
    "Simple class clauses compare R's effective class(), not storage typeof()"]

def buildRecord (file : SourceFile) (target : NamedFunction) (sourceSpan : Span)
    (invalid : Option String) (clauses : List Clause) : Option SourcedRecord :=
  (slice file.source sourceSpan.start sourceSpan.stop).map fun raw =>
    { source := ⟨"typehint", some "0.1.0", file.path, sourceSpan, raw,
        ⟨file.path, target.span, some target.name⟩⟩
      translation := translationOf json target (clauses.foldl (addClause target) { invalid })
      evidence := .adoptedContract
      assumptions := adoptedAssumptions }

/-- The records of one function. -/
def recordsOf (file : SourceFile) (named : Table Key NamedFunction)
    (group : Key × List Clause) : Option (List SourcedRecord) :=
  match named.lookup group.1 with
  | none => some []
  | some target =>
    (groupExtent group.2).bind fun extent =>
      if conflicting group.2 ∅ ∧ extent.2 = none then
        group.2.mapM fun clause => buildRecord json file target clause.span none [clause]
      else (buildRecord json file target extent.1 extent.2 group.2).map fun record => [record]

def readRecordsAt {Pattern : Type} (fs : FileSystem) (glob : Discovery.Glob Pattern)
    (file : SourceFile) (nativePath : Path) (scope : Discovery.ScopedPaths Pattern) :
    Option (List SourcedRecord) :=
  if !scope.matches fs glob nativePath || file.rejectedByR then some []
  else
    let named := namedFunctions file.stmts
    (sweepComments file.source named (startedComments file) (file.functionBodies, []) []).bind
      fun groups => (groups.mapM (recordsOf json file named)).map List.flatten

end Ry.Typehint
