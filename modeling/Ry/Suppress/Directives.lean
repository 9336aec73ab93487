import Ry.Lib.Bytes
import Ry.Workspace.ReportOptions

/-! # Suppression directives

The directives of `diagnostics.rs` in comments: `# ry: ignore`, `# ry: ignore-file` and `# noqa`,
the code lists they write, and what they drop.  Text is a list of characters; of a rule, the
registry's code and name are all that is read here, and of a diagnostic its place and code.
-/

namespace Ry

structure Rule where
  code : String
  name : String

/-- `rules::RULES` -/
def rules : List Rule :=
  [⟨"RY000", "syntax-error"⟩, ⟨"RY001", "invalid-condition"⟩, ⟨"RY002", "condition-length"⟩,
    ⟨"RY003", "numeric-condition"⟩, ⟨"RY010", "unbound-variable"⟩, ⟨"RY020", "unary-minus-type"⟩,
    ⟨"RY021", "unary-not-type"⟩, ⟨"RY030", "invalid-comparison"⟩,
    ⟨"RY031", "invalid-logical-op"⟩, ⟨"RY032", "scalar-logical-length"⟩,
    ⟨"RY033", "comparison-mode-mismatch"⟩, ⟨"RY034", "compare-na"⟩,
    ⟨"RY040", "invalid-arithmetic"⟩, ⟨"RY041", "non-divisible-recycling"⟩,
    ⟨"RY042", "factor-arithmetic"⟩, ⟨"RY050", "missing-s3-method"⟩,
    ⟨"RY051", "incompatible-s3-operator-methods"⟩, ⟨"RY060", "undefined-column"⟩,
    ⟨"RY061", "dollar-on-atomic"⟩, ⟨"RY070", "call-non-function"⟩,
    ⟨"RY080", "map-return-type-mismatch"⟩, ⟨"RY090", "unknown-argument"⟩,
    ⟨"RY091", "missing-required-argument"⟩, ⟨"RY092", "argument-type-mismatch"⟩,
    ⟨"RY093", "comparison-inside-length"⟩, ⟨"RY094", "printf-argument-count"⟩,
    ⟨"RY096", "hasarg-non-formal"⟩, ⟨"RY097", "not-r-source"⟩,
    ⟨"RY098", "default-forced-before-assignment"⟩, ⟨"RY099", "discarded-conditional-value"⟩,
    ⟨"RY100", "comparison-inside-math-call"⟩, ⟨"RY101", "identical-list-subset-scalar"⟩,
    ⟨"RY102", "named-list-element-arrow"⟩, ⟨"RY103", "class-equality"⟩,
    ⟨"RY105", "constant-length-comparison"⟩, ⟨"RY106", "ifelse-mode-collapse"⟩,
    ⟨"RY107", "any-all-scalar-comparison"⟩, ⟨"RY108", "seq-defaulted-forward"⟩,
    ⟨"RY109", "self-referential-default"⟩, ⟨"RY110", "vacuous-all-guard"⟩,
    ⟨"RY111", "constant-argument-shadowing"⟩, ⟨"RY112", "invalid-ignore"⟩,
    ⟨"RY113", "unused-ignore"⟩, ⟨"RY114", "declaration-mismatch"⟩,
    ⟨"RY115", "declaration-incomplete"⟩, ⟨"RY116", "declaration-conflict"⟩,
    ⟨"RY117", "declaration-invalid"⟩, ⟨"RY118", "missing-box-export"⟩,
    ⟨"RY119", "integer-coercion-range-loss"⟩, ⟨"RY120", "report-boundary"⟩,
    ⟨"RY121", "report-execution-unknown"⟩, ⟨"RY122", "testthat-self-comparison"⟩,
    ⟨"RY123", "failed-namespace-access"⟩, ⟨"RY124", "top-level-network"⟩,
    ⟨"RY125", "dimensional-call-on-function"⟩, ⟨"RY126", "mixed-sign-sequence-index"⟩,
    ⟨"RY127", "nested-rep-in-concat"⟩, ⟨"RY128", "invalid-diag-dimension"⟩,
    ⟨"RY129", "nesting-limit"⟩]

/-- `rules::find` -/
def findRule (code : List Char) : Option Rule :=
  rules.find? fun r => r.code.toList == code || r.name.toList == code

/-- Directive diagnostics take severity overrides only. -/
def suppressible (code : String) : Bool := code != "RY112" && code != "RY113"

/-- A registered code, in capitals. -/
def isRuleCode (code : List Char) : Bool := (findRule code).any (·.code.toList == code)

inductive SuppressionKind
  | all
  | selective (codes : List (List Char))
  /-- A native directive whose spelling or code list cannot be honored. -/
  | invalid (reason : String)
  /-- An explicit `noqa` list containing only other tools' codes. -/
  | foreign
deriving DecidableEq

inductive SuppressionOrigin
  | ry
  | noqa
deriving DecidableEq

structure Suppression where
  /-- The code line the suppression applies to. -/
  line : Nat
  span : Span
  origin : SuppressionOrigin
  kind : SuppressionKind

namespace SuppressionKind

def suppresses (kind : SuppressionKind) (code : String) : Bool :=
  suppressible code &&
    match kind with
    | all => true
    | selective codes => codes.any (· == code.toList)
    | invalid _ | foreign => false

end SuppressionKind

def Suppression.suppresses (s : Suppression) (code : String) : Bool := s.kind.suppresses code

/-! ## Code lists -/

def upper (cs : List Char) : List Char := cs.map Char.toUpper

def looksLikeRuleCode (token : List Char) : Bool :=
  ((upper token).take 2 == ['R', 'Y'] || (upper token).take 2 == ['R', 'X'])
    && (upper token).any Char.isDigit && (upper token).all Char.isAlphanum

def startsWithWhitespace (cs : List Char) : Bool := cs.head?.any isWhitespace

/-- Explanatory text after a bracketed list; another bracket is a second list. -/
def bracketSuffixIsProse (suffix : List Char) : Bool :=
  suffix.isEmpty ||
    startsWithWhitespace suffix && !startsWithAny (trimStart suffix) ['[', ']']

/-- `split_whitespace` -/
def splitWhitespace (cs : List Char) : List (List Char) :=
  (cs.splitOnP isWhitespace).filter (· ≠ [])

/-- The entries between commas, blanks included. -/
def commaParts (list : List Char) : List (List Char) := list.splitOnP (· = ',')

def isSeparator (c : Char) : Bool := c = ',' || c = ' ' || c = '\t'

def tokens (list : List Char) : List (List Char) :=
  (list.splitOnP isSeparator).filter (· ≠ [])

/-- The word up to its first comma. -/
def firstPiece (word : List Char) : List Char := word.takeWhile (· ≠ ',')

def emptyEntry : String := "empty entry in ignore list"

/-- The loop over the groups of a list without brackets: the list, and whether it ends with a
comma. -/
def readGroups : List (List Char) → List Char → Bool → Except String (List Char × Bool)
  | [], list, pending => .ok (list, pending)
  | group :: groups, list, pending =>
    let comma := group.head? = some ','
    if comma ∧ (list = [] ∨ pending) then .error emptyEntry
    else
      let word := if comma then group.tail else group
      let list := if comma then list ++ [','] else list
      let pending := pending || comma
      if comma ∧ word = [] then readGroups groups list pending
      else if !looksLikeRuleCode (firstPiece word) then
        if pending then .error "expected rule code after `,`" else .ok (list, pending)
      else
        let list := if list ≠ [] ∧ !pending then list ++ [' '] else list
        readGroups groups (list ++ word) (word.getLast? = some ',')

/-- The codes of a list, once each. -/
def readCodes : List (List Char) → List (List Char) → SuppressionKind
  | [], codes => .selective codes
  | token :: rest, codes =>
    if !isRuleCode (upper token) then
      .invalid ("unknown ry rule code `" ++ String.ofList token ++ "`")
    else readCodes rest (if codes.contains (upper token) then codes else codes ++ [upper token])

/-- What follows once the list is cut out of the text. -/
def readList (bracket : Bool) (list : List Char) : SuppressionKind :=
  if trim list = [] then if bracket then .all else .invalid "empty ignore list"
  else if (commaParts list).any (trim · = []) then .invalid emptyEntry
  else readCodes (tokens list) []

/-- A bare marker, its `[]` alias and prose are the only all-rules forms. -/
def parseNativeCodes (text : List Char) : SuppressionKind :=
  match trim text with
  | [] => .all
  | '[' :: after =>
    if ']' ∉ after then .invalid "missing `]` in ignore list"
    else if !bracketSuffixIsProse (after.dropWhile (· ≠ ']')).tail then
      .invalid "malformed suffix after ignore list"
    else readList true (after.takeWhile (· ≠ ']'))
  | ':' :: after => readList false (trim after)
  | text =>
    let firstGroup := (splitWhitespace text).headD []
    if firstGroup.head? = some ',' then .invalid emptyEntry
    else if !looksLikeRuleCode (firstPiece firstGroup) then .all
    else
      match readGroups (splitWhitespace text) [] false with
      | .error reason => .invalid reason
      | .ok (_, true) => .invalid emptyEntry
      | .ok (list, false) => readList false list

def parseNoqaCodes (text : List Char) : SuppressionKind :=
  let select (list : List Char) : SuppressionKind :=
    let codes := ((tokens list).map upper).filter isRuleCode
    if codes = [] then .foreign else .selective codes
  match trim text with
  | [] => .all
  | '[' :: after =>
    if ']' ∉ after then .foreign
    else if !bracketSuffixIsProse (after.dropWhile (· ≠ ']')).tail then .foreign
    else select (after.takeWhile (· ≠ ']'))
  | ':' :: after => select (trim after)
  | text => select (trim text)

/-! ## Comments -/

inductive ParsedDirective
  | line (kind : SuppressionKind) (origin : SuppressionOrigin)
  | file
deriving DecidableEq

def markerBoundary (rest : List Char) : Bool :=
  rest.isEmpty || startsWithAny rest ['[', ':'] || startsWithWhitespace rest

def nativeMarkers : List String := ["ry: ignore", "ry:ignore"]

/-- The first native marker the text starts with, and the text after it in small letters. -/
def nativeMarker (lower : List Char) : Option (String × List Char) :=
  nativeMarkers.findSome? fun marker => (stripPrefix marker lower).map (marker, ·)

/-- A directive starts the comment's body; case does not count in the marker. -/
def parseIgnoreCommentBody (body : List Char) : Option ParsedDirective :=
  let body := trimStart body
  let lower := body.map Char.toLower
  match nativeMarker lower with
  | some (marker, rest) =>
    match stripPrefix "-file" rest with
    | some fileRest =>
      if fileRest.isEmpty || startsWithWhitespace fileRest then some .file else none
    | none =>
      if !markerBoundary rest then none
      else some (.line (parseNativeCodes (body.drop marker.toList.length)) .ry)
  | none =>
    if (stripPrefix "noqa" lower).any markerBoundary then
      some (.line (parseNoqaCodes (body.drop "noqa".toList.length)) .noqa)
    else none

structure Comment where
  line : Nat
  /-- In bytes; 0 for a comment that starts the line. -/
  col : Nat
  /-- After the `#`. -/
  body : List Char

/-- `str::lines` -/
def sourceLines (src : List Char) : List (List Char) :=
  let pieces := src.splitOnP (· = '\n')
  let last := pieces.getLast?.getD []
  pieces.dropLast.map (fun line => (stripSuffix "\r" line).getD line) ++
    if last = [] then [] else [last]

/-- The byte offsets after the line feeds. -/
def lineFeeds : Nat → List Char → List Nat
  | _, [] => []
  | offset, c :: cs =>
    if c = '\n' then (offset + 1) :: lineFeeds (offset + 1) cs
    else lineFeeds (offset + c.utf8Size) cs

def lineStarts (src : List Char) : List Nat := 0 :: lineFeeds 0 src

def commentSpan (c : Comment) (src : List Char) : Span :=
  let start := (lineStarts src)[c.line]?.getD (byteLen src) + c.col
  ⟨start, min (start + 1 + byteLen c.body) (byteLen src), c.line, c.col⟩

/-- Only whitespace precedes the comment; a column inside a character has no prefix. -/
def isWhitespaceOnlyPrefix (lines : List (List Char)) (c : Comment) : Bool :=
  lines[c.line]?.any fun line =>
    byteLen (prefixBytes line c.col) = c.col && trim (prefixBytes line c.col) = []

/-- The first line after `start` that is neither blank nor comment-only. -/
def nextCodeLine (lines : List (List Char)) (start : Nat) : Option Nat :=
  ((lines.drop (start + 1)).findIdx? fun line =>
    trim line ≠ [] && (trim line).head? ≠ some '#').map (start + 1 + ·)

/-- The line a directive applies to; at the end of the file only an invalid one stays. -/
def targetLine (lines : List (List Char)) (c : Comment) (kind : SuppressionKind) : Option Nat :=
  if c.col = 0 || isWhitespaceOnlyPrefix lines c then
    match nextCodeLine lines c.line with
    | some line => some line
    | none =>
      match kind with
      | .invalid _ => some c.line
      | _ => none
  else some c.line

def parseSuppressionsFromComments (comments : List Comment) (src : List Char) :
    List Suppression :=
  comments.filterMap fun c =>
    match parseIgnoreCommentBody c.body with
    | some (.line kind origin) =>
      (targetLine (sourceLines src) c kind).map fun line => ⟨line, commentSpan c src, origin, kind⟩
    | _ => none

def hasFileSuppressionFromComments (comments : List Comment) : Bool :=
  comments.any fun c => parseIgnoreCommentBody c.body = some .file

/-- Where a finding is and of which rule. -/
structure Diagnostic where
  span : Span
  code : String

def isSuppressed (d : Diagnostic) (suppressions : List Suppression) : Bool :=
  suppressions.any fun s => s.line = d.span.line && s.suppresses d.code

/-- Drop what a directive for the line suppresses, and everything if there is one for the file. -/
def filterSuppressedWithComments (diags : List Diagnostic) (comments : List Comment)
    (src : List Char) : List Diagnostic :=
  if hasFileSuppressionFromComments comments then []
  else
    let suppressions := parseSuppressionsFromComments comments src
    diags.filter fun d => !isSuppressed d suppressions

end Ry
