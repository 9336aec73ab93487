import Mathlib.Data.List.Sort
import Ry.Lsp.RoundTrip
import Ry.Suppress.Placed

/-! # Quick fixes that suppress a diagnostic

`make_ignore_action` and `make_ignore_file_action` of the server's `diagnostics.rs`.  The parser is a
parameter: of its trees, the comments and whether there are errors are read.  `Lexes` says what a
comment is to it.
-/

namespace Ry.Ignore

structure SourceFile where
  source : List Char
  comments : List Comment
  parseErrors : List String

inductive NumberOrString
  | number (n : Int)
  | string (s : String)

structure LspDiagnostic where
  range : Range
  code : Option NumberOrString

/-- No code is the empty one. -/
def diagCodeFromLsp (d : LspDiagnostic) : String :=
  match d.code with
  | some (.string s) => s
  | some (.number n) => toString n
  | none => ""

structure TextEdit where
  range : Range
  newText : List Char

structure CodeAction where
  title : String
  edit : TextEdit

def TextEdit.apply (edit : TextEdit) (text : List Char) : Option (List Char) :=
  (rangeByteSpan text edit.range).map fun (start, stop) =>
    replaceRange text start stop edit.newText

/-- The byte after the line feed before the line. -/
def lineStart (text : List Char) : Nat → Nat
  | 0 => 0
  | newlines + 1 => (lineFeeds 0 text)[newlines]?.getD (byteLen text)

def validRules : SuppressionKind → List (List Char)
  | .selective codes => codes
  | _ => []

/-- `dedup`: neighbours are told apart. -/
def dedup : List (List Char) → List (List Char)
  | a :: b :: rest => if a = b then dedup (b :: rest) else a :: dedup (b :: rest)
  | rest => rest

/-- The comment that suppresses the code and what the line's comment suppresses. -/
def directive (code : String) (comment : Option Comment) (trailing : List Suppression) :
    List Char :=
  if code = "" then if comment.isSome then "# ry: ignore[]".toList else "# ry: ignore".toList
  else
    let codes := trailing.flatMap (validRules ·.kind) ++ [code.toList]
    "# ry: ignore[".toList ++ ", ".toList.intercalate (dedup (codes.insertionSort (· ≤ ·))) ++ [']']

/-- Only bracketed directives delimit their codes from trailing prose. -/
def isBracketed (body : List Char) : Bool :=
  ["ry: ignore", "ry:ignore", "noqa"].any fun marker =>
    (stripPrefix marker ((trimStart body).map Char.toLower)).any fun rest =>
      startsWithAny (trimStart rest) ['['] && rest.contains ']'

def newLine (lineText directive : List Char) (comment : Option Comment)
    (trailing : List Suppression) : List Char :=
  match comment with
  | some comment =>
    if trailing ≠ [] ∧ isBracketed comment.body then
      prefixBytes lineText comment.col ++ directive ++ (comment.body.dropWhile (· ≠ ']')).tail
    else
      prefixBytes lineText comment.col ++ directive ++ "  ".toList ++
        suffixBytes lineText comment.col
  | none => lineText ++ "  ".toList ++ directive

/-- Without a code, only a directive for all rules will do. -/
def isAskedFor (code : String) (s : Suppression) : Bool :=
  if code = "" then s.kind = .all else s.suppresses code

def ignoreTitle (code : String) : String :=
  if code = "" then "Ignore this diagnostic on its line" else "Ignore " ++ code ++ " on this line"

section
variable (parse : List Char → Option SourceFile)

/-- The edit is offered when the parser reads the new comment and the checker then drops the
diagnostic. -/
def makeIgnoreAction (diag : LspDiagnostic) (file : SourceFile) : Option CodeAction := do
  let text := file.source
  let line := diag.range.start.line.toNat
  let lineText ← (sourceLines text)[line]?
  let code := diagCodeFromLsp diag
  let suppressions := parseSuppressionsFromComments file.comments text
  if suppressions.any (fun s => s.line = line && s.suppresses code) then none
  else if file.parseErrors ≠ [] then none
  else
    let comment := file.comments.find? (·.line = line)
    let trailing := comment.elim [] fun comment => parseSuppressionsFromComments [comment] text
    let newText := newLine lineText (directive code comment trailing) comment trailing
    let stop := lineStart text line + byteLen lineText
    let edited := replaceRange text (lineStart text line) stop newText
    let editedFile ← parse edited
    let markerCol := comment.elim (byteLen lineText + 2) Comment.col
    if !editedFile.comments.any (fun c => c.line = line && c.col = markerCol) then none
    else if !(parseSuppressionsFromComments editedFile.comments edited).any
        (fun s => s.line = line && isAskedFor code s) then none
    else
      some {
        title := ignoreTitle code
        edit := ⟨⟨⟨diag.range.start.line, 0⟩, byteOffsetToPosition text stop⟩, newText⟩ }

def makeIgnoreFileAction (file : SourceFile) : Option CodeAction :=
  if hasFileSuppressionFromComments file.comments then none
  else
    let shebang := ['#', '!'].isPrefixOf file.source
    let offset :=
      if shebang then
        if '\n' ∈ file.source then byteLen (file.source.takeWhile (· ≠ '\n')) + 1
        else byteLen file.source
      else 0
    let position := byteOffsetToPosition file.source offset
    let lead := if shebang ∧ '\n' ∉ file.source then ['\n'] else []
    some {
      title := "Ignore all diagnostics in this file"
      edit := ⟨⟨position, position⟩, lead ++ "# ry: ignore-file\n".toList⟩ }

/-! ## What is asked of the edits -/

/-- A comment of the file on the line at the column. -/
def SourceFile.HasComment (file : SourceFile) (line col : Nat) : Prop :=
  ∃ c ∈ file.comments, c.line = line ∧ c.col = col

/-- The end of a line, `old` or blank, is replaced by `new`.  The carriage return of a CRLF stays. -/
structure LineChange where
  above : List (List Char)
  below : List (List Char)
  before : List Char
  old : List Char
  blanks : List Char
  new : List Char
  cr : List Char
  blank : ∀ c ∈ blanks, c = ' '
  ending : cr = [] ∨ cr = ['\r']

namespace LineChange
variable (change : LineChange)

def line : Nat := change.above.length

def oldLine : List Char := change.before ++ change.old ++ change.cr

def newLine : List Char := change.before ++ change.blanks ++ change.new ++ change.cr

/-- The change is from one file to another, of a comment or of nothing to a comment. -/
structure PutsComment (file file' : SourceFile) : Prop where
  lines : rawLines file.source = change.above ++ change.oldLine :: change.below
  lines' : rawLines file'.source = change.above ++ change.newLine :: change.below
  replaced : change.old = [] ∨ file.HasComment change.line (byteLen change.before)
  put : file'.HasComment change.line (byteLen (change.before ++ change.blanks))

end LineChange

/-- What the parser takes for a comment: a `#` and the rest of its line.  Another comment at the end
of a line, or one where there is none, changes no other line. -/
structure Lexes : Prop where
  source : ∀ {text file}, parse text = some file → file.source = text
  once : ∀ {text file}, parse text = some file → ∀ c ∈ file.comments, ∀ c' ∈ file.comments,
    c.line = c'.line → c = c'
  stands : ∀ {text file}, parse text = some file → ∀ c ∈ file.comments,
    ∃ before, StandsAfter (rawLines text) c before
  swapped : ∀ {text text' file file'} {change : LineChange}, parse text = some file →
    parse text' = some file' → file.parseErrors = [] → change.PutsComment file file' →
    ∀ c : Comment, c.line ≠ change.line → (c ∈ file'.comments ↔ c ∈ file.comments)
  /-- At the top of a file, or after one comment, a `#` starts a comment. -/
  opens : ∀ {text file above body below}, parse text = some file →
    rawLines text = above ++ ('#' :: body) :: below → above.length ≤ 1 →
    (∀ line ∈ above, line.head? = some '#') → body.getLast? ≠ some '\r' →
    ⟨above.length, 0, body⟩ ∈ file.comments

end

/-- The file's directives drop a finding of the code on the line. -/
def SourceFile.Drops (file : SourceFile) (line : Nat) (code : String) : Prop :=
  hasFileSuppressionFromComments file.comments = true ∨
    ∃ c ∈ file.comments, c.Suppresses file.source line code

/-- Only the end of the line changes, from its comment on. -/
def OnlyComment (file file' : SourceFile) (line : Nat) : Prop :=
  ∃ change : LineChange, change.PutsComment file file' ∧ change.line = line

/-- The edit of a line does what it is for. -/
structure LineEdit (file file' : SourceFile) (line : Nat) (code : String) : Prop where
  onlyComment : OnlyComment file file' line
  drops : file'.Drops line code
  keeps : ∀ code', file.Drops line code' → file'.Drops line code'

/-- Every directive for the file is the line's comment. -/
def SourceFile.FileDirectiveOn (file : SourceFile) (line : Nat) : Prop :=
  hasFileSuppressionFromComments file.comments = true ∧
    ∀ c ∈ file.comments, parseIgnoreCommentBody c.body = some .file → c.line = line

end Ry.Ignore
