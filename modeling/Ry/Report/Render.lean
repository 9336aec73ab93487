import Ry.Config.PostProcess
import Ry.Lsp.Positions

/-! # The reports for continuous integration

`format.rs`: the `github`, `gitlab` and `junit` formats of `render_with_color`.  A report that
would slice a source inside a character is not rendered.
-/

namespace Ry

/-- A secondary location of a diagnostic. -/
structure Related where
  path : String
  span : Span
  message : String
deriving DecidableEq

/-- A diagnostic as the checker hands it to a formatter; its code is that of a rule. -/
structure CheckerDiagnostic extends Finding where
  related : List Related
  registered : isRuleCode code.toList
deriving DecidableEq

/-! ## Columns -/

/-- The line of `src` that contains the byte offset. -/
def lineContaining (src : List Char) (pos : Nat) : Option (List Char) :=
  let bounded := min pos (byteLen src)
  if byteLen (prefixBytes src bounded) = bounded then
    some (lastLine (prefixBytes src bounded) ++ (suffixBytes src bounded).takeWhile (· ≠ '\n'))
  else none

def byteColToCharCol : List Char → Nat → Nat
  | [], _ => 0
  | c :: line, byteCol =>
    if 0 < byteCol then byteColToCharCol line (byteCol - c.utf8Size) + 1 else 0

def charColFor (d : CheckerDiagnostic) (srcs : String → Option (List Char)) : Option Nat :=
  match srcs d.path with
  | some src =>
    (lineContaining src d.span.start).map fun line => byteColToCharCol line d.span.col + 1
  | none => some (d.span.col + 1)

/-! ## The formats -/

def digits (n : Nat) : List Char := Nat.toDigits 10 n

/-- The level of a workflow command. -/
def Severity.level : Severity → List Char
  | .error => "error".toList
  | .warning => "warning".toList
  | .info => "notice".toList

def githubLine (d : CheckerDiagnostic) (col : Nat) : List Char :=
  "::".toList ++ d.severity.level ++ " file=".toList ++ d.path.toList ++ ",line=".toList ++
    digits (d.span.line + 1) ++ ",col=".toList ++ digits col ++ "::".toList ++ d.code.toList ++
    ": ".toList ++ d.message.toList

def github (diags : List CheckerDiagnostic) (srcs : String → Option (List Char)) :
    Option (List Char) :=
  (diags.mapM fun d => (charColFor d srcs).map (githubLine d)).map endedLines

def Severity.quality : Severity → String
  | .error => "major"
  | .warning => "minor"
  | .info => "info"

/-- An entry of the code quality report, before it is serialised. -/
structure QualityEntry where
  description : String
  checkName : String
  fingerprint : List Char
  severity : String
  path : String
  begins : Nat

def gitlabEntry (d : CheckerDiagnostic) : QualityEntry where
  description := d.message
  checkName := d.code
  fingerprint := d.path.toList ++ ':' :: digits d.span.start ++ ':' :: d.code.toList
  severity := d.severity.quality
  path := d.path
  begins := d.span.line + 1

def gitlab (diags : List CheckerDiagnostic) : List QualityEntry := diags.map gitlabEntry

def Severity.tag : Severity → List Char
  | .error => "error".toList
  | .warning => "failure".toList
  | .info => "system-out".toList

/-- `str::replace` of one character. -/
def replaceChar (c : Char) (by_ : String) (text : List Char) : List Char :=
  text.flatMap fun d => if d = c then by_.toList else [d]

def escaped (message : List Char) : List Char :=
  replaceChar '"' "&quot;" (replaceChar '>' "&gt;" (replaceChar '<' "&lt;"
    (replaceChar '&' "&amp;" message)))

/-- The test case of a diagnostic, without the line feed at its end. -/
def junitCase (d : CheckerDiagnostic) (col : Nat) : List Char :=
  let line := digits (d.span.line + 1)
  "    <testcase name=\"".toList ++ d.code.toList ++ ": ".toList ++ d.path.toList ++ ":".toList ++
    line ++ "\" classname=\"".toList ++ d.path.toList ++ "\">\n".toList ++
  "      <".toList ++ d.severity.tag ++ " message=\"".toList ++ escaped d.message.toList ++
    "\" type=\"".toList ++ d.code.toList ++ "\">\n".toList ++
  "        ".toList ++ d.path.toList ++ ":".toList ++ line ++ ":".toList ++ digits col ++
    ": ".toList ++ d.code.toList ++ ": ".toList ++ escaped d.message.toList ++ "\n      </".toList ++
    d.severity.tag ++ ">\n    </testcase>".toList

def junit (diags : List CheckerDiagnostic) (srcs : String → Option (List Char)) :
    Option (List Char) :=
  let errors := diags.countP (·.severity = .error)
  let warnings := diags.countP (·.severity = .warning)
  (diags.mapM fun d => (charColFor d srcs).map (junitCase d)).map fun cases =>
    "<?xml version=\"1.0\" encoding=\"UTF-8\"?>\n<testsuites name=\"ry\">\n".toList ++
      "  <testsuite name=\"ry-check\" errors=\"".toList ++ digits errors ++
      "\" failures=\"".toList ++ digits warnings ++ "\" tests=\"".toList ++
      digits diags.length ++ "\">\n".toList ++ endedLines cases ++ "  </testsuite>\n</testsuites>\n".toList

end Ry
