import Ry.Core.Ast
import Ry.Lib.Bytes
import Mathlib.Data.List.DropRight

/-! # Chunk headers and report metadata

The readers of `reports.rs`: code fences, R chunk headers, leading `#|` cell options and YAML keys.
Text is a list of characters; the source's byte loops look at ASCII bytes only.

The R parser is a parameter (`RParser`).  Its files have the tree of `ast.rs`.
-/

namespace Ry

def maxReportBytes : Nat := 2 * 1024 * 1024

def maxChunks : Nat := 128

def maxHeaderBytes : Nat := 16 * 1024

def maxHeaderFields : Nat := 128

inductive HeaderError
  | budget
  | unsupported

structure InputIssue where
  span : Span
  code : String
  message : String

structure RFile where
  source : List Char
  stmts : List Stmt
  parseErrors : List Span
  inputIssues : List InputIssue

/-- The parser, and its readers of quoted names. -/
structure RParser (Error : Type) where
  parse : String → List Char → Except Error RFile
  unquoteRString : String → String
  decodeRQuotedName : String → Option String

/-! ## Text -/

/-- `char::is_whitespace`. -/
def isWhitespace (c : Char) : Bool :=
  (0x9 ≤ c.toNat && c.toNat ≤ 0xD) || c = ' ' || c.toNat = 0x85 || c.toNat = 0xA0 ||
    c.toNat = 0x1680 || (0x2000 ≤ c.toNat && c.toNat ≤ 0x200A) || c.toNat = 0x2028 ||
    c.toNat = 0x2029 || c.toNat = 0x202F || c.toNat = 0x205F || c.toNat = 0x3000

def trimStart (cs : List Char) : List Char := cs.dropWhile isWhitespace

def trimEnd (cs : List Char) : List Char := cs.rdropWhile isWhitespace

def trim (cs : List Char) : List Char := trimEnd (trimStart cs)

def startsWithAny (cs starts : List Char) : Bool := cs.head?.any (starts.contains ·)

def endsWithAny (cs ends : List Char) : Bool := cs.getLast?.any (ends.contains ·)

def stripPrefix (start : String) (cs : List Char) : Option (List Char) :=
  List.isPrefixOf? start.toList cs

def stripSuffix (stop : String) (cs : List Char) : Option (List Char) :=
  List.isSuffixOf? stop.toList cs

/-- `eq_ignore_ascii_case`. -/
def eqIgnoreAsciiCase (cs : List Char) (s : String) : Bool := cs.map Char.toLower == s.toList

def isQuoted (text : List Char) : Bool :=
  1 < text.length && (text.head? == text.getLast?) && startsWithAny text ['\x60', '"', '\'']

/-! ## Identifiers outside fields -/

mutual
/-- The identifiers of a walk that leaves out `$` and `@` fields. -/
def Expr.identsOutsideFields : Expr → List String
  | .ident name _ => [name]
  | .call func args _ => func.identsOutsideFields ++ argIdentsOutsideFields args
  | .binOp _ lhs rhs _ => lhs.identsOutsideFields ++ rhs.identsOutsideFields
  | .unaryOp _ e _ => e.identsOutsideFields
  | .index base kind args _ =>
    base.identsOutsideFields ++
      match kind with
      | .dollar | .slot => []
      | .single | .double => argIdentsOutsideFields args
  | .function _ body _ | .block body _ => stmtIdentsOutsideFields body
  | .ite cond thenBranch elseBranch _ =>
    cond.identsOutsideFields ++ thenBranch.identsOutsideFields ++
      optionIdentsOutsideFields elseBranch
  | .logical .. | .integer .. | .double .. | .string .. | .null _ | .na .. | .missing _
  | .unknown _ => []
termination_by structural e => e
def argIdentsOutsideFields : List Arg → List String
  | [] => []
  | arg :: args => arg.identsOutsideFields ++ argIdentsOutsideFields args
termination_by structural l => l
def Arg.identsOutsideFields : Arg → List String
  | .mk _ value _ => value.identsOutsideFields
termination_by structural a => a
def optionIdentsOutsideFields : Option Expr → List String
  | none => []
  | some e => e.identsOutsideFields
termination_by structural o => o
def Stmt.identsOutsideFields : Stmt → List String
  | .assign target value _ => target.identsOutsideFields ++ value.identsOutsideFields
  | .expr e => e.identsOutsideFields
  | .ite cond thenBranch elseBranch _ =>
    cond.identsOutsideFields ++ stmtIdentsOutsideFields thenBranch ++
      optionStmtIdentsOutsideFields elseBranch
  | .forLoop _ _ iter body _ => iter.identsOutsideFields ++ stmtIdentsOutsideFields body
  | .whileLoop cond body _ => cond.identsOutsideFields ++ stmtIdentsOutsideFields body
  | .functionDef _ body _ => stmtIdentsOutsideFields body
  | .ret value _ => optionIdentsOutsideFields value
termination_by structural s => s
def stmtIdentsOutsideFields : List Stmt → List String
  | [] => []
  | s :: ss => s.identsOutsideFields ++ stmtIdentsOutsideFields ss
termination_by structural l => l
def optionStmtIdentsOutsideFields : Option (List Stmt) → List String
  | none => []
  | some ss => stmtIdentsOutsideFields ss
termination_by structural o => o
end

/-- Split at the last `::`. -/
def rsplitOnceColons (name : List Char) : Option (List Char × List Char) :=
  match ((List.range name.length).reverse.find? fun i => [':', ':'].isPrefixOf (name.drop i)) with
  | some i => some (name.take i, name.drop (i + 2))
  | none => none

theorem name_of_rsplitOnceColons {name : List Char} {before bare : List Char}
    (h : rsplitOnceColons name = some (before, bare)) : name = before ++ [':', ':'] ++ bare := by
  unfold rsplitOnceColons at h
  split at h
  · rename_i i hi
    cases h
    have hcolons := List.find?_some hi
    obtain ⟨rest, hrest⟩ := List.isPrefixOf_iff_prefix.mp hcolons
    have hdrop : name.drop (i + 2) = rest := by
      rw [← List.drop_drop, ← hrest]
      rfl
    rw [hdrop, List.append_assoc, hrest, List.take_append_drop]
  · cases h

theorem rsplitOnceColons_append {package name : List Char} (h : ':' ∉ name) :
    rsplitOnceColons (package ++ [':', ':'] ++ name) = some (package, name) := by
  have hlength : (package ++ [':', ':'] ++ name).length = package.length + 1 + (1 + name.length) := by
    simp only [List.length_append, List.length_cons, List.length_nil]
    omega
  have hlater : ((List.range (1 + name.length)).map (package.length + 1 + ·)).reverse.find? (fun i =>
      [':', ':'].isPrefixOf ((package ++ [':', ':'] ++ name).drop i)) = none := by
    rw [List.find?_eq_none]
    intro i hi hbegins
    rw [List.mem_reverse, List.mem_map] at hi
    obtain ⟨k, -, rfl⟩ := hi
    have hdrop : (package ++ [':', ':'] ++ name).drop (package.length + 1 + k) =
        (':' :: name).drop k := by
      rw [List.append_assoc, Nat.add_assoc, List.drop_append, List.drop_eq_nil_of_le (by omega),
        Nat.add_sub_cancel_left, Nat.add_comm 1 k]
      rfl
    rw [hdrop, List.isPrefixOf_iff_prefix] at hbegins
    obtain ⟨rest, hrest⟩ := hbegins
    have hcolon : ((':' :: name).drop k)[1]? = some ':' := by rw [← hrest]; rfl
    rw [List.getElem?_drop, List.getElem?_cons_succ] at hcolon
    exact h (List.mem_of_getElem? hcolon)
  have hhere : [':', ':'].isPrefixOf ((package ++ [':', ':'] ++ name).drop package.length) =
      true := by
    rw [List.append_assoc, List.drop_left]
    rfl
  unfold rsplitOnceColons
  rw [hlength, List.range_add, List.reverse_append, List.find?_append, hlater, List.range_succ,
    List.reverse_append, List.reverse_singleton, List.singleton_append, List.find?_cons, hhere]
  simp only [Option.none_or, List.append_assoc, List.take_left]
  rw [← List.append_assoc, List.drop_left' (by simp)]

variable {Error : Type}

/-- Whether a body refers to knitr's chunk options. -/
def hasRuntimeChunkOptions (p : RParser Error) (stmts : List Stmt) : Bool :=
  (stmtIdentsOutsideFields stmts).any fun name =>
    match rsplitOnceColons name.toList with
    | some (package, object) =>
      package.rdropWhile (· = ':') == "knitr".toList && object == "opts_chunk".toList
    | none =>
      if isQuoted name.toList then p.unquoteRString name == "opts_chunk" else name == "opts_chunk"

/-! ## Fences -/

/-- A fence line: its character, its width and what follows. -/
def fence (text : List Char) : Option (Char × Nat × List Char) :=
  let trimmed := text.rdropWhile fun c => c = '\r' || c = '\n'
  let rest := trimmed.dropWhile (· = ' ')
  if 3 < trimmed.length - rest.length then none
  else
    match rest.head? with
    | none => none
    | some kind =>
      if kind ≠ '\x60' ∧ kind ≠ '~' then none
      else
        let count := (rest.takeWhile (· = kind)).length
        if 3 ≤ count then some (kind, count, rest.drop count) else none

/-- The header text after an `{r` engine name. -/
def rEngineTail (info : List Char) : Option (List Char) :=
  ((stripPrefix "\x7br" info).or (stripPrefix "\x7bR" info)).filter fun tail =>
    tail.isEmpty || startsWithAny tail ['\x7d', ',', ' ', '\t']

def isAsciiAlphanumeric (c : Char) : Bool := c.isAlpha || c.isDigit

/-- Whether a backtick fence's info string opens a knitr chunk of any engine. -/
def knitrChunk (info : List Char) : Bool :=
  ((stripPrefix "\x7b" (trim info)).bind (stripSuffix "\x7d")).any fun inner =>
    let engine := (inner.takeWhile fun c => isAsciiAlphanumeric c || c = '_').length
    0 < engine && (engine = inner.length || startsWithAny (inner.drop engine) [' ', ','])

/-! ## Keys -/

def simpleKey (key : List Char) : Except Unit (List Char) :=
  let key := trim key
  if isQuoted key then
    if key.contains '\\' then .error () else .ok (key.drop 1).dropLast
  else if startsWithAny key ['"', '\'', '\x60'] || endsWithAny key ['"', '\'', '\x60'] then .error ()
  else .ok key

/-- Classify one chunk option. -/
def executionOption (key : List Char) (value : Option Bool) : Except Unit (Option Bool) :=
  if (["child", "ref.label", "opts.label", "engine", "file", "code", "dependson"].map
      String.toList).contains key then .error ()
  else if key = "eval".toList then
    match value with
    | some value => .ok (some value)
    | none => .error ()
  else if key = "include".toList ∨ key = "echo".toList then
    if value.isSome then .ok none else .error ()
  else .ok none

/-- A YAML chunk option: a dashed name is the dotted R name. -/
def yamlExecutionOption (key value : List Char) : Except Unit (Option Bool) :=
  match simpleKey key with
  | .error () => .error ()
  | .ok key =>
    let value := trim value
    executionOption (key.map fun c => if c = '-' then '.' else c)
      (if eqIgnoreAsciiCase value "true" then some true
        else if eqIgnoreAsciiCase value "false" then some false
        else none)

/-- The text up to the first colon outside quotes, and what follows it. -/
def splitKey (seen : List Char) (quote : Option Char) : List Char →
    Except Unit (Option (List Char × List Char))
  | [] => if quote.isSome then .error () else .ok none
  | c :: cs =>
    match quote with
    | some delimiter =>
      if c = '\\' then
        match cs with
        | [] => .error ()
        | d :: cs => splitKey (d :: c :: seen) quote cs
      else splitKey (c :: seen) (if c = delimiter then none else quote) cs
    | none =>
      if c = '\'' ∨ c = '"' then splitKey (c :: seen) (some c) cs
      else if c = ':' then .ok (some (seen.reverse, cs))
      else splitKey (c :: seen) none cs

def yamlKeyValue (line : List Char) : Except Unit (Option (List Char × List Char)) :=
  let line := trim line
  if line.isEmpty || startsWithAny line ['#'] then .ok none
  else
    match splitKey [] none line with
    | .error () => .error ()
    | .ok none => .ok none
    | .ok (some (key, value)) =>
      match simpleKey key with
      | .error () => .error ()
      | .ok key => .ok (some (key, value))

def complexFormatValue (value : List Char) : Bool :=
  startsWithAny (trimStart value) ['\x7b', '[', '*', '&', '!', '|', '>']

/-- Whether a value starts a scalar that continues on deeper lines. -/
def multilineScalar (value : List Char) : Bool :=
  match trim value with
  | [] => false
  | c :: cs =>
    if c = '|' ∨ c = '>' then
      (trim (cs.takeWhile (· ≠ '#'))).all fun d => d = '+' || d = '-' || ('1' ≤ d && d ≤ '9')
    else if c = '"' ∨ c = '\'' then cs.isEmpty || (c :: cs).getLast? != some c
    else false

def plainKey (key : List Char) : Bool :=
  !key.isEmpty &&
    !startsWithAny key ['?', '!', '&', '*', '[', '\x7b', '<', '>', '|', '-']

def executionKey (key : List Char) : Bool :=
  (["execute", "knitr", "eval", "engine", "jupyter", "<<"].map String.toList).contains key

/-! ## Fields -/

def opens (c : Char) : Option Char :=
  if c = ')' then some '(' else if c = ']' then some '[' else if c = '\x7d' then some '\x7b' else none

/-- Split at the commas outside quotes and nesting.  `seen` is everything before, `field` the
current field, both reversed. -/
def splitFields (seen field : List Char) (fields : List (List Char)) (quote : Option Char)
    (nesting : List Char) : List Char → Except HeaderError (List (List Char))
  | [] =>
    if quote.isSome || !nesting.isEmpty then .error .unsupported
    else if maxHeaderFields ≤ fields.length then .error .budget
    else .ok (fields ++ [field.reverse])
  | c :: cs =>
    match quote with
    | some delimiter =>
      if c = '\\' then
        match cs with
        | [] => .error .unsupported
        | d :: cs => splitFields (d :: c :: seen) (d :: c :: field) fields quote nesting cs
      else
        splitFields (c :: seen) (c :: field) fields (if c = delimiter then none else quote) nesting
          cs
    | none =>
      if c = '\'' ∨ c = '"' ∨ c = '\x60' then
        match (seen.dropWhile isWhitespace).head? with
        | none => splitFields (c :: seen) (c :: field) fields (some c) nesting cs
        | some before =>
          if before = '\x7b' ∨ before = '[' ∨ before = ',' ∨ before = ':' then
            splitFields (c :: seen) (c :: field) fields (some c) nesting cs
          else .error .unsupported
      else if c = '(' ∨ c = '[' ∨ c = '\x7b' then
        splitFields (c :: seen) (c :: field) fields none (c :: nesting) cs
      else if (opens c).isSome then
        if nesting.head? = opens c then
          splitFields (c :: seen) (c :: field) fields none nesting.tail cs
        else .error .unsupported
      else if c = ',' ∧ nesting = [] then
        if maxHeaderFields ≤ fields.length then .error .budget
        else splitFields (c :: seen) [] (fields ++ [field.reverse]) none [] cs
      else splitFields (c :: seen) (c :: field) fields none nesting cs

def headerFields (inner : List Char) : Except HeaderError (List (List Char)) :=
  splitFields [] [] [] none [] inner

/-- Whether one of the fields is an execution setting. -/
def fieldsExecute : List (List Char) → Except Unit Bool
  | [] => .ok false
  | field :: fields =>
    match yamlKeyValue field with
    | .ok (some (key, _)) =>
      if !plainKey key then .error ()
      else if executionKey key || key = "format".toList then .ok true
      else fieldsExecute fields
    | _ => .error ()

def rootFlowExecution (line : List Char) : Except Unit Bool :=
  match (stripPrefix "\x7b" (trim line)).bind (stripSuffix "\x7d") with
  | none => .error ()
  | some inner =>
    if maxHeaderBytes < byteLen inner then .error ()
    else
      match headerFields inner with
      | .error _ => .error ()
      | .ok fields => fieldsExecute fields

/-! ## R options -/

/-- Drop a chunk label: an unquoted first field without `=`. -/
def stripLabel (inner : List Char) : List Char :=
  let rest := trimStart inner
  let rest := (stripPrefix "," rest).getD rest
  if startsWithAny (trimStart rest) ['"', '\''] then rest
  else
    let first := rest.takeWhile (· ≠ ',')
    if first.contains '=' then rest else rest.drop first.length

/-- `eval.replace(value)`: a second literal is refused. -/
def addEval (eval value : Option Bool) : Except HeaderError (Option Bool) :=
  match value, eval with
  | none, eval => .ok eval
  | some value, none => .ok (some value)
  | some _, some _ => .error .unsupported

def optionKey (p : RParser Error) (name : String) : Except HeaderError (List Char) :=
  let text := name.toList
  if 1 < byteLen text && startsWithAny text ['r', 'R'] && startsWithAny (text.drop 1) ['"', '\''] then
    .ok (p.unquoteRString name).toList
  else if isQuoted text then
    match p.decodeRQuotedName name with
    | some key => .ok key.toList
    | none => .error .unsupported
  else .ok text

def argOptions (p : RParser Error) (header : Bool) (eval : Option Bool) :
    List Arg → Except HeaderError (Option Bool)
  | [] => .ok eval
  | arg :: args =>
    match arg.name with
    | none =>
      if header || (match arg.value with | .missing _ => true | _ => false) then
        argOptions p header eval args
      else .error .unsupported
    | some name =>
      match optionKey p name with
      | .error error => .error error
      | .ok key =>
        match executionOption key (match arg.value with
          | .logical value _ => some value
          | _ => none) with
        | .error () => .error .unsupported
        | .ok value =>
          match addEval eval value with
          | .error error => .error error
          | .ok eval => argOptions p header eval args

/-- Comma-separated `key = value` options, read as the arguments of `alist(...)`. -/
def rOptions (p : RParser Error) (path : String) (fields : List Char) (header : Bool) :
    Except HeaderError (Option Bool) :=
  match p.parse path ("alist(".toList ++ fields ++ [')']) with
  | .error _ => .error .unsupported
  | .ok file =>
    match file.stmts with
    | [.expr (.call _ args _)] =>
      if !file.parseErrors.isEmpty || hasRuntimeChunkOptions p file.stmts then .error .unsupported
      else if maxHeaderFields < args.length then .error .budget
      else argOptions p header none args
    | _ => .error .unsupported

/-- An R chunk's header. -/
def headerOptions (p : RParser Error) (path : String) (rest : List Char) :
    Except HeaderError (Option Bool) :=
  let header := trim rest
  match (rEngineTail header).bind (stripSuffix "\x7d") with
  | none => .error .unsupported
  | some inner =>
    if maxHeaderBytes < byteLen header then .error .budget
    else if !inner.isEmpty && !startsWithAny inner [',', ' '] then .error .unsupported
    else rOptions p path (stripLabel inner) true

def indent (line : List Char) : Nat := (line.takeWhile (· = ' ')).length

/-- YAML cell options, from the line at `index` on. -/
def yamlOptions (base index : Nat) (eval : Option Bool) :
    List (List Char) → Except (Nat × HeaderError) (Option Bool)
  | [] => .ok eval
  | line :: lines =>
    let content := trim line
    if content.isEmpty || startsWithAny content ['#'] || base < indent line then
      yamlOptions base (index + 1) eval lines
    else
      match yamlKeyValue content with
      | .ok (some (key, value)) =>
        if indent line < base || startsWithAny (line.drop (indent line)) ['\t'] || !plainKey key then
          .error (index, .unsupported)
        else
          match yamlExecutionOption key value with
          | .error () => .error (index, .unsupported)
          | .ok option =>
            match addEval eval option with
            | .error error => .error (index, error)
            | .ok eval => yamlOptions base (index + 1) eval lines
      | _ => .error (index, .unsupported)

/-- A cell's leading `#|` lines, without the marker: YAML if the first looks like `key:`,
otherwise R options. -/
def cellOptions (p : RParser Error) (path : String) (lines : List (List Char)) :
    Except (Nat × HeaderError) (Option Bool) :=
  match lines with
  | [] => .ok none
  | line :: _ =>
    let first := (stripPrefix " " line).getD line
    let key := first.takeWhile (· ≠ ':')
    let yaml := key.length < first.length && !key.isEmpty && !key.contains ' ' &&
      ((first.drop (key.length + 1)).head?.all isWhitespace)
    if yaml then yamlOptions (indent line) 0 none lines
    else
      let fields := (lines.intersperse [',']).flatten
      if maxHeaderBytes < byteLen fields then .error (0, .budget)
      else
        match rOptions p path fields false with
        | .error error => .error (0, error)
        | .ok eval => .ok eval

end Ry
