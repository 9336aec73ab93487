import Ry.Workspace.ReportOptions
import Ry.Lib.Utf8
import Mathlib.Data.List.Sort

/-! # Report documents

`parse_report` of `reports.rs`: R Markdown and Quarto documents as static input.  The checker
parses a text in which everything but the admitted R chunks is blank.

`Scan` also keeps the chunks it admitted, which the source leaves to the mask.
-/

namespace Ry

variable {Error : Type}

structure Line where
  offset : Nat
  text : List Char

/-- Lines with their ends. -/
def splitInclusive : List Char → List (List Char)
  | [] => []
  | c :: cs =>
    if c = '\n' then [c] :: splitInclusive cs
    else
      match splitInclusive cs with
      | [] => [[c]]
      | line :: lines => (c :: line) :: lines

def linesFrom (offset : Nat) : List (List Char) → List Line
  | [] => []
  | text :: texts => ⟨offset, text⟩ :: linesFrom (offset + byteLen text) texts

def lines (source : List Char) : List Line := linesFrom 0 (splitInclusive source)

/-- Anchor a finding to one complete character of the source. -/
def sourceIssue (source : List Char) (offset line : Nat) (code message : String) : InputIssue :=
  let start := byteLen (prefixBytes source offset)
  let stop := match (suffixBytes source offset).head? with
    | some c => start + c.utf8Size
    | none => start
  ⟨⟨start, stop, line, 0⟩, code, message⟩

structure Report where
  source : List Char
  rows : List Line

def Report.ofSource (source : List Char) : Report := ⟨source, lines source⟩

/-- Rows of a metadata block, from its `---` up to the row after its end. -/
structure Block where
  start : Nat
  stop : Nat
  lt : start < stop

/-- An admitted chunk: its header, its first body row and its closing fence. -/
structure Chunk where
  header : Nat
  body : Nat
  close : Nat

structure Scan where
  /-- The source with only admitted R chunk bodies left unmasked. -/
  masked : List UInt8
  chunkErrors : List Span
  admitted : List Chunk

namespace Report

variable (r : Report)

def text (row : Nat) : List Char := (r.rows[row]?.map (·.text)).getD []

def offset (row : Nat) : Nat := (r.rows[row]?.map (·.offset)).getD 0

def issue (row : Nat) (code message : String) : InputIssue :=
  sourceIssue r.source (r.offset row) row code message

def blankRow (row : Nat) : Bool := (trim (r.text row)).isEmpty

/-- The first row from `start` up to `stop` with the property. -/
def findRow (start stop : Nat) (f : Nat → Bool) : Option Nat :=
  (List.range' start (stop - start)).find? f

def closingFence (start : Nat) (kind : Char) (width : Nat) : Option Nat :=
  findRow start r.rows.length fun row =>
    match fence (r.text row) with
    | some (closeKind, closeWidth, tail) =>
      closeKind = kind && width ≤ closeWidth && (trim tail).isEmpty
    | none => false

/-- The first R chunk header among the skipped rows of a fence. -/
def nestedRChunk (start stop width : Nat) (outerChunk : Bool) : Option Nat :=
  findRow start stop fun row =>
    match fence (r.text row) with
    | some (kind, innerWidth, rest) =>
      kind = '\x60' && (rEngineTail (trim rest)).isSome && (!outerChunk || innerWidth = width)
    | none => false

/-! ## Metadata -/

/-- What the lines above say: the root key, the root's indentation, and the indentation of a
scalar's key. -/
structure MetadataState where
  rootKey : Option (List Char)
  rootIndent : Option Nat
  scalarIndent : Option Nat

def unclassified (row : Nat) (what : String) : InputIssue :=
  r.issue row "RY121"
    (what ++ " cannot be classified safely; no chunks are assumed executable")

/-- A key and its value: `Ok none` is a line without a key below the root. -/
def metadataKey (row : Nat) (raw content : List Char) (atRoot : Bool) :
    Except InputIssue (Option (List Char × List Char)) :=
  if startsWithAny content ['?'] then .error (r.unclassified row "report YAML key")
  else
    match yamlKeyValue raw with
    | .ok (some (key, value)) =>
      if atRoot && !plainKey key then .error (r.unclassified row "report YAML root syntax")
      else if !plainKey (key.dropWhile fun c => c = '-' || c = ' ') then
        .error (r.unclassified row "report YAML key")
      else .ok (some (key, value))
    | .error () => .error (r.unclassified row "report YAML key")
    | .ok none =>
      if atRoot then .error (r.unclassified row "report YAML root syntax") else .ok none

/-- One line of a metadata block. -/
def metadataLine (row : Nat) (state : MetadataState) : Except InputIssue MetadataState :=
  let raw := (r.text row).rdropWhile fun c => c = '\r' || c = '\n'
  let content := raw.dropWhile (· = ' ')
  let indent := raw.length - content.length
  if content.isEmpty || startsWithAny content ['#'] then .ok state
  else if state.scalarIndent.any (· < indent) then .ok state
  else
    let root := state.rootIndent.getD indent
    let state := { state with scalarIndent := none, rootIndent := some root }
    if indent < root || startsWithAny content ['\t'] then
      .error (r.unclassified row "report YAML indentation")
    else
      let atRoot := indent = root
      if atRoot && startsWithAny content ['\x7b'] then
        match rootFlowExecution content with
        | .ok false => .ok state
        | _ => .error (r.unclassified row "root flow YAML execution settings")
      else
        match r.metadataKey row raw content atRoot with
        | .error issue => .error issue
        | .ok none => .ok state
        | .ok (some (key, value)) =>
          let state := if atRoot then { state with rootKey := some key } else state
          let inFormat := state.rootKey = some "format".toList
          if ((atRoot || inFormat) && executionKey key) || (inFormat && complexFormatValue value) then
            .error (r.issue row "RY121"
              "report-level execution options need a report engine; no chunks are assumed executable")
          else if multilineScalar value then .ok { state with scalarIndent := some indent }
          else .ok state

def metadataLines (state : MetadataState) : List Nat → Except InputIssue Unit
  | [] => .ok ()
  | row :: rows =>
    match r.metadataLine row state with
    | .error issue => .error issue
    | .ok state => metadataLines state rows

/-- Check the metadata block between `start` and its end at `close`. -/
def metadataBlock (start close : Nat) : Except InputIssue Unit :=
  r.metadataLines ⟨none, none, none⟩ (List.range' (start + 1) (close - (start + 1)))

theorem findRow_mem {start stop row : Nat} {f : Nat → Bool} (h : findRow start stop f = some row) :
    start ≤ row ∧ row < stop ∧ f row = true := by
  have hmem := List.mem_range'_1.mp (List.mem_of_find?_eq_some h)
  exact ⟨hmem.1, by omega, List.find?_some h⟩

/-- The end of the block that a `---` opens. -/
def blockEnd (row : Nat) : Option Nat :=
  findRow (row + 1) r.rows.length fun close =>
    trimEnd (r.text close) == "---".toList || trimEnd (r.text close) == "...".toList

/-- Row ranges of the YAML metadata blocks outside code fences. -/
def metadataBlocks (row : Nat) (blocks : List Block) : Except InputIssue (List Block) :=
  if hrow : row < r.rows.length then
    match fence (r.text row) with
    | some (kind, width, _) =>
      match hclose : r.closingFence (row + 1) kind width with
      | some close => metadataBlocks (close + 1) blocks
      | none => .ok blocks
    | none =>
      if trim (r.text row) = "---".toList ∧ (row = 0 ∨ r.blankRow (row - 1) = true) ∧
          row + 1 < r.rows.length ∧ r.blankRow (row + 1) = false then
        match hend : r.blockEnd row with
        | some close =>
          match r.metadataBlock row close with
          | .error issue => .error issue
          | .ok () =>
            metadataBlocks (close + 1)
              (blocks ++ [⟨row, close + 1, by have := (findRow_mem hend).1; omega⟩])
        | none =>
          if (List.range row).all r.blankRow then
            .error (r.issue row "RY120" "unclosed report YAML front matter")
          else metadataBlocks (row + 1) blocks
      else metadataBlocks (row + 1) blocks
  else .ok blocks
termination_by r.rows.length - row
decreasing_by
  · have := (findRow_mem hclose).1
    omega
  · have := (findRow_mem hend).1
    omega
  · omega
  · omega

/-! ## Chunks -/

/-- The leading `#|` lines after a header. -/
def cellLines (row : Nat) : List (List Char) :=
  let stripped := (r.rows.drop (row + 1)).map fun line => stripPrefix "#|" (trimStart line.text)
  (stripped.takeWhile (·.isSome)).filterMap fun line => line.map trimEnd

/-- Whether an R chunk runs, and its first body row. -/
def chunkOptions (p : RParser Error) (path : String) (row : Nat) (rest : List Char) :
    Except InputIssue (Bool × Nat) :=
  match headerOptions p path rest with
  | .error .budget =>
    .error (r.issue row "RY120"
      "R chunk header exceeds the 16 KiB or 128-field static input limit; later chunks are not analyzed")
  | .error .unsupported =>
    if endsWithAny (trim rest) ['\x7d'] then
      .error (r.issue row "RY121"
        "R chunk header has unsupported or conflicting execution options; later chunks are not analyzed")
    else
      .error (r.issue row "RY120" "malformed R chunk header; later chunks are not analyzed")
  | .ok headerEval =>
    let options := r.cellLines row
    match cellOptions p path options with
    | .error (index, .budget) =>
      .error (r.issue (row + 1 + index) "RY120"
        "R chunk options exceed the 16 KiB or 128-field static input limit; later chunks are not analyzed")
    | .error (index, .unsupported) =>
      .error (r.issue (row + 1 + index) "RY121"
        "R chunk has dynamic or conflicting execution options; later chunks are not analyzed")
    | .ok cellEval =>
      if headerEval.isSome && cellEval.isSome && headerEval != cellEval then
        .error (r.issue row "RY121"
          "R chunk execution options conflict; later chunks are not analyzed")
      else .ok ((cellEval.or headerEval).getD true, row + 1 + options.length)

/-- The source's bytes between two rows. -/
def bodyBytes (start stop : Nat) : List UInt8 :=
  ((utf8 r.source).drop (r.offset start)).take (r.offset stop - r.offset start)

/-- The source's text between two rows. -/
def bodyText (start stop : Nat) : List Char :=
  suffixBytes (prefixBytes r.source (r.offset stop)) (r.offset start)

/-- Unmask a chunk's body. -/
def unmask (scan : Scan) (chunk : Chunk) (errors : List Span) : Scan :=
  { masked := scan.masked.take (r.offset chunk.body) ++ r.bodyBytes chunk.body chunk.close ++
      scan.masked.drop (r.offset chunk.close)
    chunkErrors := scan.chunkErrors ++ errors.map fun span =>
      ⟨span.start + r.offset chunk.body, span.stop + r.offset chunk.body, span.line + chunk.body,
        span.col⟩
    admitted := scan.admitted ++ [chunk] }

/-- Where the scan of the chunks goes on, or how it ends. -/
inductive ChunkStep
  | go (scan : Scan) (rChunks row : Nat)
  | stop (scan : Scan) (issue : Option InputIssue)

/-- A fence's rows: `enabled` if they are an R chunk that runs. -/
def chunkBody (p : RParser Error) (path : String) (scan : Scan) (rChunks row : Nat)
    (kind : Char) (width : Nat) (rest : List Char) (rChunk enabled : Bool) (body : Nat) :
    Except Error ChunkStep :=
  let close := r.closingFence body kind width
  let nested := if enabled then none
    else r.nestedRChunk body (close.getD r.rows.length) width (kind = '\x60' && knitrChunk rest)
  match nested, close with
  | some nested, _ =>
    .ok (.stop scan (some (r.issue nested "RY121"
      "an R chunk inside another fence may run; later chunks are not analyzed")))
  | none, none =>
    .ok (.stop scan (if rChunk then
      some (r.issue row "RY120" "unclosed R chunk fence; its body is not analyzed") else none))
  | none, some close =>
    if enabled then
      match p.parse path (r.bodyText body close) with
      | .error error => .error error
      | .ok chunk =>
        let scan := r.unmask scan ⟨row, body, close⟩ chunk.parseErrors
        if hasRuntimeChunkOptions p chunk.stmts then
          .ok (.stop scan (some (r.issue row "RY121"
            "runtime chunk options may change later execution; later chunks are not analyzed")))
        else .ok (.go scan rChunks (close + 1))
    else .ok (.go scan rChunks (close + 1))

/-- One turn of the scan. -/
def chunkStep (p : RParser Error) (path : String) (blocks : List Block) (scan : Scan)
    (rChunks row : Nat) : Except Error ChunkStep :=
  match blocks.find? (·.start = row) with
  | some block => .ok (.go scan rChunks block.stop)
  | none =>
    match fence (r.text row) with
    | none => .ok (.go scan rChunks (row + 1))
    | some (kind, width, rest) =>
      if kind = '\x60' ∧ (rEngineTail (trim rest)).isSome = true then
        if rChunks = maxChunks then
          .ok (.stop scan (some (r.issue row "RY120"
            "report exceeds the 128 R chunk limit; later chunks are not analyzed")))
        else
          match r.chunkOptions p path row rest with
          | .error issue => .ok (.stop scan (some issue))
          | .ok (enabled, body) =>
            r.chunkBody p path scan (rChunks + 1) row kind width rest true enabled body
      else r.chunkBody p path scan rChunks row kind width rest false false (row + 1)

theorem le_of_chunkOptions {p : RParser Error} {path : String} {row : Nat} {rest : List Char}
    {enabled : Bool} {body : Nat} (h : r.chunkOptions p path row rest = .ok (enabled, body)) :
    row < body := by
  unfold chunkOptions at h
  split at h
  · exact nomatch h
  · split at h <;> exact nomatch h
  · dsimp only at h
    split at h
    · exact nomatch h
    · exact nomatch h
    · split at h
      · exact nomatch h
      · obtain ⟨-, rfl⟩ := Prod.mk.inj (Except.ok.inj h)
        omega

theorem lt_of_chunkBody {p : RParser Error} {path : String} {scan scan' : Scan}
    {rChunks rChunks' row row' width body : Nat} {kind : Char} {rest : List Char}
    {rChunk enabled : Bool} (hbody : row < body)
    (h : r.chunkBody p path scan rChunks row kind width rest rChunk enabled body =
      .ok (.go scan' rChunks' row')) : row < row' := by
  unfold chunkBody at h
  dsimp only at h
  split at h
  · exact nomatch h
  · exact nomatch h
  · rename_i close hnested hclose
    have hle := (findRow_mem hclose).1
    split at h
    · split at h
      · exact nomatch h
      · split at h
        · exact nomatch h
        · obtain ⟨-, -, rfl⟩ := ChunkStep.go.inj (Except.ok.inj h)
          omega
    · obtain ⟨-, -, rfl⟩ := ChunkStep.go.inj (Except.ok.inj h)
      omega

theorem lt_of_chunkStep {p : RParser Error} {path : String} {blocks : List Block}
    {scan scan' : Scan} {rChunks rChunks' row row' : Nat}
    (h : r.chunkStep p path blocks scan rChunks row = .ok (.go scan' rChunks' row')) :
    row < row' := by
  unfold chunkStep at h
  split at h
  · rename_i block hblock
    obtain ⟨-, -, rfl⟩ := ChunkStep.go.inj (Except.ok.inj h)
    have hstart : block.start = row := by simpa using List.find?_some hblock
    exact hstart ▸ block.lt
  · split at h
    · obtain ⟨-, -, rfl⟩ := ChunkStep.go.inj (Except.ok.inj h)
      exact Nat.lt_succ_self row
    · split at h
      · split at h
        · exact nomatch h
        · split at h
          · exact nomatch h
          · rename_i hoptions
            exact r.lt_of_chunkBody (r.le_of_chunkOptions hoptions) h
      · exact r.lt_of_chunkBody (Nat.lt_succ_self row) h

/-- Admit enabled R chunks in document order, and stop at the first boundary that makes later
execution uncertain. -/
def chunks (p : RParser Error) (path : String) (blocks : List Block) (scan : Scan)
    (rChunks row : Nat) : Except Error (Scan × Option InputIssue) :=
  if row < r.rows.length then
    match _hstep : r.chunkStep p path blocks scan rChunks row with
    | .error error => .error error
    | .ok (.stop scan issue) => .ok (scan, issue)
    | .ok (.go scan rChunks row') => chunks p path blocks scan rChunks row'
  else .ok (scan, none)
termination_by r.rows.length - row
decreasing_by
  have := r.lt_of_chunkStep _hstep
  omega

end Report

/-- The report's mask, before any chunk. -/
def blankScan (source : List Char) : Scan := ⟨(utf8 source).map blankByte, [], []⟩

/-- The mask and the first boundary. -/
def maskReport (p : RParser Error) (path : String) (source : List Char) :
    Except Error (Scan × Option InputIssue) :=
  match (Report.ofSource source).metadataBlocks 0 [] with
  | .ok blocks => (Report.ofSource source).chunks p path blocks (blankScan source) 0 0
  | .error issue => .ok (blankScan source, some issue)

/-- A parse that failed, or the mask's `expect`. -/
inductive ReportError (Error : Type)
  | parse (error : Error)
  | notUtf8

def sortSpans (spans : List Span) : List Span :=
  (spans.mergeSort fun a b =>
    decide (a.start < b.start ∨ a.start = b.start ∧ a.stop ≤ b.stop)).destutter (· ≠ ·)

def parseReport (p : RParser Error) (path : String) (source : List Char) :
    Except (ReportError Error) RFile :=
  if maxReportBytes < byteLen source then
    match p.parse path [] with
    | .error error => .error (.parse error)
    | .ok file =>
      .ok { file with
        source
        inputIssues := file.inputIssues ++
          [sourceIssue source 0 0 "RY120" "report exceeds the 2 MiB static input limit"] }
  else
    match maskReport p path source with
    | .error error => .error (.parse error)
    | .ok (scan, issue) =>
      match fromUtf8 scan.masked with
      | none => .error .notUtf8
      | some masked =>
        match p.parse path masked with
        | .error error => .error (.parse error)
        | .ok file =>
          .ok { file with
            source
            inputIssues := file.inputIssues ++ issue.toList
            parseErrors := sortSpans
              (if scan.chunkErrors.isEmpty then file.parseErrors else scan.chunkErrors) }

end Ry
