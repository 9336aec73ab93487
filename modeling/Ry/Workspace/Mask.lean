import Ry.Workspace.Reports

/-! # The mask is exact

Rows begin and end at characters, so an admitted body is whole characters, and the mask stays a
text while it stays as long as the source.  The scan keeps both row by row (`Masked`).
-/

namespace Ry

variable {Error : Type}

/-! ## Rows -/

theorem splitInclusive_flatten (cs : List Char) : (splitInclusive cs).flatten = cs := by
  induction cs with
  | nil => rfl
  | cons c cs ih =>
    unfold splitInclusive
    split
    · rw [List.flatten_cons, ih]
      rfl
    · split
      · rename_i hnil
        rw [hnil] at ih
        rw [← ih]
        rfl
      · rename_i line lines hlines
        rw [hlines] at ih
        rw [← ih]
        rfl

theorem linesFrom_text (offset : Nat) (texts : List (List Char)) :
    (linesFrom offset texts).map (·.text) = texts := by
  induction texts generalizing offset with
  | nil => rfl
  | cons text texts ih => rw [linesFrom, List.map_cons, ih]

theorem linesFrom_offset (offset : Nat) (texts : List (List Char)) (row : Nat) :
    (linesFrom offset texts)[row]?.map (·.offset) =
      if row < texts.length then some (offset + byteLen (texts.take row).flatten) else none := by
  induction texts generalizing offset row with
  | nil => rfl
  | cons text texts ih =>
    cases row with
    | zero => simp [linesFrom]
    | succ row =>
      rw [linesFrom, List.getElem?_cons_succ, ih]
      simp [Nat.add_assoc]

namespace Report

variable (source : List Char)

/-- The source, line by line. -/
def texts : List (List Char) := splitInclusive source

theorem texts_flatten : (texts source).flatten = source := splitInclusive_flatten source

theorem length_rows : (ofSource source).rows.length = (texts source).length := by
  rw [← List.length_map (·.text)]
  exact congrArg List.length (linesFrom_text 0 _)

variable {source} {row : Nat}

theorem offset_eq (hrow : row < (ofSource source).rows.length) :
    (ofSource source).offset row = byteLen ((texts source).take row).flatten := by
  rw [length_rows] at hrow
  unfold offset
  rw [show (ofSource source).rows = linesFrom 0 (texts source) from rfl, linesFrom_offset,
    if_pos hrow, Nat.zero_add]
  rfl

theorem offset_le_offset {row' : Nat} (hle : row ≤ row')
    (hrow' : row' < (ofSource source).rows.length) :
    (ofSource source).offset row ≤ (ofSource source).offset row' := by
  rw [offset_eq (by omega), offset_eq hrow', byteLen_flatten, byteLen_flatten,
    ← Nat.sub_add_cancel hle, Nat.add_comm, List.take_add, List.map_append, List.sum_append]
  exact Nat.le_add_right _ _

theorem offset_le_length (hrow : row < (ofSource source).rows.length) :
    (ofSource source).offset row ≤ byteLen source := by
  rw [offset_eq hrow]
  conv_rhs => rw [← texts_flatten source, ← List.take_append_drop row (texts source),
    List.flatten_append, byteLen_append]
  exact Nat.le_add_right _ _

/-- An issue is at its row's first byte. -/
theorem issue_start (hrow : row < (ofSource source).rows.length) (code message : String) :
    ((ofSource source).issue row code message).span.start = (ofSource source).offset row := by
  have hlead := prefixBytes_append ((texts source).take row).flatten
    ((texts source).drop row).flatten
  rw [← List.flatten_append, List.take_append_drop, texts_flatten] at hlead
  change byteLen (prefixBytes source ((ofSource source).offset row)) = _
  rw [offset_eq hrow, hlead]

/-! ## Parts -/

/-- The bytes are those of a text, as long row by row as the source. -/
def InParts (source : List Char) (masked : List UInt8) : Prop :=
  ∃ parts : List (List Char), parts.map byteLen = (texts source).map byteLen ∧
    masked = utf8 parts.flatten

theorem InParts.length {masked : List UInt8} (h : InParts source masked) :
    masked.length = byteLen source := by
  obtain ⟨parts, hparts, rfl⟩ := h
  rw [length_utf8, byteLen_flatten, hparts, ← byteLen_flatten, texts_flatten]

theorem inParts_blank (source : List Char) : InParts source (blankScan source).masked := by
  refine ⟨(texts source).map (·.flatMap blankChar), ?_, ?_⟩
  · rw [List.map_map]
    refine List.map_congr_left fun text _ => ?_
    change byteLen (text.flatMap blankChar) = byteLen text
    rw [← length_utf8, utf8_flatMap_blankChar, List.length_map, length_utf8]
  · change (utf8 source).map blankByte = _
    rw [← utf8_flatMap_blankChar]
    conv_lhs => rw [← texts_flatten source]
    rw [flatMap_flatten_blankChar]

/-- A body is whole rows. -/
theorem bodyBytes_eq {body close : Nat} (hle : body ≤ close)
    (hclose : close < (ofSource source).rows.length) :
    (ofSource source).bodyBytes body close =
      utf8 (((texts source).drop body).take (close - body)).flatten := by
  have htake := (utf8_flatten_take_drop (texts source) close).1
  have hdrop := (utf8_flatten_take_drop ((texts source).take close) body).2
  rw [List.take_take, Nat.min_eq_left hle] at hdrop
  unfold bodyBytes
  rw [← List.drop_take, show (ofSource source).source = (texts source).flatten from
    (texts_flatten source).symm, offset_eq hclose, offset_eq (by omega), htake, hdrop,
    List.drop_take]

theorem inParts_unmask {scan : Scan} {chunk : Chunk} {errors : List Span}
    (h : InParts source scan.masked) (hle : chunk.body ≤ chunk.close)
    (hclose : chunk.close < (ofSource source).rows.length) :
    InParts source ((ofSource source).unmask scan chunk errors).masked := by
  obtain ⟨parts, hparts, hmasked⟩ := h
  have hoffset : ∀ row, row < (ofSource source).rows.length →
      (ofSource source).offset row = byteLen (parts.take row).flatten := by
    intro row hrow
    rw [offset_eq hrow, byteLen_flatten, byteLen_flatten, List.map_take, List.map_take, hparts]
  refine ⟨parts.take chunk.body ++ ((texts source).drop chunk.body).take (chunk.close - chunk.body) ++
    parts.drop chunk.close, ?_, ?_⟩
  · rw [List.map_append, List.map_append, List.map_take, List.map_take, List.map_drop, List.map_drop,
      hparts, ← List.drop_take]
    conv_rhs => rw [← List.take_append_drop chunk.close ((texts source).map byteLen),
      ← List.take_append_drop chunk.body (((texts source).map byteLen).take chunk.close),
      List.take_take, Nat.min_eq_left hle]
  · change scan.masked.take _ ++ (ofSource source).bodyBytes _ _ ++ scan.masked.drop _ = _
    rw [hmasked, bodyBytes_eq hle hclose, hoffset chunk.body (by omega), hoffset chunk.close hclose,
      (utf8_flatten_take_drop parts chunk.body).1, (utf8_flatten_take_drop parts chunk.close).2,
      List.flatten_append, List.flatten_append, utf8_append, utf8_append]

/-! ## The scan -/

variable (p : RParser Error) (path : String)

/-- The chunk is one: its header opens R code that runs, and its fence closes. -/
def IsChunk (r : Report) (chunk : Chunk) : Prop :=
  ∃ width rest, fence (r.text chunk.header) = some ('\x60', width, rest) ∧
    (rEngineTail (trim rest)).isSome = true ∧
    r.chunkOptions p path chunk.header rest = .ok (true, chunk.body) ∧
    r.closingFence chunk.body '\x60' width = some chunk.close

/-- The byte is in the chunk's body. -/
def Covers (r : Report) (chunk : Chunk) (i : Nat) : Prop :=
  r.offset chunk.body ≤ i ∧ i < r.offset chunk.close

/-- The mask shows the admitted chunks and nothing else. -/
structure Masked (source : List Char) (scan : Scan) : Prop where
  parts : InParts source scan.masked
  shown : ∀ i, (∃ chunk ∈ scan.admitted, (ofSource source).Covers chunk i) →
    scan.masked[i]? = (utf8 source)[i]?
  blank : ∀ i, (∀ chunk ∈ scan.admitted, ¬ (ofSource source).Covers chunk i) →
    scan.masked[i]? = (utf8 source)[i]?.map blankByte
  chunks : ∀ chunk ∈ scan.admitted, (ofSource source).IsChunk p path chunk

/-- What is shown at or after the issue is of the chunk that raised it. -/
def Bounded (source : List Char) (scan : Scan) (issue : Option InputIssue) : Prop :=
  ∀ found, issue = some found → ∀ chunk ∈ scan.admitted, ∀ i,
    (ofSource source).Covers chunk i → found.span.start ≤ i →
      found.span.start = (ofSource source).offset chunk.header ∧
      ∃ parsed, p.parse path ((ofSource source).bodyText chunk.body chunk.close) = .ok parsed ∧
        hasRuntimeChunkOptions p parsed.stmts = true

variable {p path}

theorem IsChunk.rows {r : Report} {chunk : Chunk} (h : r.IsChunk p path chunk) :
    chunk.header < chunk.body ∧ chunk.body ≤ chunk.close ∧ chunk.close < r.rows.length := by
  obtain ⟨width, rest, -, -, hoptions, hclose⟩ := h
  obtain ⟨hle, hlt, -⟩ := findRow_mem hclose
  exact ⟨r.le_of_chunkOptions hoptions, hle, hlt⟩

theorem masked_blank (source : List Char) : Masked p path source (blankScan source) where
  parts := inParts_blank source
  shown _ := fun ⟨_, hchunk, _⟩ => absurd hchunk List.not_mem_nil
  blank _ _ := List.getElem?_map
  chunks _ hchunk := absurd hchunk List.not_mem_nil

theorem masked_unmask {scan : Scan} {chunk : Chunk} (h : Masked p path source scan)
    (hchunk : (ofSource source).IsChunk p path chunk) (errors : List Span) :
    Masked p path source ((ofSource source).unmask scan chunk errors) := by
  obtain ⟨-, hle, hclose⟩ := hchunk.rows
  have hlen : scan.masked.length = (utf8 source).length := by rw [h.parts.length, length_utf8]
  have hsplice := getElem?_splice hlen (offset_le_offset hle hclose)
    (by rw [h.parts.length]; exact offset_le_length hclose)
  have hbytes : ∀ i, ((ofSource source).unmask scan chunk errors).masked[i]? =
      if (ofSource source).offset chunk.body ≤ i ∧ i < (ofSource source).offset chunk.close then
        (utf8 source)[i]? else scan.masked[i]? := hsplice
  refine ⟨inParts_unmask h.parts hle hclose, fun i hshown => ?_, fun i hblank => ?_,
    fun chunk' hmem => ?_⟩
  · rw [hbytes]
    split
    · rfl
    · rename_i hnot
      obtain ⟨chunk', hmem, hcovers⟩ := hshown
      rcases List.mem_append.mp hmem with hold | hnew
      · exact h.shown i ⟨chunk', hold, hcovers⟩
      · obtain rfl := List.mem_singleton.mp hnew
        exact absurd hcovers hnot
  · have hout := hblank chunk (List.mem_append_right _ (List.mem_singleton.mpr rfl))
    unfold Covers at hout
    rw [hbytes, if_neg hout]
    exact h.blank i fun chunk' hmem => hblank chunk' (List.mem_append_left _ hmem)
  · rcases List.mem_append.mp hmem with hold | hnew
    · exact h.chunks chunk' hold
    · exact List.mem_singleton.mp hnew ▸ hchunk

/-- An issue below every admitted chunk. -/
theorem bounded_of_row {scan : Scan} {row row' : Nat}
    (hclosed : ∀ chunk ∈ scan.admitted, chunk.close < row) (hle : row ≤ row')
    (hrow' : row' < (ofSource source).rows.length) (code message : String) :
    Bounded p path source scan (some ((ofSource source).issue row' code message)) := by
  rintro found hfound chunk hmem i hcovers hstart
  obtain rfl := Option.some.inj hfound
  rw [issue_start hrow'] at hstart
  have hbefore : (ofSource source).offset _ ≤ _ := offset_le_offset ((hclosed chunk hmem).le.trans hle) hrow'
  exact absurd hcovers.2 (by omega)

theorem bounded_none {scan : Scan} : Bounded p path source scan none :=
  fun _ hfound => nomatch hfound

/-! ## Issues of options are on rows -/

theorem yamlOptions_index {base index : Nat} {eval : Option Bool} {texts : List (List Char)}
    {index' : Nat} {error : HeaderError} (h : yamlOptions base index eval texts = .error (index', error)) :
    index' < index + texts.length := by
  induction texts generalizing index eval with
  | nil => exact nomatch h
  | cons text texts ih =>
    have hnext : ∀ eval, yamlOptions base (index + 1) eval texts = .error (index', error) →
        index' < index + (text :: texts).length := by
      intro eval h
      have := ih h
      rw [List.length_cons]
      omega
    have hhere : ∀ error', (Except.error (index, error') : Except (Nat × HeaderError) (Option Bool)) =
        .error (index', error) → index' < index + (text :: texts).length := by
      intro error' h
      obtain ⟨rfl, -⟩ := Prod.mk.inj (Except.error.inj h)
      rw [List.length_cons]
      omega
    unfold yamlOptions at h
    dsimp only at h
    split at h
    · exact hnext eval h
    · split at h
      · split at h
        · exact hhere _ h
        · split at h
          · exact hhere _ h
          · split at h
            · exact hhere _ h
            · exact hnext _ h
      · exact hhere _ h

theorem cellOptions_index {options : List (List Char)} {index : Nat} {error : HeaderError}
    (h : cellOptions p path options = .error (index, error)) : index < options.length := by
  unfold cellOptions at h
  split at h
  · exact nomatch h
  · have hfirst : ∀ error', (Except.error (0, error') : Except (Nat × HeaderError) (Option Bool)) =
        .error (index, error) → index < 1 := by
      intro error' h
      obtain ⟨rfl, -⟩ := Prod.mk.inj (Except.error.inj h)
      exact Nat.one_pos
    rw [List.length_cons]
    dsimp only at h
    split at h
    · have := yamlOptions_index h
      rwa [List.length_cons, Nat.zero_add] at this
    · split at h
      · have := hfirst _ h
        omega
      · split at h
        · have := hfirst _ h
          omega
        · exact nomatch h

theorem length_cellLines (r : Report) (row : Nat) :
    (r.cellLines row).length ≤ r.rows.length - (row + 1) := by
  unfold cellLines
  refine (List.length_filterMap_le _ _).trans ?_
  refine (List.takeWhile_sublist _).length_le.trans ?_
  rw [List.length_map, List.length_drop]

/-- The options' issue is on a row from the header on. -/
theorem bounded_chunkOptions {scan : Scan} {row : Nat} {rest : List Char} {issue : InputIssue}
    (hclosed : ∀ chunk ∈ scan.admitted, chunk.close < row)
    (hrow : row < (ofSource source).rows.length)
    (h : (ofSource source).chunkOptions p path row rest = .error issue) :
    Bounded p path source scan (some issue) := by
  have hcell : ∀ {index error code message},
      cellOptions p path ((ofSource source).cellLines row) = .error (index, error) →
      Bounded p path source scan
        (some ((ofSource source).issue (row + 1 + index) code message)) := by
    intro index error code message hoptions
    have hindex := cellOptions_index hoptions
    have hlength := length_cellLines (ofSource source) row
    exact bounded_of_row hclosed (by omega) (by omega) code message
  unfold chunkOptions at h
  split at h
  · obtain rfl := Except.error.inj h
    exact bounded_of_row hclosed le_rfl hrow _ _
  · split at h <;>
    · obtain rfl := Except.error.inj h
      exact bounded_of_row hclosed le_rfl hrow _ _
  · dsimp only at h
    split at h
    · rename_i hoptions
      obtain rfl := Except.error.inj h
      exact hcell hoptions
    · rename_i hoptions
      obtain rfl := Except.error.inj h
      exact hcell hoptions
    · split at h
      · obtain rfl := Except.error.inj h
        exact bounded_of_row hclosed le_rfl hrow _ _
      · exact nomatch h

/-! ## Steps and runs -/

/-- What holds after a turn of the scan. -/
def StepMasked (p : RParser Error) (path : String) (source : List Char) : ChunkStep → Prop
  | .go scan _ row => Masked p path source scan ∧ ∀ chunk ∈ scan.admitted, chunk.close < row
  | .stop scan issue => Masked p path source scan ∧ Bounded p path source scan issue

theorem masked_chunkBody {scan : Scan} {rChunks row width body : Nat} {kind : Char}
    {rest : List Char} {rChunk enabled : Bool} {step : ChunkStep}
    (h : Masked p path source scan) (hclosed : ∀ chunk ∈ scan.admitted, chunk.close < row)
    (hrow : row < (ofSource source).rows.length) (hbody : row < body)
    (hchunk : enabled = true → fence ((ofSource source).text row) = some ('\x60', width, rest) ∧
      kind = '\x60' ∧ (rEngineTail (trim rest)).isSome = true ∧
      (ofSource source).chunkOptions p path row rest = .ok (true, body))
    (hstep : (ofSource source).chunkBody p path scan rChunks row kind width rest rChunk enabled body =
      .ok step) : StepMasked p path source step := by
  unfold chunkBody at hstep
  dsimp only at hstep
  split at hstep
  · -- a nested header is below
    rename_i _ _ nested hnested
    obtain rfl := Except.ok.inj hstep
    have hin : body ≤ nested ∧ nested < (ofSource source).rows.length := by
      split at hnested
      · exact nomatch hnested
      · obtain ⟨hle, hlt, -⟩ := findRow_mem hnested
        refine ⟨hle, hlt.trans_le ?_⟩
        cases hclose : (ofSource source).closingFence body kind width with
        | none => exact le_rfl
        | some close => exact (findRow_mem hclose).2.1.le
    exact ⟨h, bounded_of_row hclosed (by omega) hin.2 _ _⟩
  · obtain rfl := Except.ok.inj hstep
    refine ⟨h, ?_⟩
    split
    · exact bounded_of_row hclosed le_rfl hrow _ _
    · exact bounded_none
  · rename_i close _ hclose
    have hlater : ∀ chunk ∈ scan.admitted, chunk.close < close + 1 := fun chunk hmem => by
      have := hclosed chunk hmem
      have := (findRow_mem hclose).1
      omega
    split at hstep
    · rename_i henabled
      obtain ⟨hfence, rfl, htail, hoptions⟩ := hchunk henabled
      have hadmit : (ofSource source).IsChunk p path ⟨row, body, close⟩ :=
        ⟨width, rest, hfence, htail, hoptions, hclose⟩
      split at hstep
      · exact nomatch hstep
      · rename_i parsed hparsed
        have hnext := masked_unmask h hadmit parsed.parseErrors
        split at hstep
        · rename_i hruntime
          obtain rfl := Except.ok.inj hstep
          refine ⟨hnext, ?_⟩
          rintro found hfound chunk hmem i hcovers hstart
          obtain rfl := Option.some.inj hfound
          rcases List.mem_append.mp hmem with hold | hnew
          · exact bounded_of_row hclosed le_rfl hrow _ _ _ rfl chunk hold i hcovers hstart
          · obtain rfl := List.mem_singleton.mp hnew
            exact ⟨issue_start hrow _ _, parsed, hparsed, hruntime⟩
        · obtain rfl := Except.ok.inj hstep
          refine ⟨hnext, fun chunk hmem => ?_⟩
          rcases List.mem_append.mp hmem with hold | hnew
          · exact hlater chunk hold
          · rw [List.mem_singleton.mp hnew]
            exact Nat.lt_succ_self close
    · obtain rfl := Except.ok.inj hstep
      exact ⟨h, hlater⟩

theorem masked_chunkStep {blocks : List Block} {scan : Scan} {rChunks row : Nat} {step : ChunkStep}
    (h : Masked p path source scan) (hclosed : ∀ chunk ∈ scan.admitted, chunk.close < row)
    (hrow : row < (ofSource source).rows.length)
    (hstep : (ofSource source).chunkStep p path blocks scan rChunks row = .ok step) :
    StepMasked p path source step := by
  have hon : ∀ {rChunks' row'}, (ofSource source).chunkStep p path blocks scan rChunks row =
      .ok (.go scan rChunks' row') → StepMasked p path source (.go scan rChunks' row') :=
    fun hgo => ⟨h, fun chunk hmem =>
      (hclosed chunk hmem).trans ((ofSource source).lt_of_chunkStep hgo)⟩
  have hstep' := hstep
  unfold chunkStep at hstep
  split at hstep
  · obtain rfl := Except.ok.inj hstep
    exact hon hstep'
  · split at hstep
    · obtain rfl := Except.ok.inj hstep
      exact hon hstep'
    · rename_i kind width rest hfence
      split at hstep
      · rename_i hr
        obtain ⟨rfl, htail⟩ := hr
        split at hstep
        · obtain rfl := Except.ok.inj hstep
          exact ⟨h, bounded_of_row hclosed le_rfl hrow _ _⟩
        · split at hstep
          · rename_i issue hoptions
            obtain rfl := Except.ok.inj hstep
            exact ⟨h, bounded_chunkOptions hclosed hrow hoptions⟩
          · rename_i enabled body hoptions
            refine masked_chunkBody h hclosed hrow ((ofSource source).le_of_chunkOptions hoptions)
              (fun henabled => ?_) hstep
            subst henabled
            exact ⟨hfence, rfl, htail, hoptions⟩
      · exact masked_chunkBody h hclosed hrow (Nat.lt_succ_self row)
          (fun henabled : false = true => nomatch henabled) hstep

/-- The whole scan, by induction on the rows that are left. -/
theorem masked_chunks {blocks : List Block} {scan scan' : Scan} {rChunks row : Nat}
    {issue : Option InputIssue} (h : Masked p path source scan)
    (hclosed : ∀ chunk ∈ scan.admitted, chunk.close < row)
    (hrun : (ofSource source).chunks p path blocks scan rChunks row = .ok (scan', issue)) :
    Masked p path source scan' ∧ Bounded p path source scan' issue := by
  fun_induction (ofSource source).chunks p path blocks scan rChunks row with
  | case1 scan rChunks row hrow error hstep => exact nomatch hrun
  | case2 scan rChunks row hrow scan'' issue' hstep =>
    obtain ⟨rfl, rfl⟩ := Prod.mk.inj (Except.ok.inj hrun)
    exact masked_chunkStep h hclosed hrow hstep
  | case3 scan rChunks row hrow scan'' rChunks'' row' hstep ih =>
    obtain ⟨hnext, hclosed'⟩ := masked_chunkStep h hclosed hrow hstep
    exact ih hnext hclosed' hrun
  | case4 scan rChunks row hrow =>
    obtain ⟨rfl, rfl⟩ := Prod.mk.inj (Except.ok.inj hrun)
    exact ⟨h, bounded_none⟩

theorem masked_maskReport {scan : Scan} {issue : Option InputIssue}
    (h : maskReport p path source = .ok (scan, issue)) :
    Masked p path source scan ∧ Bounded p path source scan issue := by
  unfold maskReport at h
  split at h
  · exact masked_chunks (masked_blank source) (fun _ hmem => absurd hmem List.not_mem_nil) h
  · obtain ⟨rfl, rfl⟩ := Prod.mk.inj (Except.ok.inj h)
    exact ⟨masked_blank source, fun _ _ chunk hmem => absurd hmem List.not_mem_nil⟩

end Report

open Report

/-- A mask of the scan is always a text. -/
theorem fromUtf8_maskReport {p : RParser Error} {path : String} {source : List Char} {scan : Scan}
    {issue : Option InputIssue} (h : maskReport p path source = .ok (scan, issue)) :
    ∃ text, fromUtf8 scan.masked = some text ∧ utf8 text = scan.masked := by
  obtain ⟨parts, -, hmasked⟩ := (masked_maskReport h).1.parts
  exact ⟨parts.flatten, hmasked ▸ fromUtf8_utf8 _, hmasked.symm⟩

/-- A parser whose every file calls `alist`, or is empty. -/
def alistParser : RParser Unit where
  parse _ text := .ok ⟨text, if text = [] then [] else
    [.expr (.call (.ident "alist" ⟨0, 0, 0, 0⟩) [] ⟨0, 0, 0, 0⟩)], [], []⟩
  unquoteRString := id
  decodeRQuotedName := some

/-- A chunk, and one that is left open. -/
def chunkSource : List Char := "é\n```{r}\r\nx\n```\n```{r}\ny".toList

end Ry
