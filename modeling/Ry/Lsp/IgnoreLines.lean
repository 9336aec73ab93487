import Ry.Lsp.IgnoreActions

/-! # The line a quick fix writes

Where the edited line is in the text, what the new comment lists, and how the checker reads it: a
merged list that drops one of its codes drops them all.
-/

namespace Ry.Ignore

/-! ## The line that is edited -/

theorem getLast?_endedLines (above : List (List Char)) :
    (endedLines above).getLast? ≠ some '\r' := by
  rcases List.eq_nil_or_concat above with rfl | ⟨init, line, rfl⟩
  · decide
  · simp [endedLines]

/-- A line of the text as a piece between line feeds, with the carriage return of a CRLF. -/
theorem sourceLines_cut {text lineText : List Char} {n : Nat}
    (h : (sourceLines text)[n]? = some lineText) :
    ∃ above below cr, rawLines text = above ++ (lineText ++ cr) :: below ∧ above.length = n ∧
      (cr = [] ∨ cr = ['\r']) ∧
        ¬ InsideCrlf (endedLines above ++ lineText) (cr ++ begunLines below) := by
  have hinside : ∀ (above below : List (List Char)), lineText.getLast? ≠ some '\r' →
      ¬ InsideCrlf (endedLines above ++ lineText) ([] ++ begunLines below) := by
    rintro above below hlast ⟨hcr, -⟩
    rw [List.getLast?_append, Option.or_eq_some_iff] at hcr
    rcases hcr with hcr | ⟨-, hcr⟩
    · exact hlast hcr
    · exact getLast?_endedLines above hcr
  obtain ⟨init, last, hraw⟩ := exists_last text
  rw [sourceLines_eq hraw] at h
  by_cases hn : n < init.length
  · rw [List.getElem?_append_left (by rwa [List.length_map]), List.getElem?_map,
      List.getElem?_eq_getElem hn, Option.map_some] at h
    obtain rfl := Option.some.inj h
    have hcut : rawLines text = init.take n ++ init[n] :: (init.drop (n + 1) ++ [last]) := by
      rw [hraw, ← List.cons_append, ← List.append_assoc, ← List.drop_eq_getElem_cons hn,
        List.take_append_drop]
    rcases withoutCr_cases init[n] with hcr | ⟨hcr, hlast⟩
    · refine ⟨init.take n, init.drop (n + 1) ++ [last], ['\r'], ?_, ?_, Or.inr rfl, ?_⟩
      · rw [← hcr]
        exact hcut
      · exact List.length_take_of_le hn.le
      · rintro ⟨-, hhead⟩
        cases hhead
    · refine ⟨init.take n, init.drop (n + 1) ++ [last], [], ?_, ?_, Or.inl rfl, ?_⟩
      · rw [List.append_nil, ← hcr]
        exact hcut
      · exact List.length_take_of_le hn.le
      · exact hinside _ _ (hcr ▸ hlast)
  · rw [List.getElem?_append_right (by rw [List.length_map]; exact Nat.le_of_not_lt hn),
      List.length_map] at h
    split at h
    · cases h
    · rw [List.getElem?_singleton] at h
      split at h
      · rename_i hlen
        cases h
        refine ⟨init, [], [], ?_, by omega, Or.inl rfl, ?_⟩
        · rw [List.append_nil]
          exact hraw
        · rintro ⟨-, hhead⟩
          cases hhead
      · cases h

theorem lineFeeds_line {line : List Char} (h : '\n' ∉ line) (offset : Nat) (rest : List Char) :
    lineFeeds offset (line ++ '\n' :: rest) =
      (offset + byteLen line + 1) :: lineFeeds (offset + byteLen line + 1) rest := by
  induction line generalizing offset with
  | nil => rw [List.nil_append, lineFeeds, if_pos rfl, byteLen_nil, Nat.add_zero]
  | cons c line ih =>
    rw [List.mem_cons, not_or] at h
    rw [List.cons_append, lineFeeds, if_neg fun hc => h.1 hc.symm, ih h.2, byteLen_cons,
      Nat.add_assoc offset]

theorem lineFeeds_endedLines {above : List (List Char)} (h : ∀ line ∈ above, '\n' ∉ line)
    {n : Nat} (hn : above.length = n + 1) (offset : Nat) (rest : List Char) :
    (lineFeeds offset (endedLines above ++ rest))[n]? =
      some (offset + byteLen (endedLines above)) := by
  induction above generalizing n offset with
  | nil => cases hn
  | cons line above ih =>
    obtain ⟨hline, habove⟩ := List.forall_mem_cons.mp h
    have hfeed : ('\n' : Char).utf8Size = 1 := rfl
    rw [endedLines_cons, List.append_assoc, List.cons_append, lineFeeds_line hline]
    cases n with
    | zero =>
      obtain rfl := List.length_eq_zero_iff.mp (Nat.succ.inj hn)
      simp [endedLines, hfeed]
      omega
    | succ n =>
      rw [List.getElem?_cons_succ, ih habove (Nat.succ.inj hn), byteLen_append, byteLen_cons, hfeed]
      congr 1
      omega

/-- The lines above end where the line starts. -/
theorem lineStart_eq {text line : List Char} {above below : List (List Char)}
    (h : rawLines text = above ++ line :: below) :
    lineStart text above.length = byteLen (endedLines above) := by
  have hfree : ∀ l ∈ above, '\n' ∉ l := fun l hl =>
    not_mem_of_rawLines (h ▸ List.mem_append_left _ hl)
  cases hlen : above.length with
  | zero =>
    obtain rfl := List.length_eq_zero_iff.mp hlen
    rfl
  | succ n =>
    rw [lineStart, eq_of_rawLines h, List.append_assoc, lineFeeds_endedLines hfree hlen,
      Option.getD_some, Nat.zero_add]

/-- The text with a line replaced, its carriage return aside. -/
theorem replaceRange_line {text line cr : List Char} {above below : List (List Char)}
    (h : rawLines text = above ++ (line ++ cr) :: below) (new : List Char) :
    replaceRange text (lineStart text above.length) (lineStart text above.length + byteLen line) new =
      endedLines above ++ (new ++ cr) ++ begunLines below := by
  rw [lineStart_eq h, eq_of_rawLines h, replaceRange]
  have hsuffix : suffixBytes (endedLines above ++ (line ++ cr) ++ begunLines below)
      (byteLen (endedLines above) + byteLen line) = cr ++ begunLines below := by
    rw [← byteLen_append, ← List.append_assoc (endedLines above), List.append_assoc _ cr,
      suffixBytes_append]
  rw [hsuffix, List.append_assoc (endedLines above), prefixBytes_append]
  simp only [List.append_assoc]

/-- The range of the edit is the line, in files whose lines and columns can be counted. -/
theorem apply_line {text line cr new : List Char} {above below : List (List Char)} {n : UInt32}
    (h : rawLines text = above ++ (line ++ cr) :: below) (hn : above.length = n.toNat)
    (hinside : ¬ InsideCrlf (endedLines above ++ line) (cr ++ begunLines below))
    (hfit : FitsCounters text) :
    (TextEdit.mk ⟨⟨n, 0⟩, byteOffsetToPosition text (lineStart text n.toNat + byteLen line)⟩ new).apply
        text = some (endedLines above ++ (new ++ cr) ++ begunLines below) := by
  have htext := eq_of_rawLines h
  have hfree : ∀ l ∈ above, '\n' ∉ l := fun l hl =>
    not_mem_of_rawLines (h ▸ List.mem_append_left _ hl)
  -- the start of the line
  have hlast : lastLine (endedLines above) = [] := by
    rcases List.eq_nil_or_concat above with rfl | ⟨init, l, rfl⟩
    · rfl
    · simp [lastLine, endedLines]
  have hcolumn : columnText (endedLines above) (line ++ cr ++ begunLines below) = [] := by
    rw [columnText, hlast]
    split <;> rfl
  have hposition : (⟨n, 0⟩ : Position) =
      byteOffsetToPosition text (byteLen (endedLines above)) := by
    rw [htext, List.append_assoc, byteOffsetToPosition_boundary, wirePosition, exactPosition,
      hcolumn, count_endedLines hfree, hn]
    simp [utf16Width]
  have hstart : positionToByteOffset text ⟨n, 0⟩ = some (byteLen (endedLines above)) := by
    have hback := @back_of_fitsCounters (endedLines above) (line ++ cr ++ begunLines below)
      (by rwa [← List.append_assoc, ← htext])
    rw [← List.append_assoc, ← htext, ← hposition] at hback
    rw [hback, if_neg fun hcrlf => getLast?_endedLines above hcrlf.1]
  have hstop : positionToByteOffset text
      (byteOffsetToPosition text (lineStart text n.toNat + byteLen line)) =
        some (lineStart text n.toNat + byteLen line) := by
    have hcut : text = (endedLines above ++ line) ++ (cr ++ begunLines below) := by
      rw [htext]
      simp only [List.append_assoc]
    have hback := @back_of_fitsCounters (endedLines above ++ line) (cr ++ begunLines below)
      (hcut ▸ hfit)
    rw [if_neg hinside, ← hcut, byteLen_append] at hback
    rw [← hn, lineStart_eq h]
    exact hback
  rw [TextEdit.apply, rangeByteSpan]
  simp only [hstart, hstop]
  rw [← hn, ← replaceRange_line h, lineStart_eq h, if_pos (Nat.le_add_right _ _)]
  rfl

/-! ## The merged list -/

theorem isRuleCode_plain {code : List Char} (h : isRuleCode code = true) :
    upper code = code ∧ code ≠ [] ∧ ∀ c ∈ code, c.isAlphanum = true := by
  rw [isRuleCode, Option.any_eq_true] at h
  obtain ⟨r, hfind, hcode⟩ := h
  obtain ⟨hlooks, hupper⟩ := rules_look_like_codes r (List.mem_of_find?_eq_some hfind)
  rw [beq_iff_eq.mp hcode] at hlooks hupper
  rw [looksLikeRuleCode, hupper, Bool.and_eq_true, List.all_eq_true] at hlooks
  refine ⟨hupper, ?_, hlooks.2⟩
  rintro rfl
  cases hlooks.1

theorem isRuleCode_tokens {code : List Char} (h : isRuleCode code = true) : tokens code = [code] := by
  obtain ⟨-, hne, hplain⟩ := isRuleCode_plain h
  refine tokens_piece (fun c hc => ?_) hne
  have hc := hplain c hc
  by_contra hseparator
  rw [Bool.not_eq_false, isSeparator, Bool.or_eq_true, Bool.or_eq_true, decide_eq_true_eq,
    decide_eq_true_eq, decide_eq_true_eq] at hseparator
  rcases hseparator with (rfl | rfl) | rfl <;> revert hc <;> decide

/-- A list of codes joined with commas. -/
def joined (codes : List (List Char)) : List Char := ", ".toList.intercalate codes

theorem codesOf_joined {codes : List (List Char)} (h : ∀ code ∈ codes, isRuleCode code = true) :
    codesOf (joined codes) = codes := by
  have htokens : tokens (joined codes) = codes := by
    induction codes with
    | nil => rfl
    | cons code codes ih =>
      obtain ⟨hcode, hcodes⟩ := List.forall_mem_cons.mp h
      by_cases hnil : codes = []
      · rw [hnil, joined, List.intercalate_singleton, isRuleCode_tokens hcode]
      · have hjoin : joined (code :: codes) = code ++ ',' :: ([] ++ ' ' :: joined codes) := by
          rw [joined, List.intercalate_cons_of_ne_nil hnil, List.append_assoc]
          rfl
        rw [hjoin, tokens_separator rfl, tokens_separator rfl, isRuleCode_tokens hcode, ih hcodes]
        rfl
  rw [codesOf, htokens]
  exact (List.map_congr_left fun code hcode => (isRuleCode_plain (h code hcode)).1).trans
    (List.map_id _)

theorem not_mem_joined {codes : List (List Char)} {x : Char} (hx : x ∉ [',', ' '])
    (h : ∀ code ∈ codes, x ∉ code) : x ∉ joined codes := by
  induction codes with
  | nil => simp [joined]
  | cons code codes ih =>
    obtain ⟨hcode, hcodes⟩ := List.forall_mem_cons.mp h
    by_cases hnil : codes = []
    · rw [hnil, joined, List.intercalate_singleton]
      exact hcode
    · rw [joined, List.intercalate_cons_of_ne_nil hnil, List.mem_append, List.mem_append]
      rintro ((hmem | hmem) | hmem)
      · exact hcode hmem
      · exact hx hmem
      · exact ih hcodes hmem

theorem not_mem_of_isRuleCode {code : List Char} (h : isRuleCode code = true) {x : Char}
    (hx : x.isAlphanum = false) : x ∉ code := by
  intro hmem
  rw [(isRuleCode_plain h).2.2 x hmem] at hx
  cases hx

theorem trim_bracket (list rest : List Char) :
    trim ('[' :: (list ++ ']' :: rest)) = '[' :: (list ++ ']' :: trimEnd rest) := by
  rw [trim, trimStart, List.dropWhile_cons_of_neg (by decide)]
  have hkeep : ∀ cs : List Char, trimEnd (cs ++ ']' :: rest) = cs ++ ']' :: trimEnd rest := by
    intro cs
    induction rest using List.reverseRecOn with
    | nil => exact List.rdropWhile_concat_neg _ _ _ (by decide)
    | append_singleton rest c ih =>
      rw [← List.cons_append, ← List.append_assoc]
      by_cases hc : isWhitespace c = true
      · rw [trimEnd, trimEnd, List.rdropWhile_concat_pos _ _ _ hc,
          List.rdropWhile_concat_pos _ _ _ hc]
        exact ih
      · rw [trimEnd, trimEnd, List.rdropWhile_concat_neg _ _ _ hc,
          List.rdropWhile_concat_neg _ _ _ hc, List.append_assoc, List.cons_append]
  exact hkeep ('[' :: list)

/-- If a merged list drops one of its codes, and the others are rule codes, it drops them all. -/
theorem suppresses_joined {codes : List (List Char)} {rest : List Char} {code : String}
    (hothers : ∀ c ∈ codes, c ≠ code.toList → isRuleCode c = true)
    (h : (parseNativeCodes ('[' :: (joined codes ++ ']' :: rest))).suppresses code = true)
    {code' : String} (hcode' : code'.toList ∈ codes) (hsuppressible : suppressible code' = true) :
    (parseNativeCodes ('[' :: (joined codes ++ ']' :: rest))).suppresses code' = true := by
  have hreads := parseNativeCodes_reads ('[' :: (joined codes ++ ']' :: rest))
  obtain ⟨-, hall | hcovers⟩ := (hreads.suppresses code).mp h
  · exact (hreads.suppresses code').mpr ⟨hsuppressible, Or.inl hall⟩
  · refine (hreads.suppresses code').mpr ⟨hsuppressible, Or.inr ?_⟩
    have hcodes : ∀ c ∈ codes, isRuleCode c = true := by
      intro c hc
      by_cases heq : c = code.toList
      · obtain ⟨-, -, -, hrule, -⟩ := hcovers
        exact heq ▸ hrule
      · exact hothers c hc heq
    obtain ⟨list, hlists, hhonored, -, -⟩ := hcovers
    have hlist := hlists
    rw [trim_bracket] at hlist
    have hfree : ']' ∉ joined codes := not_mem_joined (by decide) fun c hc =>
      not_mem_of_isRuleCode (hcodes c hc) (by decide)
    obtain ⟨rfl, -⟩ := (lists_bracket hfree).mp hlist
    exact ⟨joined codes, hlists, hhonored, hcodes _ hcode', by rwa [codesOf_joined hcodes]⟩

/-! ## Directives -/

theorem parseNoqaCodes_selective {text : List Char} {codes : List (List Char)}
    (h : parseNoqaCodes text = .selective codes) : ∀ c ∈ codes, isRuleCode c = true := by
  have hselect : ∀ list, selectKnown list = .selective codes →
      ∀ c ∈ codes, isRuleCode c = true := by
    intro list h c hc
    rw [selectKnown] at h
    split at h
    · cases h
    · cases h
      exact (isRuleCode_upper_mem.mp hc).1
  rw [parseNoqaCodes] at h
  split at h
  · cases h
  · split at h
    · cases h
    · split at h
      · cases h
      · exact hselect _ h
  · exact hselect _ h
  · exact hselect _ h

/-- The codes of a selective directive are rule codes. -/
theorem selective_isRuleCode {body : List Char} {codes : List (List Char)}
    {origin : SuppressionOrigin}
    (h : parseIgnoreCommentBody body = some (.line (.selective codes) origin)) :
    ∀ c ∈ codes, isRuleCode c = true := by
  rw [parseIgnoreCommentBody] at h
  split at h
  · split at h
    · split at h <;> cases h
    · split at h
      · cases h
      · obtain ⟨hkind, -⟩ := ParsedDirective.line.inj (Option.some.inj h)
        rcases parseNativeCodes_outcome _ with
          ⟨-, -, hall⟩ | ⟨-, list, codes', -, hwf, -, hselective, hcodes⟩ | ⟨-, reason, hinvalid⟩
        · rw [hkind] at hall
          cases hall
        · rw [hkind] at hselective
          cases hselective
          exact fun c hc => hwf.codes c ((hcodes c).mp hc)
        · rw [hkind] at hinvalid
          cases hinvalid
  · split at h
    · obtain ⟨hkind, -⟩ := ParsedDirective.line.inj (Option.some.inj h)
      exact parseNoqaCodes_selective hkind
    · cases h

/-- A body that goes on after the marker with a list, or not at all. -/
theorem parseIgnoreCommentBody_marker {rest : List Char}
    (h : ∀ c ∈ rest.head?, c = '[' ∨ c = '\r') :
    parseIgnoreCommentBody (" ry: ignore".toList ++ rest) =
      some (.line (parseNativeCodes rest) .ry) := by
  have htrim : trimStart (" ry: ignore".toList ++ rest) = "ry: ignore".toList ++ rest := rfl
  have hmarker : nativeMarker ("ry: ignore".toList ++ rest.map Char.toLower) =
      some ("ry: ignore", rest.map Char.toLower) := rfl
  have hmap : ("ry: ignore".toList ++ rest).map Char.toLower =
      "ry: ignore".toList ++ rest.map Char.toLower := by
    rw [List.map_append]
    rfl
  have hboundary : stripPrefix "-file" (rest.map Char.toLower) = none ∧
      markerBoundary (rest.map Char.toLower) = true := by
    cases rest with
    | nil => decide
    | cons c rest =>
      rcases h c rfl with rfl | rfl
      · exact ⟨rfl, rfl⟩
      · exact ⟨rfl, rfl⟩
  unfold parseIgnoreCommentBody
  simp only [htrim, hmap, hmarker, hboundary.1, hboundary.2]
  rfl

/-! ## The new line -/

/-- The comment of a line that the new one goes on with. -/
def trailingComment (file : SourceFile) (line : Nat) : Option Comment :=
  file.comments.find? (·.line = line)

def trailingDirectives (file : SourceFile) (line : Nat) : List Suppression :=
  (trailingComment file line).elim [] fun comment =>
    parseSuppressionsFromComments [comment] file.source

/-- What the new comment lists. -/
def mergedCodes (code : String) (trailing : List Suppression) : List (List Char) :=
  dedup ((trailing.flatMap (validRules ·.kind) ++ [code.toList]).insertionSort (· ≤ ·))

theorem mem_dedup {code : List Char} (codes : List (List Char)) :
    code ∈ dedup codes ↔ code ∈ codes := by
  induction codes using dedup.induct with
  | case1 a rest ih =>
    rw [dedup, if_pos rfl, ih]
    simp
  | case2 a b rest hne ih => rw [dedup, if_neg hne, List.mem_cons, List.mem_cons, ih]
  | case3 rest hshort =>
    rw [dedup]
    exact hshort

theorem mem_mergedCodes {code : String} {trailing : List Suppression} {c : List Char} :
    c ∈ mergedCodes code trailing ↔
      (∃ s ∈ trailing, c ∈ validRules s.kind) ∨ c = code.toList := by
  rw [mergedCodes, mem_dedup, List.mem_insertionSort, List.mem_append, List.mem_flatMap,
    List.mem_singleton]

/-- What follows the marker in the new comment. -/
def AfterMarker (code : String) (trailing : List Suppression) (rest : List Char) : Prop :=
  (∀ c ∈ rest.head?, c = '[' ∨ c = '\r') ∧
    (code ≠ "" → ∃ suffix, rest = '[' :: (joined (mergedCodes code trailing) ++ ']' :: suffix))

theorem directive_eq (code : String) (comment : Option Comment) (trailing : List Suppression) :
    ∃ rest, directive code comment trailing = '#' :: (" ry: ignore".toList ++ rest) ∧
      ∀ suffix, suffix = [] ∨ comment.isSome → AfterMarker code trailing (rest ++ suffix) := by
  rw [directive]
  by_cases hcode : code = ""
  · rw [if_pos hcode]
    cases comment with
    | none =>
      refine ⟨[], rfl, fun suffix h => ⟨?_, fun h => absurd hcode h⟩⟩
      obtain rfl : suffix = [] := h.resolve_right (by decide)
      simp
    | some comment => exact ⟨['[', ']'], rfl, fun suffix _ => ⟨by simp, fun h => absurd hcode h⟩⟩
  · rw [if_neg hcode]
    refine ⟨'[' :: (joined (mergedCodes code trailing) ++ [']']), ?_, fun suffix _ => ⟨by simp, ?_⟩⟩
    · rw [List.append_assoc]
      rfl
    · exact fun _ => ⟨suffix, by simp⟩

theorem AfterMarker.addCr {code : String} {trailing : List Suppression} {rest cr : List Char}
    (h : AfterMarker code trailing rest) (hcr : cr = [] ∨ cr = ['\r']) :
    AfterMarker code trailing (rest ++ cr) := by
  constructor
  · cases rest with
    | nil =>
      rcases hcr with rfl | rfl
      · exact h.1
      · simp
    | cons c rest => exact h.1
  · intro hcode
    obtain ⟨suffix, rfl⟩ := h.2 hcode
    exact ⟨suffix ++ cr, by simp⟩

theorem AfterMarker.dropCr {code : String} {trailing : List Suppression} {rest : List Char}
    (h : AfterMarker code trailing (rest ++ ['\r'])) : AfterMarker code trailing rest := by
  constructor
  · cases rest with
    | nil => simp
    | cons c rest => exact h.1
  · intro hcode
    obtain ⟨suffix, heq⟩ := h.2 hcode
    rcases List.eq_nil_or_concat suffix with rfl | ⟨init, last, rfl⟩
    · have hlast := congrArg List.getLast? heq
      rw [← List.cons_append, List.getLast?_concat, List.getLast?_concat] at hlast
      cases hlast
    · have hcut : rest ++ ['\r'] =
          '[' :: (joined (mergedCodes code trailing) ++ ']' :: init) ++ [last] := by
        rw [heq]
        simp
      exact ⟨init, (List.append_inj' hcut rfl).1⟩

/-- The rest of the body, when the line's carriage return is read with it and when one is not. -/
theorem AfterMarker.body {code : String} {trailing : List Suppression} {rest cr body : List Char}
    (h : AfterMarker code trailing rest) (hcr : cr = [] ∨ cr = ['\r'])
    (hbody : body = " ry: ignore".toList ++ rest ++ cr ∨
      " ry: ignore".toList ++ rest ++ cr = body ++ ['\r']) :
    ∃ rest', body = " ry: ignore".toList ++ rest' ∧ AfterMarker code trailing rest' := by
  rw [List.append_assoc] at hbody
  have hall := h.addCr hcr
  rcases hbody with rfl | hbody
  · exact ⟨_, rfl, hall⟩
  · rcases List.eq_nil_or_concat (rest ++ cr) with hnil | ⟨init, last, hconcat⟩
    · rw [hnil] at hbody
      have hlast := congrArg List.getLast? hbody
      rw [List.getLast?_concat] at hlast
      exact absurd hlast (by decide)
    · rw [hconcat, List.concat_eq_append, ← List.append_assoc] at hbody
      obtain ⟨hinit, hlast⟩ := List.append_inj' hbody rfl
      rw [hconcat, List.concat_eq_append, List.singleton_inj.mp hlast] at hall
      exact ⟨init, hinit.symm, hall.dropCr⟩

theorem trailing_isRuleCode {file : SourceFile} {line : Nat} :
    ∀ s ∈ trailingDirectives file line, ∀ c ∈ validRules s.kind, isRuleCode c = true := by
  intro s hs c hc
  rw [trailingDirectives] at hs
  cases hcomment : trailingComment file line with
  | none =>
    rw [hcomment] at hs
    cases hs
  | some comment =>
    rw [hcomment] at hs
    obtain ⟨comment', -, hparse, -⟩ := mem_parseSuppressions.mp hs
    cases hkind : s.kind with
    | selective codes =>
      rw [hkind] at hparse hc
      exact selective_isRuleCode hparse c hc
    | all | invalid reason | foreign =>
      rw [hkind] at hc
      cases hc

theorem not_mem_directive {code : String} {comment : Option Comment} {trailing : List Suppression}
    (hcode : '\n' ∉ code.toList)
    (htrailing : ∀ s ∈ trailing, ∀ c ∈ validRules s.kind, isRuleCode c = true) :
    '\n' ∉ directive code comment trailing := by
  rw [directive]
  split
  · split <;> decide
  · have hjoined : '\n' ∉ joined (mergedCodes code trailing) := by
      refine not_mem_joined (by decide) fun c hc => ?_
      rcases mem_mergedCodes.mp hc with ⟨s, hs, hc⟩ | rfl
      · exact not_mem_of_isRuleCode (htrailing s hs c hc) (by decide)
      · exact hcode
    rw [List.mem_append, List.mem_append]
    rintro ((hmem | hmem) | hmem)
    · revert hmem
      decide
    · exact hjoined hmem
    · revert hmem
      decide

/-- The comment of the line, cut out of it. -/
theorem trailingComment_cut {file : SourceFile} {above below : List (List Char)}
    {lineText cr : List Char} {comment : Comment}
    (hraw : rawLines file.source = above ++ (lineText ++ cr) :: below)
    (hcr : cr = [] ∨ cr = ['\r'])
    (hstands : ∀ c ∈ file.comments, ∃ before, StandsAfter (rawLines file.source) c before)
    (h : trailingComment file above.length = some comment) :
    comment ∈ file.comments ∧ comment.line = above.length ∧
      ∃ before old, lineText = before ++ old ∧ comment.col = byteLen before ∧
        (∃ tail, old ++ cr = '#' :: tail) ∧ ∀ c ∈ comment.body, c ∈ old ++ cr := by
  have hmem := List.mem_of_find?_eq_some h
  have hline : comment.line = above.length := by
    simpa using List.find?_some h
  refine ⟨hmem, hline, ?_⟩
  obtain ⟨before, hcol, tail, hpiece, hbody⟩ := hstands comment hmem
  rw [hraw, hline, List.getElem?_append_right (Nat.le_refl _), Nat.sub_self, List.getElem?_cons_zero]
    at hpiece
  have heq : lineText ++ cr = before ++ '#' :: tail := Option.some.inj hpiece
  have hsub : ∀ c ∈ comment.body, c ∈ tail := by
    intro c hc
    rcases hbody with rfl | rfl
    · exact hc
    · exact List.mem_append_left _ hc
  have hcut : ∃ old, lineText = before ++ old ∧ '#' :: tail = old ++ cr := by
    rcases hcr with rfl | rfl
    · exact ⟨'#' :: tail, by rw [← heq, List.append_nil], (List.append_nil _).symm⟩
    · rcases List.eq_nil_or_concat tail with rfl | ⟨init, last, rfl⟩
      · have hlast := congrArg List.getLast? heq
        simp at hlast
      · rw [List.concat_eq_append, ← List.cons_append, ← List.append_assoc] at heq
        obtain ⟨hinit, hlast⟩ := List.append_inj' heq rfl
        refine ⟨'#' :: init, hinit, ?_⟩
        rw [List.concat_eq_append, ← hlast, List.cons_append]
  obtain ⟨old, hold, htail⟩ := hcut
  refine ⟨before, old, hold, hcol, ⟨tail, htail.symm⟩, fun c hc => ?_⟩
  rw [← htail]
  exact List.mem_cons_of_mem _ (hsub c hc)

/-- The new line is what stands before the old comment, blanks and the new comment. -/
theorem newLine_cut {file : SourceFile} {above below : List (List Char)} {lineText cr : List Char}
    {code : String} (hraw : rawLines file.source = above ++ (lineText ++ cr) :: below)
    (hcr : cr = [] ∨ cr = ['\r'])
    (hstands : ∀ c ∈ file.comments, ∃ before, StandsAfter (rawLines file.source) c before)
    (hcode : '\n' ∉ code.toList) {comment : Option Comment} {trailing : List Suppression}
    (hcomment : trailingComment file above.length = comment)
    (htrailing : trailingDirectives file above.length = trailing) :
    ∃ before old blanks rest, lineText = before ++ old ∧
      newLine lineText (directive code comment trailing) comment trailing =
        before ++ blanks ++ '#' :: (" ry: ignore".toList ++ rest) ∧
      (∀ c ∈ blanks, c = ' ') ∧
      comment.elim (byteLen lineText + 2) Comment.col = byteLen (before ++ blanks) ∧
      (old = [] ∨ file.HasComment above.length (byteLen before) ∧ ∃ tail, old ++ cr = '#' :: tail) ∧
      AfterMarker code trailing rest ∧ '\n' ∉ '#' :: (" ry: ignore".toList ++ rest) := by
  have hline : '\n' ∉ lineText ++ cr :=
    not_mem_of_rawLines (hraw ▸ List.mem_append_right _ List.mem_cons_self)
  obtain ⟨rest, hdirective, hafter⟩ := directive_eq code comment trailing
  have hfree : '\n' ∉ directive code comment trailing :=
    not_mem_directive hcode (htrailing ▸ trailing_isRuleCode)
  rw [hdirective] at hfree
  cases comment with
  | none =>
    refine ⟨lineText, [], [' ', ' '], rest, (List.append_nil _).symm, ?_, by simp, ?_,
      Or.inl rfl, ?_, hfree⟩
    · rw [newLine, hdirective]
      rfl
    · rw [byteLen_append]
      rfl
    · have hnone := hafter [] (Or.inl rfl)
      rwa [List.append_nil] at hnone
  | some comment =>
    obtain ⟨hmem, hat, before, old, rfl, hcol, htail, hbody⟩ :=
      trailingComment_cut hraw hcr hstands hcomment
    rw [List.append_assoc, List.mem_append, not_or] at hline
    -- what the new comment goes on with
    have hsuffix : ∃ suffix, newLine (before ++ old) (directive code (some comment) trailing)
        (some comment) trailing = before ++ directive code (some comment) trailing ++ suffix ∧
          '\n' ∉ suffix := by
      rw [newLine, hcol, prefixBytes_append, suffixBytes_append]
      split
      · refine ⟨_, rfl, fun h => hline.2 (hbody _ ?_)⟩
        exact (List.dropWhile_suffix _).subset (List.mem_of_mem_tail h)
      · refine ⟨"  ".toList ++ old, by simp only [List.append_assoc], ?_⟩
        rw [List.mem_append]
        rintro (h | h)
        · revert h
          decide
        · exact hline.2 (List.mem_append_left _ h)
    obtain ⟨suffix, hnew, hsuffix⟩ := hsuffix
    refine ⟨before, old, [], rest ++ suffix, rfl, ?_, by simp, ?_,
      Or.inr ⟨⟨comment, hmem, hat, hcol⟩, htail⟩, hafter suffix (Or.inr rfl), ?_⟩
    · rw [hnew, hdirective]
      simp
    · rw [Option.elim_some, hcol, List.append_nil]
    · rw [← List.append_assoc, ← List.cons_append, List.mem_append]
      exact fun h => h.elim hfree hsuffix

/-! ## The change -/

/-- Whether a line is code is told by what stands before its comment. -/
theorem LineChange.isCodeLine_newLine {change : LineChange} {tail : List Char}
    (hnew : change.new = '#' :: tail)
    (hold : change.old = [] ∨ ∃ tail, change.old ++ change.cr = '#' :: tail) :
    isCodeLine change.newLine = isCodeLine change.oldLine := by
  have hspaces : ∀ c ∈ change.blanks, isWhitespace c = true := by
    intro c hc
    rw [change.blank c hc]
    rfl
  have hcr : ∀ c ∈ change.cr, isWhitespace c = true := by
    intro c hc
    rcases change.ending with hend | hend
    · rw [hend] at hc
      cases hc
    · rw [hend] at hc
      rw [List.mem_singleton.mp hc]
      rfl
  have hcode : isCodeLine change.newLine = isCodeLine change.before := by
    rw [LineChange.newLine, hnew, isCodeLine_blanks hcr, isCodeLine_comment,
      isCodeLine_blanks hspaces]
  rw [hcode, LineChange.oldLine]
  rcases hold with hold | ⟨tail, htail⟩
  · rw [hold, List.append_nil, isCodeLine_blanks hcr]
  · rw [List.append_assoc, htail, isCodeLine_comment]

/-- The other lines are the text's. -/
theorem LineChange.rawLines_newLine {change : LineChange} {text : List Char}
    (h : rawLines text = change.above ++ change.oldLine :: change.below) (hnew : '\n' ∉ change.new) :
    rawLines (endedLines change.above ++ change.newLine ++ begunLines change.below) =
      change.above ++ change.newLine :: change.below := by
  have hfree : ∀ line ∈ change.above ++ change.oldLine :: change.below, '\n' ∉ line :=
    fun line hline => not_mem_of_rawLines (h ▸ hline)
  rw [List.forall_mem_append, List.forall_mem_cons] at hfree
  obtain ⟨habove, hold, hbelow⟩ := hfree
  have hline : '\n' ∉ change.newLine := by
    rw [LineChange.oldLine] at hold
    rw [LineChange.newLine]
    simp only [List.mem_append, not_or] at hold ⊢
    refine ⟨⟨⟨hold.1.1, fun hmem => ?_⟩, hnew⟩, hold.2⟩
    exact absurd (change.blank _ hmem) (by decide)
  refine rawLines_put ?_
  rw [List.forall_mem_append, List.forall_mem_cons]
  exact ⟨habove, hline, hbelow⟩

/-- The new comment is read as the directive that was written. -/
theorem LineChange.PutsComment.directive {change : LineChange} {file file' : SourceFile}
    (h : change.PutsComment file file')
    (hstands : ∀ c ∈ file'.comments, ∃ before, StandsAfter (rawLines file'.source) c before)
    {code : String} {trailing : List Suppression} {rest : List Char}
    (hnew : change.new = '#' :: (" ry: ignore".toList ++ rest))
    (hafter : AfterMarker code trailing rest) :
    ∃ c ∈ file'.comments, c.line = change.line ∧ ∃ rest', AfterMarker code trailing rest' ∧
      parseIgnoreCommentBody c.body = some (.line (parseNativeCodes rest') .ry) := by
  obtain ⟨c, hc, hat, hcol⟩ := h.put
  have hpiece : (rawLines file'.source)[c.line]? = some (change.before ++ change.blanks ++
      '#' :: (" ry: ignore".toList ++ rest ++ change.cr)) := by
    rw [h.lines', hat, LineChange.line, List.getElem?_append_right (Nat.le_refl _), Nat.sub_self,
      List.getElem?_cons_zero, LineChange.newLine, hnew, List.append_assoc, List.cons_append]
  obtain ⟨pre, hpre⟩ := hstands c hc
  obtain ⟨-, hbody⟩ := hpre.body_at hpiece hcol
  obtain ⟨rest', hbody', hafter'⟩ := hafter.body change.ending hbody
  refine ⟨c, hc, hat, rest', hafter', ?_⟩
  rw [hbody']
  exact parseIgnoreCommentBody_marker hafter'.1

end Ry.Ignore
