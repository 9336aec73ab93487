import Ry.Lsp.IgnoreLines

/-! # What the quick fixes keep

An offered edit puts a comment at the end of its line, and what the line's directives dropped they
still drop.  The exception is a directive for the file: where only the line's comment is one, it
becomes prose of the new comment (`ignoreActions_exact`).
-/

namespace Ry.Ignore

/-! ## An offered edit -/

/-- The facts of an edit that is offered: one comment is put at the end of the line, and its
directive, of this kind, is for the line. -/
structure Offered (file file' : SourceFile) (line : Nat) (code : String) (kind : SuppressionKind) :
    Prop where
  change : OnlyComment file file' line
  others : ∀ c : Comment, c.line ≠ line → (c ∈ file'.comments ↔ c ∈ file.comments)
  unmoved : ∀ c ∈ file.comments, c.line ≠ line → ∀ code',
    c.Suppresses file'.source line code' ↔ c.Suppresses file.source line code'
  fresh : ∀ c ∈ file.comments, ¬ c.Suppresses file.source line code
  once : ∀ c ∈ file'.comments, c.line = line →
    parseIgnoreCommentBody c.body = some (.line kind .ry) ∧
      targetLine (sourceLines file'.source) c kind = some line
  put : ∃ c ∈ file'.comments, c.line = line
  suppresses : kind.suppresses code = true
  merges : ∀ c ∈ file.comments, c.line = line → ∀ code', c.Suppresses file.source line code' →
    kind.suppresses code' = true

namespace Offered
variable {file file' : SourceFile} {line : Nat} {code : String} {kind : SuppressionKind}

theorem drops_of_suppresses (h : Offered file file' line code kind) {code' : String}
    (hsuppresses : kind.suppresses code' = true) : file'.Drops line code' := by
  obtain ⟨c, hc, hline⟩ := h.put
  obtain ⟨hparse, htarget⟩ := h.once c hc hline
  exact Or.inr ⟨c, hc, kind, .ry, hparse, htarget, hsuppresses⟩

/-- What the line's directives dropped they still drop. -/
theorem drops_of_line (h : Offered file file' line code kind) {c : Comment}
    (hc : c ∈ file.comments) {code' : String} (hsuppresses : c.Suppresses file.source line code') :
    file'.Drops line code' := by
  by_cases hline : c.line = line
  · exact h.drops_of_suppresses (h.merges c hc hline code' hsuppresses)
  · exact Or.inr ⟨c, (h.others c hline).mpr hc, (h.unmoved c hc hline code').mpr hsuppresses⟩

/-- The directives for the file that stay are those on the other lines. -/
theorem fileDirective_iff (h : Offered file file' line code kind) :
    hasFileSuppressionFromComments file'.comments = true ↔
      ∃ c ∈ file.comments, c.line ≠ line ∧ parseIgnoreCommentBody c.body = some .file := by
  rw [hasFileSuppressionFromComments, List.any_eq_true]
  constructor
  · rintro ⟨c, hc, hfile⟩
    rw [decide_eq_true_eq] at hfile
    have hline : c.line ≠ line := by
      intro hline
      rw [(h.once c hc hline).1] at hfile
      cases hfile
    exact ⟨c, (h.others c hline).mp hc, hline, hfile⟩
  · rintro ⟨c, hc, hline, hfile⟩
    exact ⟨c, (h.others c hline).mpr hc, decide_eq_true hfile⟩

/-- The edit keeps what the file's directives drop exactly when the line's comment is not their
only one for the file. -/
theorem lineEdit_iff (h : Offered file file' line code kind) :
    LineEdit file file' line code ↔ ¬ file.FileDirectiveOn line := by
  constructor
  · rintro ⟨-, -, hkeeps⟩ ⟨hfile, hall⟩
    -- no directive of a line drops a finding about directives
    have haudit : suppressible "RY112" = false := by decide
    rcases hkeeps "RY112" (Or.inl hfile) with hfile' | ⟨c, -, kind', origin, -, -, hsuppresses⟩
    · obtain ⟨c, hc, hline, hdirective⟩ := h.fileDirective_iff.mp hfile'
      exact hline (hall c hc hdirective)
    · rw [suppresses_audit haudit kind'] at hsuppresses
      cases hsuppresses
  · intro hother
    refine ⟨h.change, h.drops_of_suppresses h.suppresses, ?_⟩
    rintro code' (hfile | ⟨c, hc, hsuppresses⟩)
    · have hline : ∃ c ∈ file.comments, c.line ≠ line ∧
          parseIgnoreCommentBody c.body = some .file := by
        by_contra hnone
        refine hother ⟨hfile, fun c hc hdirective => ?_⟩
        by_contra hline
        exact hnone ⟨c, hc, hline, hdirective⟩
      exact Or.inl (h.fileDirective_iff.mpr hline)
    · exact h.drops_of_line hc hsuppresses

end Offered

/-- What the code goes through before it offers an edit. -/
theorem makeIgnoreAction_cases {parse : List Char → Option SourceFile} {diag : LspDiagnostic}
    {file : SourceFile} {action : CodeAction} (h : makeIgnoreAction parse diag file = some action)
    {line : Nat} (hline : diag.range.start.line.toNat = line)
    {comment : Option Comment} (hcomment : trailingComment file line = comment)
    {trailing : List Suppression} (htrailing : trailingDirectives file line = trailing)
    {code : String} (hcode : diagCodeFromLsp diag = code) :
    ∃ lineText new stop file', (sourceLines file.source)[line]? = some lineText ∧
      new = newLine lineText (directive code comment trailing) comment trailing ∧
      stop = lineStart file.source line + byteLen lineText ∧
      (∀ c ∈ file.comments, ¬ c.Suppresses file.source line code) ∧ file.parseErrors = [] ∧
      parse (replaceRange file.source (lineStart file.source line) stop new) = some file' ∧
      file'.HasComment line (comment.elim (byteLen lineText + 2) Comment.col) ∧
      (∃ s ∈ parseSuppressionsFromComments file'.comments
        (replaceRange file.source (lineStart file.source line) stop new),
          s.line = line ∧ isAskedFor code s = true) ∧
      action.edit = ⟨⟨⟨diag.range.start.line, 0⟩, byteOffsetToPosition file.source stop⟩, new⟩ := by
  unfold makeIgnoreAction at h
  obtain ⟨lineText, hlineText, h⟩ := Option.bind_eq_some_iff.mp h
  rw [hline] at hlineText
  simp only [hline, hcode] at h
  split at h
  · cases h
  · rename_i hfresh
    split at h
    · cases h
    · rename_i herrors
      obtain ⟨file', hfile', h⟩ := Option.bind_eq_some_iff.mp h
      split at h
      · cases h
      · rename_i hput
        split at h
        · cases h
        · rename_i hdrops
          cases h
          obtain rfl := hcomment
          obtain rfl := htrailing
          rw [Bool.not_eq_true, Bool.not_eq_false'] at hput hdrops
          refine ⟨lineText, _, _, file', hlineText, rfl, rfl, ?_, not_not.mp herrors, hfile', ?_, ?_,
            rfl⟩
          · intro c hc hsuppresses
            exact hfresh (any_parseSuppressions.mpr ⟨c, hc, hsuppresses⟩)
          · obtain ⟨c, hc, hat⟩ := List.any_eq_true.mp hput
            rw [Bool.and_eq_true, decide_eq_true_eq, decide_eq_true_eq] at hat
            exact ⟨c, hc, hat⟩
          · obtain ⟨s, hs, hat⟩ := List.any_eq_true.mp hdrops
            rw [Bool.and_eq_true, decide_eq_true_eq] at hat
            exact ⟨s, hs, hat⟩

theorem suppressible_of_suppresses {kind : SuppressionKind} {code : String}
    (h : kind.suppresses code = true) : suppressible code = true :=
  (Bool.and_eq_true _ _ ▸ h).1

theorem isAskedFor_iff {code : String} {s : Suppression} (h : isAskedFor code s = true) :
    s.kind.suppresses code = true ∧ (code = "" → s.kind = .all) := by
  rw [isAskedFor] at h
  split at h
  · rename_i hcode
    have hall : s.kind = .all := of_decide_eq_true h
    rw [hall, hcode]
    exact ⟨rfl, fun _ => rfl⟩
  · rename_i hcode
    exact ⟨h, fun h => absurd h hcode⟩

/-- The new comment drops what the line's comment dropped. -/
theorem suppresses_merged {file : SourceFile} {line : Nat} {code : String} {rest : List Char}
    (honce : ∀ c ∈ file.comments, ∀ c' ∈ file.comments, c.line = c'.line → c = c')
    (hfresh : ∀ c ∈ file.comments, ¬ c.Suppresses file.source line code)
    (hafter : AfterMarker code (trailingDirectives file line) rest)
    (hsuppresses : (parseNativeCodes rest).suppresses code = true)
    (hall : code = "" → parseNativeCodes rest = .all) {c : Comment} (hc : c ∈ file.comments)
    (hline : c.line = line) {code' : String} (h : c.Suppresses file.source line code') :
    (parseNativeCodes rest).suppresses code' = true := by
  obtain ⟨kind, origin, hparse, htarget, hkind⟩ := h
  have hcomment : trailingComment file line = some c := by
    cases hfind : trailingComment file line with
    | none =>
      have hnone := List.find?_eq_none.mp hfind c hc
      simp [hline] at hnone
    | some c' =>
      have hline' : c'.line = line := by simpa using List.find?_some hfind
      rw [honce c hc c' (List.mem_of_find?_eq_some hfind) (hline.trans hline'.symm)]
  have htrailing : ⟨line, commentSpan c file.source, origin, kind⟩ ∈ trailingDirectives file line := by
    rw [trailingDirectives, hcomment]
    exact mem_parseSuppressions.mpr ⟨c, List.mem_singleton_self c, hparse, htarget, rfl⟩
  cases kind with
  | all =>
    refine absurd ⟨.all, origin, hparse, htarget, ?_⟩ (hfresh c hc)
    rw [SuppressionKind.suppresses, suppressible_of_suppresses hsuppresses]
    rfl
  | invalid reason | foreign =>
    rw [SuppressionKind.suppresses, Bool.and_false] at hkind
    cases hkind
  | selective codes =>
    obtain ⟨hsuppressible, hmem⟩ := suppresses_selective.mp hkind
    by_cases hcode : code = ""
    · rw [hall hcode, SuppressionKind.suppresses, hsuppressible]
      rfl
    · obtain ⟨suffix, rfl⟩ := hafter.2 hcode
      refine suppresses_joined (fun c' hc' hne => ?_) hsuppresses ?_ hsuppressible
      · rcases mem_mergedCodes.mp hc' with ⟨s, hs, hc'⟩ | heq
        · exact trailing_isRuleCode s hs c' hc'
        · exact absurd heq hne
      · exact mem_mergedCodes.mpr (Or.inl ⟨_, htrailing, hmem⟩)

/-- An edit that is offered is one of the line's end, and its directive is read as it was meant. -/
theorem makeIgnoreAction_offered {parse : List Char → Option SourceFile} (hparse : Lexes parse)
    {text : List Char} {file : SourceFile} (hfile : parse text = some file)
    (hfit : FitsCounters text) {diag : LspDiagnostic} {action : CodeAction}
    (h : makeIgnoreAction parse diag file = some action)
    {line : Nat} (hline : diag.range.start.line.toNat = line)
    {code : String} (hcode : diagCodeFromLsp diag = code) (hfeed : '\n' ∉ code.toList) :
    ∃ edited file' kind, action.edit.apply text = some edited ∧ parse edited = some file' ∧
      Offered file file' line code kind := by
  obtain rfl := hparse.source hfile
  obtain ⟨lineText, new, stop, file', hlineText, hnew, hstop, hfresh, herrors, hfile', hput, hdrops,
    hedit⟩ := makeIgnoreAction_cases h hline rfl rfl hcode
  obtain ⟨above, below, cr, hraw, rfl, hcr, hinside⟩ := sourceLines_cut hlineText
  obtain ⟨before, old, blanks, rest, rfl, hnew', hblank, hcol, hreplaced, hafter, hfree⟩ :=
    newLine_cut hraw hcr (hparse.stands hfile) hfeed rfl rfl
  rw [← hnew] at hnew'
  have hedited := replaceRange_line hraw new
  rw [← hstop] at hedited
  let change : LineChange := ⟨above, below, before, old, blanks,
    '#' :: (" ry: ignore".toList ++ rest), cr, hblank, hcr⟩
  have hlines' : rawLines file'.source = above ++ change.newLine :: below := by
    rw [hparse.source hfile', hedited, hnew']
    exact change.rawLines_newLine hraw hfree
  rw [hcol] at hput
  have hputs : change.PutsComment file file' := ⟨hraw, hlines', hreplaced.imp_right And.left, hput⟩
  have hothers := hparse.swapped hfile hfile' herrors hputs
  have hcodeLine : isCodeLine change.newLine = isCodeLine change.oldLine :=
    LineChange.isCodeLine_newLine rfl (hreplaced.imp_right And.right)
  have hunmoved : ∀ c ∈ file.comments, c.line ≠ above.length → ∀ code',
      c.Suppresses file'.source above.length code' ↔ c.Suppresses file.source above.length code' := by
    intro c hc hne code'
    obtain ⟨pre, hstands⟩ := hparse.stands hfile c hc
    exact suppresses_replaced hraw hlines' hcodeLine hstands hne _ _
  obtain ⟨c', hc', hat, rest', hafter', hdirective⟩ :=
    hputs.directive (hparse.source hfile' ▸ hparse.stands hfile') rfl hafter
  have honce : ∀ c ∈ file'.comments, c.line = above.length → c = c' := fun c hc hline =>
    hparse.once hfile' c hc c' hc' (hline.trans hat.symm)
  -- it is the comment that the check found
  obtain ⟨s, hs, hsline, hasked⟩ := hdrops
  rw [← hparse.source hfile'] at hs
  obtain ⟨hsuppresses, hall⟩ := isAskedFor_iff hasked
  obtain ⟨c, hc, hsparse, hstarget, -⟩ := mem_parseSuppressions.mp hs
  have hfound : c = c' := by
    by_contra hne
    have hcline : c.line ≠ above.length := fun hcline => hne (honce c hc hcline)
    have hcold := (hothers c hcline).mp hc
    refine hfresh c hcold ((hunmoved c hcold hcline code).mp ?_)
    exact ⟨s.kind, s.origin, hsparse, hsline ▸ hstarget, hsuppresses⟩
  subst hfound
  obtain ⟨hkind, -⟩ := ParsedDirective.line.inj (Option.some.inj (hdirective.symm.trans hsparse))
  rw [← hkind] at hsuppresses hall hstarget
  refine ⟨_, file', parseNativeCodes rest', ?_, hfile', ⟨change, hputs, rfl⟩, hothers, hunmoved,
    hfresh, ?_, ⟨c, hc, hat⟩, hsuppresses, ?_⟩
  · have happly := @apply_line file.source (before ++ old) cr new above below _ hraw hline.symm
      hinside hfit
    rw [hline, ← hstop, ← hedit] at happly
    rw [happly, hedited]
  · intro c₁ hc₁ hline₁
    obtain rfl := honce c₁ hc₁ hline₁
    exact ⟨hdirective, hsline ▸ hstarget⟩
  · intro c₁ hc₁ hline₁ code' hcode'
    exact suppresses_merged (hparse.once hfile) hfresh hafter' hsuppresses hall hc₁ hline₁ hcode'

/-! ## The top of the file -/

/-- What a text that is put in at a boundary makes of the text. -/
theorem apply_boundary {before after : List Char} (hfit : FitsCounters (before ++ after))
    (hinside : ¬ InsideCrlf before after) (new : List Char) :
    (TextEdit.mk ⟨byteOffsetToPosition (before ++ after) (byteLen before),
      byteOffsetToPosition (before ++ after) (byteLen before)⟩ new).apply (before ++ after) =
        some (before ++ new ++ after) := by
  have hback := back_of_fitsCounters hfit
  rw [if_neg hinside] at hback
  rw [TextEdit.apply, rangeByteSpan]
  simp only [hback]
  rw [if_pos (Nat.le_refl _), Option.map_some, replaceRange, prefixBytes_append, suffixBytes_append]

/-- The edit goes before the text or after its first line, which is a comment. -/
theorem makeIgnoreFileAction_cases {file : SourceFile} {action : CodeAction}
    (h : makeIgnoreFileAction file = some action) :
    ∃ above before after lead, file.source = before ++ after ∧
      before ++ lead = endedLines above ∧ above.length ≤ 1 ∧
      (∀ line ∈ above, line.head? = some '#' ∧ '\n' ∉ line) ∧ ¬ InsideCrlf before after ∧
      action.edit = ⟨⟨byteOffsetToPosition file.source (byteLen before),
        byteOffsetToPosition file.source (byteLen before)⟩, lead ++ "# ry: ignore-file\n".toList⟩ := by
  unfold makeIgnoreFileAction at h
  split at h
  · cases h
  · cases h
    cases hshebang : ['#', '!'].isPrefixOf file.source with
    | false =>
      refine ⟨[], [], file.source, [], rfl, rfl, Nat.zero_le _, by simp, not_insideCrlf_nil _, ?_⟩
      simp
    | true =>
      obtain ⟨rest, hrest⟩ := List.isPrefixOf_iff_prefix.mp hshebang
      by_cases hfeed : '\n' ∈ file.source
      · obtain ⟨hcut, hfree⟩ := cut_at hfeed
        have hhead : (file.source.takeWhile (· ≠ '\n')).head? = some '#' := by
          rw [← hrest]
          rfl
        generalize file.source.takeWhile (· ≠ '\n') = first at *
        refine ⟨[first], first ++ ['\n'], (file.source.dropWhile (· ≠ '\n')).tail, [], ?_, ?_,
          Nat.le_refl _, ?_, ?_, ?_⟩
        · rw [List.append_assoc]
          exact hcut
        · simp [endedLines]
        · intro line hline
          obtain rfl := List.mem_singleton.mp hline
          exact ⟨hhead, hfree⟩
        · rintro ⟨hlast, -⟩
          rw [List.getLast?_concat] at hlast
          cases hlast
        · have hlen : byteLen (first ++ ['\n']) = byteLen first + 1 := byteLen_append _ _
          simp [hfeed, hlen]
      · refine ⟨[file.source], file.source, [], ['\n'], (List.append_nil _).symm, by simp [endedLines],
          Nat.le_refl _, ?_, ?_, ?_⟩
        · intro line hline
          obtain rfl := List.mem_singleton.mp hline
          exact ⟨by rw [← hrest]; rfl, hfeed⟩
        · rintro ⟨-, hhead⟩
          cases hhead
        · simp [hfeed]

/-- The edit for the file makes it carry a directive for the file. -/
theorem makeIgnoreFileAction_carries {parse : List Char → Option SourceFile} (hparse : Lexes parse)
    {text : List Char} {file : SourceFile} (hfile : parse text = some file)
    (hfit : FitsCounters text) {action : CodeAction} (h : makeIgnoreFileAction file = some action) :
    ∃ edited, action.edit.apply text = some edited ∧ ∀ file', parse edited = some file' →
      hasFileSuppressionFromComments file'.comments = true := by
  obtain rfl := hparse.source hfile
  obtain ⟨above, before, after, lead, htext, hlead, hlen, habove, hinside, hedit⟩ :=
    makeIgnoreFileAction_cases h
  rw [htext] at hfit
  have happly := apply_boundary hfit hinside (lead ++ "# ry: ignore-file\n".toList)
  rw [← htext, ← hedit] at happly
  refine ⟨_, happly, fun file' hfile' => ?_⟩
  have hlines : rawLines (before ++ (lead ++ "# ry: ignore-file\n".toList) ++ after) =
      above ++ "# ry: ignore-file".toList :: rawLines after := by
    have hsplit : before ++ (lead ++ "# ry: ignore-file\n".toList) ++ after =
        endedLines above ++ ("# ry: ignore-file".toList ++ '\n' :: after) := by
      rw [← hlead]
      simp
    rw [hsplit, rawLines_endedLines fun line hline => (habove line hline).2, rawLines,
      List.splitOnP_append_cons _ _ (by simp)]
    rfl
  have hcomment : (⟨above.length, 0, " ry: ignore-file".toList⟩ : Comment) ∈ file'.comments :=
    hparse.opens hfile' hlines hlen (fun line hline => (habove line hline).1) (by decide)
  have hdirective : parseIgnoreCommentBody " ry: ignore-file".toList = some .file := by decide
  exact List.any_eq_true.mpr ⟨_, hcomment, decide_eq_true hdirective⟩

/-- An offered edit keeps what was suppressed on its line, unless the line's comment is the only
directive for the file, and an edit for the file suppresses the file. -/
theorem ignoreActions_exact {parse : List Char → Option SourceFile} (hparse : Lexes parse)
    {text : List Char} {file : SourceFile} (hfile : parse text = some file)
    (hfit : FitsCounters text) {diag : LspDiagnostic}
    (hfeed : '\n' ∉ (diagCodeFromLsp diag).toList) :
    (∀ action, makeIgnoreAction parse diag file = some action →
      ((∃ edited file', action.edit.apply text = some edited ∧ parse edited = some file' ∧
        LineEdit file file' diag.range.start.line.toNat (diagCodeFromLsp diag)) ↔
          ¬ file.FileDirectiveOn diag.range.start.line.toNat)) ∧
    ∀ action, makeIgnoreFileAction file = some action →
      ∃ edited, action.edit.apply text = some edited ∧ ∀ file', parse edited = some file' →
        hasFileSuppressionFromComments file'.comments = true := by
  refine ⟨fun action h => ?_, fun action h => makeIgnoreFileAction_carries hparse hfile hfit h⟩
  obtain ⟨edited, file', kind, happly, hfile', hoffered⟩ :=
    makeIgnoreAction_offered hparse hfile hfit h rfl rfl hfeed
  rw [← hoffered.lineEdit_iff]
  constructor
  · rintro ⟨edited₁, file₁, happly₁, hfile₁, hedit⟩
    obtain rfl := Option.some.inj (happly.symm.trans happly₁)
    obtain rfl := Option.some.inj (hfile'.symm.trans hfile₁)
    exact hedit
  · exact fun hedit => ⟨edited, file', happly, hfile', hedit⟩

/-! ## A parser of comments -/

/-- The comment of a line without strings. -/
def lineComment (n : Nat) (line : List Char) : Option Comment :=
  if '#' ∈ line then
    some ⟨n, byteLen (line.takeWhile (· ≠ '#')), (line.dropWhile (· ≠ '#')).tail⟩
  else none

/-- The files of texts whose only `#`s are those of comments. -/
def lineParser (text : List Char) : Option SourceFile :=
  some ⟨text, (rawLines text).zipIdx.filterMap fun (line, n) => lineComment n line, []⟩

theorem mem_lineParser {text : List Char} {file : SourceFile} (hfile : lineParser text = some file)
    {c : Comment} :
    c ∈ file.comments ↔ ∃ line, (rawLines text)[c.line]? = some line ∧
      lineComment c.line line = some c := by
  cases hfile
  rw [List.mem_filterMap]
  constructor
  · rintro ⟨⟨line, n⟩, hmem, hcomment⟩
    change lineComment n line = some c at hcomment
    have hn : c.line = n := by
      rw [lineComment] at hcomment
      split at hcomment
      · cases hcomment
        rfl
      · cases hcomment
    exact ⟨line, hn ▸ List.mem_zipIdx_iff_getElem?.mp hmem, hn ▸ hcomment⟩
  · rintro ⟨line, hline, hcomment⟩
    exact ⟨(line, c.line), List.mem_zipIdx_iff_getElem?.mpr hline, hcomment⟩

theorem lineComment_eq_some {n : Nat} {line : List Char} {c : Comment}
    (h : lineComment n line = some c) :
    line = line.takeWhile (· ≠ '#') ++ '#' :: c.body ∧ c.col = byteLen (line.takeWhile (· ≠ '#')) := by
  rw [lineComment] at h
  split at h
  · rename_i hmem
    cases h
    exact ⟨(cut_at hmem).1, rfl⟩
  · cases h

theorem lineParser_lexes : Lexes lineParser where
  source hfile := by
    cases hfile
    rfl
  once hfile c hc c' hc' hline := by
    obtain ⟨line, hraw, hcomment⟩ := (mem_lineParser hfile).mp hc
    obtain ⟨line', hraw', hcomment'⟩ := (mem_lineParser hfile).mp hc'
    rw [← hline] at hraw' hcomment'
    obtain rfl := Option.some.inj (hraw.symm.trans hraw')
    exact Option.some.inj (hcomment.symm.trans hcomment')
  stands hfile c hc := by
    obtain ⟨line, hraw, hcomment⟩ := (mem_lineParser hfile).mp hc
    obtain ⟨hline, hcol⟩ := lineComment_eq_some hcomment
    exact ⟨_, hcol, c.body, hline ▸ hraw, Or.inl rfl⟩
  swapped := by
    intro text text' file file' change hfile hfile' _ hputs c hc
    rw [mem_lineParser hfile, mem_lineParser hfile']
    have hlines := hputs.lines
    have hlines' := hputs.lines'
    cases hfile
    cases hfile'
    rw [hlines, hlines', getElem?_replaced hc]
  opens := by
    intro text file above body below hfile hraw _ _ _
    refine (mem_lineParser hfile).mpr ⟨'#' :: body, ?_, rfl⟩
    rw [hraw, List.getElem?_append_right (Nat.le_refl _), Nat.sub_self]
    rfl

/-- Short texts can be counted. -/
theorem fitsCounters_of_length {text : List Char} (h : text.length < 2 ^ 31) :
    FitsCounters text := by
  rintro before after rfl
  rw [List.length_append] at h
  have hwidth : ∀ cs : List Char, utf16Width cs ≤ 2 * cs.length := by
    intro cs
    induction cs with
    | nil => exact Nat.zero_le _
    | cons c cs ih =>
      have hc : utf16Width (c :: cs) ≤ 2 + utf16Width cs := by
        rw [utf16Width, List.map_cons, List.sum_cons]
        refine Nat.add_le_add_right ?_ _
        split <;> decide
      rw [List.length_cons]
      omega
  have hline : (lastLine before).length ≤ before.length := by
    rw [lastLine, List.length_reverse, ← @List.length_reverse _ before]
    exact (List.takeWhile_sublist _).length_le
  have hcolumn : (columnText before after).length ≤ before.length := by
    rw [columnText]
    split
    · rw [List.length_dropLast]
      omega
    · exact hline
  have hcount : before.count '\n' ≤ before.length := List.count_le_length
  have htext := hwidth (columnText before after)
  constructor
  · change before.count '\n' < 2 ^ 32
    omega
  · change utf16Width (columnText before after) < 2 ^ 32
    omega

/-- `x` with the finding that the fixes are offered for. -/
def finding (code : String) : LspDiagnostic := ⟨⟨⟨0, 0⟩, ⟨0, 1⟩⟩, some (.string code)⟩

theorem ignoreActions_exact_short :
    (makeIgnoreAction lineParser (finding "RY040") ⟨"x".toList, [], []⟩).isSome ∧
    (makeIgnoreFileAction ⟨"x".toList, [], []⟩).isSome ∧
    (∀ action, makeIgnoreAction lineParser (finding "RY040") ⟨"x".toList, [], []⟩ = some action →
      ((∃ edited file', action.edit.apply "x".toList = some edited ∧
        lineParser edited = some file' ∧ LineEdit ⟨"x".toList, [], []⟩ file' 0 "RY040") ↔
          ¬ SourceFile.FileDirectiveOn ⟨"x".toList, [], []⟩ 0)) ∧
    ∀ action, makeIgnoreFileAction ⟨"x".toList, [], []⟩ = some action →
      ∃ edited, action.edit.apply "x".toList = some edited ∧ ∀ file', lineParser edited = some file' →
        hasFileSuppressionFromComments file'.comments = true := by
  refine ⟨by decide, by decide, ?_⟩
  exact @ignoreActions_exact _ lineParser_lexes "x".toList ⟨"x".toList, [], []⟩ (by rfl)
    (fitsCounters_of_length (by decide)) (finding "RY040") (by decide)

/-- The edit of `x # ry: ignore-file` makes prose of the directive. -/
theorem file_directive_lost : ¬ ∀ parse : List Char → Option SourceFile, Lexes parse →
    ∀ text file, parse text = some file → FitsCounters text → ∀ diag action,
      makeIgnoreAction parse diag file = some action →
        ∃ edited file', action.edit.apply text = some edited ∧ parse edited = some file' ∧
          LineEdit file file' diag.range.start.line.toNat (diagCodeFromLsp diag) := by
  intro h
  let text := "x # ry: ignore-file".toList
  let file : SourceFile := ⟨text, [⟨0, 2, " ry: ignore-file".toList⟩], []⟩
  have hfile : lineParser text = some file := by rfl
  have hfit : FitsCounters text := fitsCounters_of_length (by decide)
  have hoffered : (makeIgnoreAction lineParser (finding "RY040") file).isSome = true := by decide
  obtain ⟨action, haction⟩ := Option.isSome_iff_exists.mp hoffered
  obtain ⟨edited, file', happly, hfile', hedit⟩ :=
    h lineParser lineParser_lexes text file hfile hfit _ action haction
  obtain ⟨edited₁, file₁, kind, happly₁, hfile₁, hfacts⟩ :=
    makeIgnoreAction_offered lineParser_lexes hfile hfit haction rfl rfl (by decide)
  obtain rfl := Option.some.inj (happly.symm.trans happly₁)
  obtain rfl := Option.some.inj (hfile'.symm.trans hfile₁)
  refine hfacts.lineEdit_iff.mp hedit ⟨by decide, ?_⟩
  intro c hc _
  rw [List.mem_singleton.mp hc]
  rfl

end Ry.Ignore
