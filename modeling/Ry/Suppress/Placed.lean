import Ry.Lib.Lines
import Ry.Suppress.Conservative

/-! # Where directives stand

`parseSuppressionsFromComments` reads lines without their carriage returns and finds the line of a
directive by the text around the comment.  Here both are told of the pieces between line feeds, in
which another line can be put.
-/

namespace Ry

/-- A line that `nextCodeLine` stops at. -/
def isCodeLine (line : List Char) : Bool := trim line ≠ [] && (trim line).head? ≠ some '#'

theorem nextCodeLine_eq (lines : List (List Char)) (start : Nat) :
    nextCodeLine lines start = ((lines.drop (start + 1)).findIdx? isCodeLine).map (start + 1 + ·) :=
  rfl

/-- A line as it is read from a text: a carriage return before the line feed is left out. -/
def withoutCr (line : List Char) : List Char := (stripSuffix "\r" line).getD line

theorem withoutCr_cases (line : List Char) :
    line = withoutCr line ++ ['\r'] ∨ line = withoutCr line ∧ line.getLast? ≠ some '\r' := by
  rcases List.eq_nil_or_concat line with rfl | ⟨init, c, rfl⟩
  · right
    decide
  · rw [List.concat_eq_append]
    have hstrip : stripSuffix "\r" (init ++ [c]) = if c = '\r' then some init else none := by
      rw [stripSuffix, List.isSuffixOf?, List.reverse_append]
      change (if '\r' == c then some init.reverse else none).map List.reverse = _
      by_cases hc : c = '\r'
      · rw [if_pos (beq_iff_eq.mpr hc.symm), if_pos hc, Option.map_some, List.reverse_reverse]
      · rw [if_neg (fun h => hc (beq_iff_eq.mp h).symm), if_neg hc, Option.map_none]
    rw [withoutCr, hstrip]
    by_cases hc : c = '\r'
    · left
      rw [if_pos hc, Option.getD_some, hc]
    · right
      rw [if_neg hc]
      exact ⟨rfl, by simpa using hc⟩

theorem trim_concat {c : Char} (hc : isWhitespace c = true) (cs : List Char) :
    trim (cs ++ [c]) = trim cs := by
  rw [trim, trim, trimStart, trimStart, List.dropWhile_append]
  split
  · rename_i hnil
    rw [List.isEmpty_iff.mp hnil, List.dropWhile_cons_of_pos hc]
    rfl
  · exact List.rdropWhile_concat_pos _ _ _ hc

theorem trim_withoutCr (line : List Char) : trim (withoutCr line) = trim line := by
  rcases withoutCr_cases line with h | ⟨h, -⟩
  · conv_rhs => rw [h, trim_concat (by decide)]
  · rw [← h]

theorem isCodeLine_withoutCr (line : List Char) : isCodeLine (withoutCr line) = isCodeLine line := by
  rw [isCodeLine, trim_withoutCr]
  rfl

/-- The lines of a text are its pieces without carriage returns, the last one as it is. -/
theorem sourceLines_eq {src last : List Char} {init : List (List Char)}
    (h : rawLines src = init ++ [last]) :
    sourceLines src = init.map withoutCr ++ if last = [] then [] else [last] := by
  change (let pieces := rawLines src
    let last := pieces.getLast?.getD []
    pieces.dropLast.map withoutCr ++ if last = [] then [] else [last]) = _
  rw [h]
  simp

theorem exists_last (src : List Char) : ∃ init last, rawLines src = init ++ [last] := by
  rcases List.eq_nil_or_concat (rawLines src) with h | ⟨init, last, h⟩
  · exact absurd h (List.splitOnP_ne_nil _ _)
  · exact ⟨init, last, by rw [h, List.concat_eq_append]⟩

theorem nextCodeLine_sourceLines (src : List Char) (start : Nat) :
    nextCodeLine (sourceLines src) start = nextCodeLine (rawLines src) start := by
  obtain ⟨init, last, h⟩ := exists_last src
  have hlast : ∀ n, (((if last = [] then [] else [last]).drop n).findIdx? isCodeLine) =
      (([last] : List (List Char)).drop n).findIdx? isCodeLine := by
    intro n
    split
    · rename_i hnil
      rw [hnil, List.drop_nil]
      cases n with
      | zero => decide
      | succ n => rw [List.drop_succ_cons, List.drop_nil]
    · rfl
  have hinit : ∀ n, ((init.map withoutCr).drop n).findIdx? isCodeLine =
      (init.drop n).findIdx? isCodeLine := by
    intro n
    rw [← List.map_drop, List.findIdx?_map]
    congr 1
    funext line
    exact isCodeLine_withoutCr line
  rw [nextCodeLine_eq, nextCodeLine_eq, sourceLines_eq h, h, List.drop_append, List.drop_append,
    List.findIdx?_append, List.findIdx?_append, hinit, List.length_map, hlast]
  simp only [List.length_drop, List.length_map]

theorem trim_head? (cs : List Char) : (trim cs).head? = (trimStart cs).head? := by
  cases hstart : trimStart cs with
  | nil => rw [trim, hstart]; rfl
  | cons c rest =>
    have hspace := trimStart_head hstart
    cases htrim : trim cs with
    | nil =>
      have hall := trim_eq_nil_iff.mp htrim c ((List.dropWhile_suffix _).subset (by
        change c ∈ trimStart cs
        rw [hstart]
        exact List.mem_cons_self))
      rw [hspace] at hall
      cases hall
    | cons d rest' =>
      have hprefix : trim cs <+: trimStart cs := List.rdropWhile_prefix _ _
      rw [htrim, hstart] at hprefix
      rw [(List.cons_prefix_cons.mp hprefix).1]
      rfl

/-- Only the first character that is no whitespace counts. -/
theorem isCodeLine_eq (line : List Char) :
    isCodeLine line = (trimStart line).head?.any (· ≠ '#') := by
  rw [isCodeLine, ← trim_head?]
  cases trim line with
  | nil => rfl
  | cons c rest => simp

/-- A comment makes no code. -/
theorem isCodeLine_comment (pre tail : List Char) :
    isCodeLine (pre ++ '#' :: tail) = isCodeLine pre := by
  rw [isCodeLine_eq, isCodeLine_eq, trimStart, trimStart, List.dropWhile_append]
  split
  · rename_i hnil
    rw [List.isEmpty_iff.mp hnil, List.dropWhile_cons_of_neg (by decide)]
    rfl
  · rename_i hne
    obtain ⟨c, rest, hcons⟩ := List.exists_cons_of_ne_nil fun h => hne (List.isEmpty_iff.mpr h)
    rw [hcons]
    rfl

theorem isCodeLine_blanks {blanks : List Char} (h : ∀ c ∈ blanks, isWhitespace c = true)
    (line : List Char) : isCodeLine (line ++ blanks) = isCodeLine line := by
  induction blanks using List.reverseRecOn with
  | nil => rw [List.append_nil]
  | append_singleton blanks c ih =>
    rw [List.forall_mem_append, List.forall_mem_singleton] at h
    rw [← List.append_assoc, isCodeLine, trim_concat h.2]
    exact ih h.1

/-! ## Comments on their lines -/

/-- The comment ends a piece of the text, after `before`; the carriage return of a CRLF may be left
out of it. -/
def StandsAfter (lines : List (List Char)) (c : Comment) (before : List Char) : Prop :=
  c.col = byteLen before ∧ ∃ tail, lines[c.line]? = some (before ++ '#' :: tail) ∧
    (c.body = tail ∨ tail = c.body ++ ['\r'])

/-- A piece that is no empty last one is a line, without its carriage return. -/
theorem sourceLines_getElem? {src line : List Char} {n : Nat} (h : (rawLines src)[n]? = some line)
    (hne : line ≠ []) :
    (sourceLines src)[n]? = some line ∨ ∃ l, line = l ++ ['\r'] ∧ (sourceLines src)[n]? = some l := by
  obtain ⟨init, last, hraw⟩ := exists_last src
  rw [sourceLines_eq hraw]
  rw [hraw] at h
  by_cases hn : n < init.length
  · rw [List.getElem?_append_left hn] at h
    rw [List.getElem?_append_left (by rwa [List.length_map]), List.getElem?_map, h, Option.map_some]
    rcases withoutCr_cases line with hcr | ⟨hcr, -⟩
    · exact Or.inr ⟨_, hcr, rfl⟩
    · exact Or.inl (congrArg some hcr.symm)
  · rw [List.getElem?_append_right (Nat.le_of_not_lt hn)] at h
    rw [List.getElem?_append_right (by rw [List.length_map]; exact Nat.le_of_not_lt hn),
      List.length_map]
    left
    split
    · rename_i hnil
      rw [hnil, List.getElem?_singleton] at h
      split at h
      · cases h
        exact absurd rfl hne
      · cases h
    · exact h

theorem StandsAfter.isBlankPrefix {src before : List Char} {c : Comment}
    (h : StandsAfter (rawLines src) c before) :
    isWhitespaceOnlyPrefix (sourceLines src) c = decide (trim before = []) := by
  obtain ⟨hcol, tail, hline, -⟩ := h
  have hprefix : ∃ rest, (sourceLines src)[c.line]? = some (before ++ rest) := by
    rcases sourceLines_getElem? hline (by simp) with hsource | ⟨l, heq, hsource⟩
    · exact ⟨_, hsource⟩
    · rcases List.eq_nil_or_concat tail with rfl | ⟨init, last, rfl⟩
      · have hlast := congrArg List.getLast? heq
        simp at hlast
      · refine ⟨'#' :: init, hsource.trans (congrArg some ?_)⟩
        rw [List.concat_eq_append, ← List.cons_append, ← List.append_assoc] at heq
        exact (List.append_inj_left' heq rfl).symm
  obtain ⟨rest, hrest⟩ := hprefix
  rw [isWhitespaceOnlyPrefix, hrest, Option.any_some, hcol, prefixBytes_append, decide_eq_true rfl,
    Bool.true_and]

/-- A comment at a column of a line is what stands there. -/
theorem StandsAfter.body_at {lines : List (List Char)} {c : Comment} {pre before tail : List Char}
    (h : StandsAfter lines c pre) (hline : lines[c.line]? = some (before ++ '#' :: tail))
    (hcol : c.col = byteLen before) :
    pre = before ∧ (c.body = tail ∨ tail = c.body ++ ['\r']) := by
  obtain ⟨hpre, tail', hline', hbody⟩ := h
  have heq : pre ++ '#' :: tail' = before ++ '#' :: tail :=
    Option.some.inj (hline'.symm.trans hline)
  have hcut : prefixBytes (pre ++ '#' :: tail') c.col = prefixBytes (before ++ '#' :: tail) c.col :=
    congrArg (prefixBytes · c.col) heq
  rw [hpre, prefixBytes_append, ← hpre, hcol, prefixBytes_append] at hcut
  subst hcut
  obtain ⟨-, rfl⟩ := List.cons.inj (List.append_cancel_left heq)
  exact ⟨rfl, hbody⟩

/-- The line a comment's directive is for, as the pieces have it. -/
theorem StandsAfter.targetLine_eq {src before : List Char} {c : Comment}
    (h : StandsAfter (rawLines src) c before) (kind : SuppressionKind) :
    targetLine (sourceLines src) c kind =
      if trim before = [] then
        match nextCodeLine (rawLines src) c.line with
        | some line => some line
        | none =>
          match kind with
          | .invalid _ => some c.line
          | _ => none
      else some c.line := by
  have hblank : (c.col = 0 || isWhitespaceOnlyPrefix (sourceLines src) c) =
      decide (trim before = []) := by
    rw [h.isBlankPrefix]
    by_cases hcol : c.col = 0
    · have hnil : before = [] := by
        by_contra hne
        have hpos := byteLen_pos hne
        rw [← h.1] at hpos
        omega
      rw [hnil, decide_eq_true hcol]
      rfl
    · rw [decide_eq_false hcol, Bool.false_or]
  unfold targetLine
  rw [hblank, nextCodeLine_sourceLines]
  by_cases hbefore : trim before = []
  · exact (if_pos (decide_eq_true hbefore)).trans (if_pos hbefore).symm
  · rw [decide_eq_false hbefore, if_neg Bool.false_ne_true, if_neg hbefore]

/-! ## Directives of a line -/

/-- The comment's directive suppresses the code on the line. -/
def Comment.Suppresses (src : List Char) (line : Nat) (code : String) (c : Comment) : Prop :=
  ∃ kind origin, parseIgnoreCommentBody c.body = some (.line kind origin) ∧
    targetLine (sourceLines src) c kind = some line ∧ kind.suppresses code = true

theorem mem_parseSuppressions {comments : List Comment} {src : List Char} {s : Suppression} :
    s ∈ parseSuppressionsFromComments comments src ↔
      ∃ c ∈ comments, parseIgnoreCommentBody c.body = some (.line s.kind s.origin) ∧
        targetLine (sourceLines src) c s.kind = some s.line ∧ s.span = commentSpan c src := by
  rw [parseSuppressionsFromComments, List.mem_filterMap]
  refine exists_congr fun c => and_congr_right fun _ => ?_
  constructor
  · intro h
    split at h
    · rename_i kind origin hparse
      obtain ⟨line, htarget, rfl⟩ := Option.map_eq_some_iff.mp h
      exact ⟨hparse, htarget, rfl⟩
    · cases h
  · rintro ⟨hparse, htarget, hspan⟩
    simp only [hparse, htarget, Option.map_some, ← hspan]

theorem any_parseSuppressions {comments : List Comment} {src : List Char} {line : Nat}
    {code : String} :
    (parseSuppressionsFromComments comments src).any (fun s => s.line = line && s.suppresses code) ↔
      ∃ c ∈ comments, c.Suppresses src line code := by
  rw [List.any_eq_true]
  constructor
  · rintro ⟨s, hs, hsuppresses⟩
    obtain ⟨c, hc, hparse, htarget, -⟩ := mem_parseSuppressions.mp hs
    rw [Bool.and_eq_true, decide_eq_true_eq] at hsuppresses
    exact ⟨c, hc, s.kind, s.origin, hparse, hsuppresses.1 ▸ htarget, hsuppresses.2⟩
  · rintro ⟨c, hc, kind, origin, hparse, htarget, hsuppresses⟩
    refine ⟨⟨line, commentSpan c src, origin, kind⟩, ?_, ?_⟩
    · exact mem_parseSuppressions.mpr ⟨c, hc, hparse, htarget, rfl⟩
    · rw [Bool.and_eq_true]
      exact ⟨decide_eq_true rfl, hsuppresses⟩

/-! ## One line replaced -/

section
variable {above below : List (List Char)} {old new : List Char}

theorem getElem?_replaced {n : Nat} (hn : n ≠ above.length) :
    (above ++ new :: below)[n]? = (above ++ old :: below)[n]? := by
  rw [List.getElem?_append, List.getElem?_append]
  split
  · rfl
  · obtain ⟨k, hk⟩ : ∃ k, n - above.length = k + 1 := ⟨n - above.length - 1, by omega⟩
    rw [hk, List.getElem?_cons_succ, List.getElem?_cons_succ]

theorem nextCodeLine_replaced (hcode : isCodeLine new = isCodeLine old) (start : Nat) :
    nextCodeLine (above ++ new :: below) start = nextCodeLine (above ++ old :: below) start := by
  have hlines : ∀ n, ((above ++ new :: below).drop n).findIdx? isCodeLine =
      ((above ++ old :: below).drop n).findIdx? isCodeLine := by
    intro n
    rw [List.drop_append, List.drop_append, List.findIdx?_append, List.findIdx?_append]
    congr 2
    cases n - above.length with
    | zero => rw [List.drop_zero, List.drop_zero, List.findIdx?_cons, List.findIdx?_cons, hcode]
    | succ k => rfl
  rw [nextCodeLine_eq, nextCodeLine_eq, hlines]

theorem StandsAfter.replaced {c : Comment} {before : List Char}
    (h : StandsAfter (above ++ old :: below) c before) (hc : c.line ≠ above.length) :
    StandsAfter (above ++ new :: below) c before := by
  obtain ⟨hcol, tail, hline, hbody⟩ := h
  exact ⟨hcol, tail, (getElem?_replaced hc).trans hline, hbody⟩

/-- A directive on another line is for the same line as before. -/
theorem suppresses_replaced {src src' : List Char} (hsrc : rawLines src = above ++ old :: below)
    (hsrc' : rawLines src' = above ++ new :: below) (hcode : isCodeLine new = isCodeLine old)
    {c : Comment} {before : List Char} (h : StandsAfter (rawLines src) c before)
    (hc : c.line ≠ above.length) (line : Nat) (code : String) :
    c.Suppresses src' line code ↔ c.Suppresses src line code := by
  have h' : StandsAfter (rawLines src') c before := hsrc' ▸ (hsrc ▸ h).replaced hc
  refine exists_congr fun kind => exists_congr fun origin => and_congr_right fun _ => ?_
  rw [h.targetLine_eq, h'.targetLine_eq, hsrc, hsrc', nextCodeLine_replaced hcode]

end

end Ry
