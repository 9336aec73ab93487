import Ry.Lib.Partition
import Ry.Workspace.Decoding
import Ry.Suppress.Directives

/-! # Encoding findings

`emit_encoding_diagnostics`, over the comments and `%...%` operators that `collect_lexical` lists:
R's lexer does not look at the bytes inside them.
-/

namespace Ry

/-- A `comment` or `special` node of the parse tree. -/
structure LexNode where
  start : Nat
  line : Nat
  col : Nat
  text : List Char

namespace LexNode

def stop (n : LexNode) : Nat := n.start + byteLen n.text

/-- `self_span` -/
def span (n : LexNode) : Span := ⟨n.start, n.stop, n.line, n.col⟩

def comment (n : LexNode) : Comment := ⟨n.line, n.col, (stripPrefix "#" n.text).getD n.text⟩

def Contains (n : LexNode) (s : Span) : Prop := n.start ≤ s.start ∧ s.stop ≤ n.stop

def Apart (a b : LexNode) : Prop := a.stop ≤ b.start ∨ b.stop ≤ a.start

end LexNode

structure LexicalNodes where
  comments : List Comment
  specialOperators : List Span

def collectLexical (comments specials : List LexNode) : LexicalNodes where
  comments := (comments.map (·.comment)).mergeSort fun a b => a.line ≤ b.line
  specialOperators := (specials.map (·.span)).mergeSort fun a b => a.start ≤ b.start

def insideComment (comments : List Comment) (s : Span) : Bool :=
  (lastWhere (·.line ≤ s.line) comments).any fun c => c.line = s.line && c.col ≤ s.col

def insideSpecialOperator (operators : List Span) (s : Span) : Bool :=
  (lastWhere (·.start ≤ s.start) operators).any fun op => s.start ≥ op.start && s.stop ≤ op.stop

def toleratedByRsLexer (nodes : LexicalNodes) (s : Span) : Bool :=
  insideComment nodes.comments s || insideSpecialOperator nodes.specialOperators s

/-- An `RY000`, all of them errors. -/
structure EncodingFinding where
  span : Span
  message : String
deriving DecidableEq

def bomMessage : String :=
  "unexpected input at 1:1: file starts with a UTF-8 byte order mark (R's parser rejects it)"

def invalidMessage : String :=
  "invalid multibyte character: source file is not valid UTF-8 (R's parser rejects it)"

def emitEncodingDiagnostics (d : DecodedRSource) (nodes : LexicalNodes) : Option EncodingFinding :=
  if d.leadingBom then some ⟨⟨0, 3, 0, 0⟩, bomMessage⟩
  else (d.invalidUtf8.find? fun s => !toleratedByRsLexer nodes s).map (⟨·, invalidMessage⟩)

/-- A comment of a text runs to the end of its line. -/
structure CommentAt (text : List Char) (n : LexNode) (before after : List Char) : Prop where
  text_eq : text = before ++ (n.text ++ after)
  start_eq : n.start = byteLen before
  line_eq : n.line = (endPoint before).row
  col_eq : n.col = (endPoint before).column
  nonempty : n.text ≠ []
  no_newline : '\n' ∉ n.text
  line_end : ∀ c ∈ after.head?, c = '\n'

/-- The nodes as the parser finds them in a text. -/
structure LexicalIn (text : List Char) (comments specials : List LexNode) : Prop where
  comment_at : ∀ n ∈ comments, ∃ before after, CommentAt text n before after
  special_nonempty : ∀ n ∈ specials, n.text ≠ []
  comments_apart : comments.Pairwise LexNode.Apart
  specials_apart : specials.Pairwise LexNode.Apart

/-! ## Comments -/

section
variable {text : List Char} {comments specials : List LexNode}

theorem collectLexical_comments_sorted (comments specials : List LexNode) :
    (collectLexical comments specials).comments.Pairwise fun a b => a.line ≤ b.line := by
  have hsorted := @List.pairwise_mergeSort _ (fun a b : Comment => decide (a.line ≤ b.line))
    (fun a b c hab hbc => by simp at hab hbc ⊢; omega) (fun a b => by simp; omega)
    (comments.map (·.comment))
  exact hsorted.imp fun h => of_decide_eq_true h

theorem mem_collectLexical_comments {c : Comment} :
    c ∈ (collectLexical comments specials).comments ↔ ∃ n ∈ comments, n.comment = c := by
  rw [collectLexical, List.mem_mergeSort, List.mem_map]

/-- A row is that of the text before it exactly if nothing between ends a line. -/
theorem row_append_iff {before mid : List Char} :
    (endPoint (before ++ mid)).row = (endPoint before).row ↔ '\n' ∉ mid := by
  rw [endPoint, endPoint, List.count_append, ← List.count_eq_zero]
  dsimp only
  omega

theorem column_append {before mid : List Char} (h : '\n' ∉ mid) :
    (endPoint (before ++ mid)).column = (endPoint before).column + byteLen mid := by
  rw [endPoint_append, if_neg h]

/-- Of two comments the later one stands on a later line. -/
theorem CommentAt.row_lt {a b : LexNode} {before after before' after' : List Char}
    (ha : CommentAt text a before after) (hb : CommentAt text b before' after')
    (hle : a.stop ≤ b.start) : a.line ≠ b.line := by
  have hbytes : byteLen (before ++ a.text) ≤ byteLen before' := by
    rw [byteLen_append, ← ha.start_eq, ← hb.start_eq]
    exact hle
  have heq : (before ++ a.text) ++ after = before' ++ (b.text ++ after') := by
    rw [List.append_assoc, ← ha.text_eq, hb.text_eq]
  obtain ⟨mid, hbefore, hafter⟩ := prefix_of_byteLen_le heq hbytes
  have hnewline : '\n' ∈ mid := by
    cases mid with
    | cons c mid =>
      have hc := ha.line_end c (by rw [hafter]; rfl)
      exact hc ▸ List.mem_cons_self
    | nil =>
      obtain ⟨c, rest, hrest⟩ := List.exists_cons_of_ne_nil hb.nonempty
      have hc := ha.line_end c (by rw [hafter, hrest]; rfl)
      exact absurd (hrest ▸ hc ▸ List.mem_cons_self) hb.no_newline
  rw [ha.line_eq, hb.line_eq, hbefore, List.append_assoc]
  intro hrow
  exact row_append_iff.mp hrow.symm (List.mem_append_right _ hnewline)

/-- A comment contains the spans that begin on its line after it. -/
theorem CommentAt.contains_iff {n : LexNode} {before after pre inside : List Char} {s : Span}
    (hn : CommentAt text n before after) (hs : Stands text s pre inside) :
    n.Contains s ↔ n.line = s.line ∧ n.col ≤ s.col := by
  obtain ⟨post, hpost⟩ := hs.text_eq
  have hline : s.line = (endPoint pre).row := by rw [hs.span_eq]; rfl
  have hcol : s.col = (endPoint pre).column := by rw [hs.span_eq]; rfl
  rw [LexNode.Contains, LexNode.stop, hs.start_eq, hs.stop_eq, hn.start_eq, hn.line_eq, hn.col_eq,
    hline, hcol]
  have heq : before ++ (n.text ++ after) = pre ++ (inside ++ post) := by
    rw [← hn.text_eq, ← hpost]
  constructor
  · rintro ⟨hstart, hstop⟩
    obtain ⟨mid, rfl, hrest⟩ := prefix_of_byteLen_le heq hstart
    have hmid : '\n' ∉ mid := by
      rw [← List.append_assoc] at hrest
      obtain ⟨left, hleft, -⟩ := prefix_of_byteLen_le hrest.symm (by
        rw [byteLen_append] at hstop ⊢
        omega)
      intro hmem
      refine hn.no_newline ?_
      rw [hleft]
      exact List.mem_append_left _ (List.mem_append_left _ hmem)
    exact ⟨(row_append_iff.mpr hmid).symm, by rw [column_append hmid]; exact Nat.le_add_right _ _⟩
  · rintro ⟨hrow, hle⟩
    have hstart : byteLen before ≤ byteLen pre := by
      by_contra hlt
      obtain ⟨mid, rfl, -⟩ := prefix_of_byteLen_le heq.symm (by omega)
      rw [column_append (row_append_iff.mp hrow)] at hle
      rw [byteLen_append] at hlt
      omega
    refine ⟨hstart, ?_⟩
    obtain ⟨mid, rfl, hrest⟩ := prefix_of_byteLen_le heq hstart
    have hmid : '\n' ∉ mid := row_append_iff.mp hrow.symm
    rw [← List.append_assoc] at hrest
    rcases List.append_eq_append_iff.mp hrest with ⟨left, hleft, hafter⟩ | ⟨left, hleft, hafter⟩
    · -- the comment would end before the span does, at a line feed
      cases left with
      | nil =>
        rw [List.append_nil] at hleft
        rw [byteLen_append, ← hleft, byteLen_append]
        omega
      | cons c left =>
        have hc := hn.line_end c (by rw [hafter]; rfl)
        have hmem : '\n' ∈ mid ++ inside := by
          rw [hleft, ← hc]
          exact List.mem_append_right _ List.mem_cons_self
        rcases List.mem_append.mp hmem with hmem | hmem
        · exact absurd hmem hmid
        · exact absurd hmem hs.no_newline
    · rw [hleft, byteLen_append, byteLen_append, byteLen_append]
      omega

/-- At most one comment begins on a line. -/
theorem collectLexical_comments_lines (h : LexicalIn text comments specials) :
    (collectLexical comments specials).comments.Pairwise fun a b => a.line ≠ b.line := by
  have hnodes : comments.Pairwise fun a b => a.line ≠ b.line := by
    refine h.comments_apart.imp_of_mem ?_
    intro a b ha hb hapart
    obtain ⟨_, _, hca⟩ := h.comment_at a ha
    obtain ⟨_, _, hcb⟩ := h.comment_at b hb
    rcases hapart with hle | hle
    · exact hca.row_lt hcb hle
    · exact (hcb.row_lt hca hle).symm
  have hmap : (comments.map (·.comment)).Pairwise fun a b => a.line ≠ b.line :=
    List.pairwise_map.mpr hnodes
  exact ((List.mergeSort_perm _ _).pairwise_iff fun hne => hne.symm).mpr hmap

theorem insideComment_iff (h : LexicalIn text comments specials) {s : Span}
    {pre inside : List Char} (hs : Stands text s pre inside) :
    insideComment (collectLexical comments specials).comments s ↔ ∃ n ∈ comments, n.Contains s := by
  rw [insideComment, Option.any_eq_true]
  constructor
  · rintro ⟨c, hlast, hc⟩
    obtain ⟨n, hn, rfl⟩ := mem_collectLexical_comments.mp (mem_of_lastWhere hlast)
    obtain ⟨_, _, hat⟩ := h.comment_at n hn
    rw [Bool.and_eq_true] at hc
    exact ⟨n, hn, (hat.contains_iff hs).mpr ⟨of_decide_eq_true hc.1, of_decide_eq_true hc.2⟩⟩
  · rintro ⟨n, hn, hcontains⟩
    obtain ⟨_, _, hat⟩ := h.comment_at n hn
    obtain ⟨hline, hcol⟩ := (hat.contains_iff hs).mp hcontains
    refine ⟨n.comment, ?_, ?_⟩
    · refine lastWhere_sorted (collectLexical_comments_sorted comments specials)
        (mem_collectLexical_comments.mpr ⟨n, hn, rfl⟩) (Nat.le_of_eq hline) ?_
      intro before after hsplit a ha
      have hle := collectLexical_comments_sorted comments specials
      have hne := collectLexical_comments_lines h
      rw [hsplit] at hle hne
      have hle' := (List.pairwise_cons.mp (List.pairwise_append.mp hle).2.1).1 a ha
      have hne' := (List.pairwise_cons.mp (List.pairwise_append.mp hne).2.1).1 a ha
      have hnode : n.comment.line = n.line := rfl
      omega
    · rw [Bool.and_eq_true]
      exact ⟨decide_eq_true hline, decide_eq_true hcol⟩

/-! ## Operators -/

theorem collectLexical_specials_sorted (comments specials : List LexNode) :
    (collectLexical comments specials).specialOperators.Pairwise fun a b => a.start ≤ b.start := by
  have hsorted := @List.pairwise_mergeSort _ (fun a b : Span => decide (a.start ≤ b.start))
    (fun a b c hab hbc => by simp at hab hbc ⊢; omega) (fun a b => by simp; omega)
    (specials.map (·.span))
  exact hsorted.imp fun h => of_decide_eq_true h

theorem mem_collectLexical_specials {op : Span} :
    op ∈ (collectLexical comments specials).specialOperators ↔ ∃ n ∈ specials, n.span = op := by
  rw [collectLexical, List.mem_mergeSort, List.mem_map]

theorem collectLexical_specials_apart (h : LexicalIn text comments specials) :
    (collectLexical comments specials).specialOperators.Pairwise fun a b =>
      a.stop ≤ b.start ∨ b.stop ≤ a.start := by
  have hmap : (specials.map (·.span)).Pairwise fun a b =>
      a.stop ≤ b.start ∨ b.stop ≤ a.start := List.pairwise_map.mpr h.specials_apart
  exact ((List.mergeSort_perm _ _).pairwise_iff fun hor => hor.symm).mpr hmap

theorem insideSpecialOperator_iff (h : LexicalIn text comments specials) {s : Span}
    (hs : s.start < s.stop) :
    insideSpecialOperator (collectLexical comments specials).specialOperators s ↔
      ∃ n ∈ specials, n.Contains s := by
  rw [insideSpecialOperator, Option.any_eq_true]
  constructor
  · rintro ⟨op, hlast, hop⟩
    obtain ⟨n, hn, rfl⟩ := mem_collectLexical_specials.mp (mem_of_lastWhere hlast)
    rw [Bool.and_eq_true] at hop
    exact ⟨n, hn, of_decide_eq_true hop.1, of_decide_eq_true hop.2⟩
  · rintro ⟨n, hn, hstart, hstop⟩
    refine ⟨n.span, ?_, ?_⟩
    · refine lastWhere_sorted (collectLexical_specials_sorted comments specials)
        (mem_collectLexical_specials.mpr ⟨n, hn, rfl⟩) hstart ?_
      intro before after hsplit a ha
      have hle := collectLexical_specials_sorted comments specials
      have hapart := collectLexical_specials_apart h
      have hmem : a ∈ (collectLexical comments specials).specialOperators := by
        rw [hsplit]
        exact List.mem_append_right _ (List.mem_cons_of_mem _ ha)
      obtain ⟨m, hm, rfl⟩ := mem_collectLexical_specials.mp hmem
      rw [hsplit] at hle hapart
      have hle' := (List.pairwise_cons.mp (List.pairwise_append.mp hle).2.1).1 _ ha
      have hapart' := (List.pairwise_cons.mp (List.pairwise_append.mp hapart).2.1).1 _ ha
      have hpos := byteLen_pos (h.special_nonempty m hm)
      have hnstop : n.span.stop = n.stop := rfl
      have hnstart : n.span.start = n.start := rfl
      have hmstop : m.span.stop = m.start + byteLen m.text := rfl
      have hmstart : m.span.start = m.start := rfl
      omega
    · rw [Bool.and_eq_true]
      exact ⟨decide_eq_true hstart, decide_eq_true hstop⟩

/-! ## The findings -/

/-- A span outside every comment and every operator. -/
def Outside (comments specials : List LexNode) (s : Span) : Prop :=
  (∀ n ∈ comments, ¬ n.Contains s) ∧ ∀ n ∈ specials, ¬ n.Contains s

theorem toleratedByRsLexer_iff (h : LexicalIn text comments specials) {s : Span}
    {pre inside : List Char} (hs : Stands text s pre inside) :
    toleratedByRsLexer (collectLexical comments specials) s = false ↔
      Outside comments specials s := by
  rw [toleratedByRsLexer, Bool.or_eq_false_iff, ← Bool.not_eq_true, ← Bool.not_eq_true,
    insideComment_iff h hs, insideSpecialOperator_iff h hs.start_lt_stop, Outside]
  simp

end

/-- The file is reported as not valid UTF-8. -/
def FlaggedInvalid (d : DecodedRSource) (nodes : LexicalNodes) : Prop :=
  ∃ s, emitEncodingDiagnostics d nodes = some ⟨s, invalidMessage⟩

/-- Without a byte order mark, the finding is at the first span that is not tolerated. -/
theorem flaggedInvalid_iff_exists {d : DecodedRSource} (hbom : d.leadingBom = false)
    (nodes : LexicalNodes) :
    FlaggedInvalid d nodes ↔ ∃ s ∈ d.invalidUtf8, toleratedByRsLexer nodes s = false := by
  rw [FlaggedInvalid, emitEncodingDiagnostics, hbom]
  constructor
  · rintro ⟨s, hs⟩
    rw [if_neg (by decide), Option.map_eq_some_iff] at hs
    obtain ⟨t, ht, -⟩ := hs
    exact ⟨t, List.mem_of_find?_eq_some ht, by simpa using List.find?_some ht⟩
  · rintro ⟨s, hs, htol⟩
    have hfound : (d.invalidUtf8.find? fun s => !toleratedByRsLexer nodes s).isSome := by
      rw [List.find?_isSome]
      exact ⟨s, hs, by rw [htol]; rfl⟩
    obtain ⟨t, ht⟩ := Option.isSome_iff_exists.mp hfound
    exact ⟨t, by rw [if_neg (by decide), ht]; rfl⟩

/-- A byte order mark is reported first. -/
theorem emitEncodingDiagnostics_bom {d : DecodedRSource} (hbom : d.leadingBom = true)
    (nodes : LexicalNodes) :
    emitEncodingDiagnostics d nodes = some ⟨⟨0, 3, 0, 0⟩, bomMessage⟩ := by
  rw [emitEncodingDiagnostics, if_pos hbom]

theorem not_flaggedInvalid_of_bom {d : DecodedRSource} (hbom : d.leadingBom = true)
    (nodes : LexicalNodes) : ¬ FlaggedInvalid d nodes := by
  rintro ⟨s, hs⟩
  rw [emitEncodingDiagnostics_bom hbom] at hs
  have hmessage : bomMessage = invalidMessage :=
    congrArg EncodingFinding.message (Option.some.inj hs)
  exact absurd hmessage (by decide)

/-- A file is decoded piece by piece, and is flagged for the first span that R's lexer sees unless
it begins with a byte order mark. -/
theorem decodeRSource_flagged (bytes : List UInt8) (comments specials : List LexNode)
    (h : LexicalIn (decodeRSource bytes).text comments specials) :
    DecodesTo bytes (decodeRSource bytes) ∧
      (bomBytes.isPrefixOf bytes = false →
        (FlaggedInvalid (decodeRSource bytes) (collectLexical comments specials) ↔
          ∃ s ∈ (decodeRSource bytes).invalidUtf8, Outside comments specials s)) ∧
      (bomBytes.isPrefixOf bytes = true →
        emitEncodingDiagnostics (decodeRSource bytes) (collectLexical comments specials) =
          some ⟨⟨0, 3, 0, 0⟩, bomMessage⟩) := by
  have hdecodes := decodeRSource_decodes bytes
  refine ⟨hdecodes, ?_, ?_⟩
  · intro hbom
    rw [flaggedInvalid_iff_exists (hdecodes.bom.trans hbom)]
    refine exists_congr fun s => and_congr_right fun hs => ?_
    obtain ⟨before, inside, hstands⟩ := hdecodes.stands s hs
    exact toleratedByRsLexer_iff h hstands
  · intro hbom
    exact emitEncodingDiagnostics_bom (hdecodes.bom.trans hbom) _

theorem LexicalIn.none (text : List Char) : LexicalIn text [] [] :=
  ⟨by simp, by simp, List.Pairwise.nil, List.Pairwise.nil⟩

/-- `caf\xe9` -/
theorem decodeRSource_flagged_latin1 :
    FlaggedInvalid (decodeRSource [0x63, 0x61, 0x66, 0xE9]) (collectLexical [] []) ↔
      ∃ s ∈ (decodeRSource [0x63, 0x61, 0x66, 0xE9]).invalidUtf8, Outside [] [] s :=
  (decodeRSource_flagged [0x63, 0x61, 0x66, 0xE9] [] [] (LexicalIn.none _)).2.1 (by decide)

/-- Behind a byte order mark an invalid sequence is not what is reported. -/
theorem bom_hides_invalid :
    ¬ ∀ (bytes : List UInt8) (comments specials : List LexNode),
      LexicalIn (decodeRSource bytes).text comments specials →
        (FlaggedInvalid (decodeRSource bytes) (collectLexical comments specials) ↔
          ∃ s ∈ (decodeRSource bytes).invalidUtf8, Outside comments specials s) := by
  intro hall
  have hdecodes := decodeRSource_decodes [0xEF, 0xBB, 0xBF, 0xE9]
  have hspans : (decodeRSource [0xEF, 0xBB, 0xBF, 0xE9]).invalidUtf8 ≠ [] := by
    intro hnil
    have hback := hdecodes.back
    rw [hnil, reencode_outside (by simp)] at hback
    exact absurd (utf8Error_eq_none_iff.mpr ⟨_, hback.symm⟩) (by decide)
  obtain ⟨s, rest, hs⟩ := List.exists_cons_of_ne_nil hspans
  have hflagged := (hall [0xEF, 0xBB, 0xBF, 0xE9] [] [] (LexicalIn.none _)).mpr
    ⟨s, by rw [hs]; exact List.mem_cons_self, by simp, by simp⟩
  exact not_flaggedInvalid_of_bom (hdecodes.bom.trans (by decide)) _ hflagged

end Ry
