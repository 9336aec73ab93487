import Ry.Lib.Validate
import Ry.Lib.Lines
import Ry.Lsp.Positions
import Ry.Core.Ast

/-! # Decoding source files

`decode_r_source`: a file as UTF-8, and each byte of an invalid sequence as the Latin-1 character
of its value.  A file is read as pieces, each some characters and then an invalid sequence, and
what follows the last one.
-/

namespace Ry

structure DecodedRSource where
  text : List Char
  invalidUtf8 : List Span
  leadingBom : Bool
deriving DecidableEq

/-- `char::from` -/
def latin1 (b : UInt8) : Char := Char.ofNat b.toNat

/-- `String::from_utf8_lossy`, of valid bytes only. -/
def fromUtf8Lossy (bytes : List UInt8) : List Char := (fromUtf8 bytes).getD []

/-- The index of the last line feed. -/
def lastNewline (bytes : List UInt8) : Option Nat :=
  (bytes.reverse.findIdx? (· = lineFeed)).map (bytes.length - 1 - ·)

/-- The line feeds so far, and where the current line starts in the decoded text. -/
structure LineAt where
  line : Nat
  lineStart : Nat

def LineAt.past (pos : LineAt) (textLen : Nat) (valid : List UInt8) : LineAt :=
  match lastNewline valid with
  | some last => ⟨pos.line + valid.count lineFeed, textLen + last + 1⟩
  | none => pos

def badLen (e : Utf8Error) (rest : List UInt8) : Nat :=
  e.errorLen.getD (rest.length - e.validUpTo)

theorem badLen_consumes {rest : List UInt8} {e : Utf8Error} (h : utf8Error rest = some e) :
    (rest.drop (e.validUpTo + badLen e rest)).length < rest.length := by
  obtain ⟨cs, bad, after, rfl, hup, hmax, hlen⟩ := utf8Error_eq_some h
  have hbad := List.length_pos_of_ne_nil hmax.nonempty
  rw [badLen, hlen, List.length_drop, List.length_append, List.length_append]
  omega

/-- The loop over the invalid sequences. -/
def decodeLoop (text : List Char) (found : List Span) (pos : LineAt) (rest : List UInt8) :
    List Char × List Span :=
  match h : utf8Error rest with
  | none => (text ++ fromUtf8Lossy rest, found)
  | some e =>
    let valid := rest.take e.validUpTo
    let pos' := pos.past (byteLen text) valid
    let before := text ++ fromUtf8Lossy valid
    let after := before ++ ((rest.drop e.validUpTo).take (badLen e rest)).map latin1
    let span := ⟨byteLen before, byteLen after, pos'.line, byteLen before - pos'.lineStart⟩
    decodeLoop after (found ++ [span]) pos' (rest.drop (e.validUpTo + badLen e rest))
termination_by rest.length
decreasing_by exact badLen_consumes h

def bomBytes : List UInt8 := [0xEF, 0xBB, 0xBF]

def decodeRSource (bytes : List UInt8) : DecodedRSource :=
  let leadingBom := bomBytes.isPrefixOf bytes
  match utf8Error bytes with
  | none => ⟨fromUtf8Lossy bytes, [], leadingBom⟩
  | some _ =>
    let (text, invalidUtf8) := decodeLoop [] [] ⟨0, 0⟩ bytes
    ⟨text, invalidUtf8, leadingBom⟩

/-! ## What is decoded -/

/-- Characters and the invalid sequence after them. -/
structure Piece where
  valid : List Char
  bad : List UInt8

def Piece.bytes (p : Piece) : List UInt8 := utf8 p.valid ++ p.bad

def Piece.text (p : Piece) : List Char := p.valid ++ p.bad.map latin1

def sourceBytes (pieces : List Piece) (last : List Char) : List UInt8 :=
  pieces.flatMap Piece.bytes ++ utf8 last

def decodedText (pieces : List Piece) (last : List Char) : List Char :=
  pieces.flatMap Piece.text ++ last

/-- Every invalid sequence is one as maximal as it can be where it stands. -/
def AllMaximal : List Piece → List Char → Prop
  | [], _ => True
  | p :: pieces, last => MaximalInvalid p.bad (sourceBytes pieces last) ∧ AllMaximal pieces last

/-- The characters `inside`, after `before`. -/
def spanAt (before inside : List Char) : Span :=
  ⟨byteLen before, byteLen (before ++ inside), (endPoint before).row, (endPoint before).column⟩

@[simp] theorem spanAt_start (before inside : List Char) :
    (spanAt before inside).start = byteLen before := rfl

@[simp] theorem spanAt_stop (before inside : List Char) :
    (spanAt before inside).stop = byteLen before + byteLen inside := byteLen_append before inside

/-- The spans of the replaced characters. -/
def badSpans (before : List Char) : List Piece → List Span
  | [] => []
  | p :: pieces =>
    spanAt (before ++ p.valid) (p.bad.map latin1) :: badSpans (before ++ p.text) pieces

/-- Characters inside the spans as Latin-1, and the others as UTF-8. -/
def reencode (spans : List Span) (offset : Nat) : List Char → List UInt8
  | [] => []
  | c :: cs =>
    (if spans.any fun s => s.start ≤ offset && offset < s.stop then [UInt8.ofNat c.toNat]
      else String.utf8EncodeChar c) ++ reencode spans (offset + c.utf8Size) cs

theorem fromUtf8Lossy_utf8 (cs : List Char) : fromUtf8Lossy (utf8 cs) = cs := by
  rw [fromUtf8Lossy, fromUtf8_utf8, Option.getD_some]

/-! ### Line feeds -/

theorem lineFeed_mem_encode {c : Char} : lineFeed ∈ String.utf8EncodeChar c ↔ c = '\n' := by
  constructor
  · intro h
    by_cases hc : c.val.toNat ≤ 127
    · unfold String.utf8EncodeChar at h
      dsimp only at h
      rw [if_pos hc, List.mem_singleton] at h
      have hnat := congrArg UInt8.toNat h
      rw [toNat_ofNat_of_lt (by omega)] at hnat
      exact Char.ext (UInt32.toNat_inj.mp hnat.symm)
    · exact absurd (highBit_of_mem_utf8EncodeChar hc h) (by decide)
  · rintro rfl
    decide

theorem lineFeed_mem_utf8 {cs : List Char} : lineFeed ∈ utf8 cs ↔ '\n' ∈ cs := by
  constructor
  · intro h
    obtain ⟨c, hc, hmem⟩ := List.mem_flatMap.mp h
    exact lineFeed_mem_encode.mp hmem ▸ hc
  · intro h
    exact List.mem_flatMap.mpr ⟨_, h, lineFeed_mem_encode.mpr rfl⟩

theorem count_lineFeed (cs : List Char) : (utf8 cs).count lineFeed = cs.count '\n' := by
  induction cs with
  | nil => rfl
  | cons c cs ih =>
    rw [utf8_cons, List.count_append, ih]
    by_cases hc : c = '\n'
    · rw [hc, List.count_cons_self, Nat.add_comm]
      rfl
    · rw [List.count_cons_of_ne hc, List.count_eq_zero.mpr fun h => hc (lineFeed_mem_encode.mp h),
        Nat.zero_add]

theorem lastNewline_append {xs ys : List UInt8} (h : lineFeed ∉ ys) :
    lastNewline (xs ++ lineFeed :: ys) = some xs.length := by
  have hfind : (xs ++ lineFeed :: ys).reverse.findIdx? (· = lineFeed) = some ys.length := by
    rw [List.findIdx?_eq_some_iff_getElem]
    simp only [List.reverse_append, List.reverse_cons, List.append_assoc]
    refine ⟨by simp, ?_, ?_⟩
    · rw [List.getElem_append_right (by simp)]
      simp
    · intro j hj
      have hin : j < ys.reverse.length := by simpa using hj
      have hne : ys.reverse[j] ≠ lineFeed := by
        intro heq
        exact h (heq ▸ List.mem_reverse.mp (List.getElem_mem hin))
      rw [List.getElem_append_left hin]
      simpa using hne
  rw [lastNewline, hfind, Option.map_some, List.length_append, List.length_cons]
  congr 1
  omega

theorem lastNewline_none {bytes : List UInt8} (h : lineFeed ∉ bytes) : lastNewline bytes = none := by
  rw [lastNewline, Option.map_eq_none_iff, List.findIdx?_eq_none_iff]
  intro b hb
  rw [decide_eq_false_iff_not]
  rintro rfl
  exact h (List.mem_reverse.mp hb)

/-- The tracked position is that of the end of the decoded text. -/
def LineAt.EndOf (pos : LineAt) (text : List Char) : Prop :=
  pos.line = (endPoint text).row ∧ pos.lineStart + (endPoint text).column = byteLen text

theorem lastLine_split {cs : List Char} (h : '\n' ∈ cs) :
    ∃ pre, cs = pre ++ '\n' :: lastLine cs ∧ '\n' ∉ lastLine cs := by
  obtain ⟨xs, ys, hsplit, hxs⟩ := List.eq_append_cons_of_mem (List.mem_reverse.mpr h)
  have hcs : cs = ys.reverse ++ ['\n'] ++ xs.reverse := by
    rw [← List.reverse_reverse cs, hsplit]
    simp
  have hnone : '\n' ∉ xs.reverse := fun hmem => hxs (List.mem_reverse.mp hmem)
  have hline : lastLine cs = xs.reverse := by
    rw [hcs, lastLine_append, if_neg hnone, lastLine_append, if_pos (List.mem_singleton.mpr rfl)]
    rfl
  refine ⟨ys.reverse, ?_, hline ▸ hnone⟩
  rw [hline]
  simpa using hcs

theorem LineAt.EndOf.past {pos : LineAt} {text : List Char} (h : pos.EndOf text) (cs : List Char) :
    (pos.past (byteLen text) (utf8 cs)).EndOf (text ++ cs) := by
  rw [LineAt.EndOf, endPoint_append]
  by_cases hmem : '\n' ∈ cs
  · obtain ⟨pre, hsplit, hnone⟩ := lastLine_split hmem
    have hbytes : utf8 cs = utf8 pre ++ lineFeed :: utf8 (lastLine cs) := by
      rw [hsplit, utf8_append]
      congr 1
      rw [← hsplit]
      rfl
    have hlen : byteLen cs = byteLen pre + (1 + byteLen (lastLine cs)) := by
      rw [hsplit, byteLen_append, byteLen_cons, ← hsplit]
      rfl
    have hlast : lastNewline (utf8 cs) = some (byteLen pre) := by
      rw [hbytes, lastNewline_append fun hin => hnone (lineFeed_mem_utf8.mp hin), length_utf8]
    rw [if_pos hmem, LineAt.past, hlast, byteLen_append, hlen, count_lineFeed]
    refine ⟨by rw [h.1], ?_⟩
    dsimp only
    omega
  · rw [if_neg hmem, LineAt.past, lastNewline_none fun hin => hmem (lineFeed_mem_utf8.mp hin)]
    refine ⟨h.1, ?_⟩
    rw [byteLen_append, ← h.2]
    exact (Nat.add_assoc _ _ _).symm

/-! ### Latin-1 -/

theorem latin1_val (b : UInt8) : (latin1 b).toNat = b.toNat := by
  have hlt := b.toNat_lt
  have hvalid : b.toNat.isValidChar := .inl (by omega)
  rw [latin1, Char.toNat_ofNat, if_pos hvalid]

theorem latin1_byte (b : UInt8) : UInt8.ofNat (latin1 b).toNat = b := by
  rw [latin1_val, UInt8.ofNat_toNat]

/-- The bytes of an invalid sequence end no line. -/
theorem no_newline_of_maximal {bad rest : List UInt8} (h : MaximalInvalid bad rest) :
    '\n' ∉ bad.map latin1 := by
  intro hmem
  obtain ⟨b, hb, heq⟩ := List.mem_map.mp hmem
  have hhigh := h.highBit hb
  rw [← latin1_val, heq] at hhigh
  exact absurd hhigh (by decide)

theorem LineAt.EndOf.append {pos : LineAt} {text : List Char} (h : pos.EndOf text)
    {cs : List Char} (hcs : '\n' ∉ cs) : pos.EndOf (text ++ cs) := by
  rw [LineAt.EndOf, endPoint_append, if_neg hcs, byteLen_append, ← h.2]
  exact ⟨h.1, (Nat.add_assoc _ _ _).symm⟩

/-! ### The loop -/

theorem decodeLoop_none {rest : List UInt8} (h : utf8Error rest = none) (text : List Char)
    (found : List Span) (pos : LineAt) :
    decodeLoop text found pos rest = (text ++ fromUtf8Lossy rest, found) := by
  rw [decodeLoop]
  split
  · rfl
  · rename_i e he
    exact absurd (he.symm.trans h) (by simp)

/-- One turn of the loop. -/
theorem decodeLoop_step {cs : List Char} {bad rest : List UInt8} {e : Utf8Error}
    (h : utf8Error (utf8 cs ++ (bad ++ rest)) = some e) (hup : e.validUpTo = byteLen cs)
    (hmax : MaximalInvalid bad rest) (hlen : badLen e (utf8 cs ++ (bad ++ rest)) = bad.length)
    {text : List Char} (found : List Span) {pos : LineAt} (hpos : pos.EndOf text) :
    ∃ pos', decodeLoop text found pos (utf8 cs ++ (bad ++ rest)) =
        decodeLoop (text ++ (cs ++ bad.map latin1))
          (found ++ [spanAt (text ++ cs) (bad.map latin1)]) pos' rest ∧
      pos'.EndOf (text ++ (cs ++ bad.map latin1)) := by
  have htake : (utf8 cs ++ (bad ++ rest)).take e.validUpTo = utf8 cs := by
    rw [hup, ← length_utf8, List.take_left]
  have hdrop : (utf8 cs ++ (bad ++ rest)).drop e.validUpTo = bad ++ rest := by
    rw [hup, ← length_utf8, List.drop_left]
  have hrest : (utf8 cs ++ (bad ++ rest)).drop (e.validUpTo + bad.length) = rest := by
    rw [← List.drop_drop, hdrop, List.drop_left]
  have hend := hpos.past cs
  have hcol : byteLen (text ++ cs) - (pos.past (byteLen text) (utf8 cs)).lineStart =
      (endPoint (text ++ cs)).column := by
    rw [← hend.2, Nat.add_sub_cancel_left]
  refine ⟨pos.past (byteLen text) (utf8 cs), ?_, ?_⟩
  · rw [decodeLoop]
    split
    · rename_i hnone
      exact absurd (h.symm.trans hnone) (by simp)
    · rename_i e' he'
      obtain rfl : e = e' := Option.some.inj (h.symm.trans he')
      dsimp only
      rw [htake, hdrop, hlen, hrest, fromUtf8Lossy_utf8, List.take_left, hcol, hend.1, spanAt,
        List.append_assoc]
  · rw [← List.append_assoc]
    exact hend.append (no_newline_of_maximal hmax)

theorem decodeLoop_pieces (n : Nat) : ∀ (text : List Char) (found : List Span) (pos : LineAt)
    (bytes : List UInt8), bytes.length ≤ n → pos.EndOf text →
    ∃ pieces last, bytes = sourceBytes pieces last ∧ AllMaximal pieces last ∧
      decodeLoop text found pos bytes =
        (text ++ decodedText pieces last, found ++ badSpans text pieces) := by
  induction n with
  | zero =>
    intro text found pos bytes hlen _
    obtain rfl := List.length_eq_zero_iff.mp (Nat.le_zero.mp hlen)
    have hlossy : fromUtf8Lossy [] = [] := fromUtf8Lossy_utf8 []
    refine ⟨[], [], rfl, trivial, ?_⟩
    rw [@decodeLoop_none [] rfl, hlossy, badSpans, List.append_nil found]
    rfl
  | succ n ih =>
    intro text found pos bytes hlen hpos
    cases herr : utf8Error bytes with
    | none =>
      obtain ⟨cs, rfl⟩ := utf8Error_eq_none_iff.mp herr
      refine ⟨[], cs, rfl, trivial, ?_⟩
      rw [decodeLoop_none herr, fromUtf8Lossy_utf8, badSpans, List.append_nil]
      rfl
    | some e =>
      obtain ⟨cs, bad, rest, rfl, hup, hmax, hbad⟩ := utf8Error_eq_some herr
      obtain ⟨pos', hstep, hpos'⟩ := decodeLoop_step herr hup hmax hbad found hpos
      have hshort : rest.length ≤ n := by
        have hone := List.length_pos_of_ne_nil hmax.nonempty
        rw [List.length_append, List.length_append] at hlen
        omega
      obtain ⟨pieces, last, rfl, hall, hloop⟩ := ih _
        (found ++ [spanAt (text ++ cs) (bad.map latin1)]) pos' rest hshort hpos'
      refine ⟨⟨cs, bad⟩ :: pieces, last, ?_, ⟨hmax, hall⟩, ?_⟩
      · simp [sourceBytes, Piece.bytes]
      · rw [hstep, hloop]
        simp [decodedText, Piece.text, badSpans]

/-! ### The spans -/

/-- Where the replaced characters `inside` stand in the decoded text. -/
structure Stands (text : List Char) (s : Span) (before inside : List Char) : Prop where
  text_eq : ∃ after, text = before ++ (inside ++ after)
  span_eq : s = spanAt before inside
  nonempty : inside ≠ []
  no_newline : '\n' ∉ inside

theorem Stands.start_eq {text before inside : List Char} {s : Span}
    (h : Stands text s before inside) : s.start = byteLen before := by
  rw [h.span_eq]
  rfl

theorem Stands.stop_eq {text before inside : List Char} {s : Span}
    (h : Stands text s before inside) : s.stop = byteLen before + byteLen inside := by
  rw [h.span_eq, spanAt_stop]

theorem Stands.start_lt_stop {text before inside : List Char} {s : Span}
    (h : Stands text s before inside) : s.start < s.stop := by
  rw [h.start_eq, h.stop_eq]
  exact Nat.lt_add_of_pos_right (byteLen_pos h.nonempty)

theorem stands_of_mem {before last : List Char} {pieces : List Piece}
    (hall : AllMaximal pieces last) {s : Span} (hs : s ∈ badSpans before pieces) :
    ∃ pre inside, Stands (before ++ decodedText pieces last) s pre inside := by
  induction pieces generalizing before with
  | nil => exact absurd hs (by simp [badSpans])
  | cons p pieces ih =>
    have htext : before ++ decodedText (p :: pieces) last =
        (before ++ p.valid) ++ (p.bad.map latin1 ++ decodedText pieces last) := by
      simp [decodedText, Piece.text]
    rcases List.mem_cons.mp hs with rfl | hs
    · refine ⟨before ++ p.valid, p.bad.map latin1, ⟨_, htext⟩, rfl, ?_, ?_⟩
      · rw [Ne, List.map_eq_nil_iff]
        exact hall.1.nonempty
      · exact no_newline_of_maximal hall.1
    · obtain ⟨pre, inside, hstands⟩ := ih hall.2 hs
      refine ⟨pre, inside, ?_⟩
      rw [htext, ← List.append_assoc]
      rwa [Piece.text, ← List.append_assoc] at hstands

theorem le_start_of_mem {before : List Char} {pieces : List Piece} {s : Span}
    (hs : s ∈ badSpans before pieces) : byteLen before ≤ s.start := by
  induction pieces generalizing before with
  | nil => exact absurd hs (by simp [badSpans])
  | cons p pieces ih =>
    rcases List.mem_cons.mp hs with rfl | hs
    · rw [spanAt_start, byteLen_append]
      exact Nat.le_add_right _ _
    · refine Nat.le_trans ?_ (ih hs)
      rw [byteLen_append]
      exact Nat.le_add_right _ _

/-- They come in order and do not overlap. -/
theorem badSpans_pairwise (before : List Char) (pieces : List Piece) :
    (badSpans before pieces).Pairwise fun a b => a.stop ≤ b.start := by
  induction pieces generalizing before with
  | nil => exact List.Pairwise.nil
  | cons p pieces ih =>
    refine List.pairwise_cons.mpr ⟨?_, ih _⟩
    intro s hs
    have hle := le_start_of_mem hs
    rwa [Piece.text, ← List.append_assoc] at hle

/-! ### Encoding back -/

theorem reencode_append (spans : List Span) (offset : Nat) (cs ds : List Char) :
    reencode spans offset (cs ++ ds) =
      reencode spans offset cs ++ reencode spans (offset + byteLen cs) ds := by
  induction cs generalizing offset with
  | nil => rfl
  | cons c cs ih => rw [List.cons_append, reencode, ih, reencode, List.append_assoc, byteLen_cons,
      Nat.add_assoc]

/-- Outside the spans. -/
theorem reencode_outside {spans : List Span} {offset : Nat} {cs : List Char}
    (h : ∀ s ∈ spans, s.stop ≤ offset ∨ offset + byteLen cs ≤ s.start) :
    reencode spans offset cs = utf8 cs := by
  induction cs generalizing offset with
  | nil => rfl
  | cons c cs ih =>
    have hpos := c.utf8Size_pos
    have hout : (spans.any fun s => s.start ≤ offset && offset < s.stop) = false := by
      rw [List.any_eq_false]
      intro s hs
      have hcase := h s hs
      rw [byteLen_cons] at hcase
      simp only [Bool.and_eq_true, decide_eq_true_eq, not_and, Nat.not_lt]
      omega
    rw [reencode, hout, utf8_cons, ih]
    · rfl
    · intro s hs
      have hcase := h s hs
      rw [byteLen_cons] at hcase
      omega

/-- Inside one of them. -/
theorem reencode_inside {spans : List Span} {s : Span} (hs : s ∈ spans) {offset : Nat}
    {bad : List UInt8} (hstart : s.start ≤ offset)
    (hstop : offset + byteLen (bad.map latin1) ≤ s.stop) :
    reencode spans offset (bad.map latin1) = bad := by
  induction bad generalizing offset with
  | nil => rfl
  | cons b bad ih =>
    have hpos := (latin1 b).utf8Size_pos
    rw [List.map_cons, byteLen_cons] at hstop
    have hin : (spans.any fun s => s.start ≤ offset && offset < s.stop) = true := by
      refine List.any_eq_true.mpr ⟨s, hs, ?_⟩
      simp only [Bool.and_eq_true, decide_eq_true_eq]
      omega
    rw [List.map_cons, reencode, if_pos hin, latin1_byte, ih (by omega) (by omega)]
    rfl

theorem reencode_pieces {earlier : List Span} {before last : List Char} {pieces : List Piece}
    (h : ∀ s ∈ earlier, s.stop ≤ byteLen before) :
    reencode (earlier ++ badSpans before pieces) (byteLen before) (decodedText pieces last) =
      sourceBytes pieces last := by
  induction pieces generalizing earlier before with
  | nil =>
    have htext : decodedText [] last = last := rfl
    rw [htext, badSpans, List.append_nil, reencode_outside fun s hs => .inl (h s hs)]
    rfl
  | cons p pieces ih =>
    have htext : decodedText (p :: pieces) last =
        p.valid ++ (p.bad.map latin1 ++ decodedText pieces last) := by
      simp [decodedText, Piece.text]
    have hbytes : sourceBytes (p :: pieces) last = utf8 p.valid ++ (p.bad ++ sourceBytes pieces last) := by
      simp [sourceBytes, Piece.bytes]
    have hafter : before ++ p.text = (before ++ p.valid) ++ p.bad.map latin1 := by
      rw [Piece.text, List.append_assoc]
    have hspans : earlier ++ badSpans before (p :: pieces) =
        (earlier ++ [spanAt (before ++ p.valid) (p.bad.map latin1)]) ++
          badSpans (before ++ p.text) pieces := by
      rw [badSpans, List.append_assoc]
      rfl
    rw [htext, hbytes, reencode_append, reencode_append]
    congr 1
    · -- the valid characters, between the earlier spans and this one
      refine reencode_outside ?_
      intro s hs
      rcases List.mem_append.mp hs with hs | hs
      · exact .inl (h s hs)
      · refine .inr ?_
        rw [badSpans] at hs
        rcases List.mem_cons.mp hs with rfl | hs
        · rw [spanAt_start, byteLen_append]
        · have hle := le_start_of_mem hs
          rw [hafter, byteLen_append, byteLen_append] at hle
          omega
    · congr 1
      · refine reencode_inside (s := spanAt (before ++ p.valid) (p.bad.map latin1)) ?_ ?_ ?_
        · rw [badSpans]
          exact List.mem_append_right _ List.mem_cons_self
        · rw [spanAt_start, byteLen_append]
        · rw [spanAt_stop, byteLen_append]
      · have hoffset : byteLen before + byteLen p.valid + byteLen (p.bad.map latin1) =
            byteLen (before ++ p.text) := by
          rw [hafter, byteLen_append, byteLen_append]
        rw [hoffset, hspans]
        refine ih ?_
        intro s hs
        rw [hafter, byteLen_append, byteLen_append]
        rcases List.mem_append.mp hs with hs | hs
        · have hle := h s hs
          omega
        · obtain rfl := List.mem_singleton.mp hs
          rw [spanAt_stop, byteLen_append]

/-! ### The file -/

/-- What a decoded file is of its bytes. -/
structure DecodesTo (bytes : List UInt8) (d : DecodedRSource) : Prop where
  valid : ∀ cs, bytes = utf8 cs → d.text = cs ∧ d.invalidUtf8 = []
  pieces : ∃ pieces last, bytes = sourceBytes pieces last ∧ AllMaximal pieces last ∧
    d.text = decodedText pieces last ∧ d.invalidUtf8 = badSpans [] pieces
  stands : ∀ s ∈ d.invalidUtf8, ∃ before inside, Stands d.text s before inside
  ordered : d.invalidUtf8.Pairwise fun a b => a.stop ≤ b.start
  back : reencode d.invalidUtf8 0 d.text = bytes
  bom : d.leadingBom = bomBytes.isPrefixOf bytes

theorem decodeRSource_pieces (bytes : List UInt8) :
    ∃ pieces last, bytes = sourceBytes pieces last ∧ AllMaximal pieces last ∧
      (decodeRSource bytes).text = decodedText pieces last ∧
      (decodeRSource bytes).invalidUtf8 = badSpans [] pieces := by
  unfold decodeRSource
  cases herr : utf8Error bytes with
  | none =>
    obtain ⟨cs, rfl⟩ := utf8Error_eq_none_iff.mp herr
    exact ⟨[], cs, rfl, trivial, fromUtf8Lossy_utf8 cs, rfl⟩
  | some e =>
    obtain ⟨pieces, last, hbytes, hall, hloop⟩ :=
      decodeLoop_pieces bytes.length [] [] ⟨0, 0⟩ bytes (Nat.le_refl _) ⟨rfl, rfl⟩
    refine ⟨pieces, last, hbytes, hall, ?_, ?_⟩ <;> dsimp only <;> rw [hloop] <;> rfl

theorem decodeRSource_valid (cs : List Char) :
    (decodeRSource (utf8 cs)).text = cs ∧ (decodeRSource (utf8 cs)).invalidUtf8 = [] := by
  rw [decodeRSource, utf8Error_eq_none_iff.mpr ⟨cs, rfl⟩]
  exact ⟨fromUtf8Lossy_utf8 cs, rfl⟩

theorem decodeRSource_bom (bytes : List UInt8) :
    (decodeRSource bytes).leadingBom = bomBytes.isPrefixOf bytes := by
  unfold decodeRSource
  cases utf8Error bytes <;> rfl

theorem decodeRSource_decodes (bytes : List UInt8) : DecodesTo bytes (decodeRSource bytes) := by
  obtain ⟨pieces, last, hbytes, hall, htext, hspans⟩ := decodeRSource_pieces bytes
  refine ⟨?_, ⟨pieces, last, hbytes, hall, htext, hspans⟩, ?_, ?_, ?_, decodeRSource_bom bytes⟩
  · rintro cs rfl
    exact decodeRSource_valid cs
  · intro s hs
    rw [hspans] at hs
    obtain ⟨before, inside, hstands⟩ := stands_of_mem hall hs
    rw [htext]
    exact ⟨before, inside, hstands⟩
  · rw [hspans]
    exact badSpans_pairwise [] pieces
  · rw [hspans, htext, hbytes]
    exact @reencode_pieces [] [] last pieces (by simp)

end Ry
