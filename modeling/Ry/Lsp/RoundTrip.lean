import Ry.Lsp.Positions

/-! # Positions and offsets convert into each other

`exactPosition` counts lines and columns without a bound, and the conversions of `positions.rs`
count them in 32 bits.  Where the exact counts fit, offsets and positions determine each other,
up to the newline of a CRLF, which has the position of its carriage return.  Where they do not,
a position stands for several offsets.
-/

namespace Ry

/-- The walk to an offset, from a character at `byte`. -/
def scanTo (byteOffset : Nat) (scan : Position) (byte : Nat) : List Char → Position
  | [] => scan
  | ch :: rest =>
    if byteOffset ≤ byte then scan
    else scanTo byteOffset (scanStep scan ch rest) (byte + ch.utf8Size) rest

/-- A byte offset as a wire position. -/
def byteOffsetToPosition (text : List Char) (byteOffset : Nat) : Position :=
  scanTo byteOffset ⟨0, 0⟩ 0 text

/-- Earlier lines first, then earlier columns. -/
instance : LE Position where
  le p q := p.line < q.line ∨ p.line = q.line ∧ p.character ≤ q.character

/-! ## Exact positions -/

/-- A line and a column. -/
abbrev LineColumn := Nat × Nat

def utf16Width (text : List Char) : Nat :=
  (text.map fun ch => if ch.toNat < 0x10000 then 1 else 2).sum

/-- Between the two characters of a CRLF. -/
def InsideCrlf (before after : List Char) : Prop :=
  before.getLast? = some '\r' ∧ after.head? = some '\n'

instance (before after : List Char) : Decidable (InsideCrlf before after) :=
  inferInstanceAs (Decidable (_ ∧ _))

/-- The line break characters of a line that is to end here are not columns. -/
def columnText (before after : List Char) : List Char :=
  if InsideCrlf before after then (lastLine before).dropLast else lastLine before

/-- Where the boundary between `before` and `after` is. -/
def exactPosition (before after : List Char) : LineColumn :=
  (before.count '\n', utf16Width (columnText before after))

/-- The counts of every boundary fit into 32 bits. -/
def FitsCounters (text : List Char) : Prop :=
  ∀ before after, text = before ++ after →
    (exactPosition before after).1 < 2 ^ 32 ∧ (exactPosition before after).2 < 2 ^ 32

/-- Offsets and positions of the text determine each other. -/
structure RoundTrips (text : List Char) : Prop where
  /-- A boundary's position leads back to it, from inside a CRLF to its carriage return. -/
  back : ∀ before after, text = before ++ after →
    positionToByteOffset text (byteOffsetToPosition text (byteLen before)) =
      some (if InsideCrlf before after then byteLen before - 1 else byteLen before)
  /-- An offset that is found is a boundary, at the position asked for. -/
  found : ∀ target byte, positionToByteOffset text target = some byte →
    (∃ before after, text = before ++ after ∧ byte = byteLen before) ∧
      byteOffsetToPosition text byte = target
  monotone : ∀ a b, a ≤ b → byteOffsetToPosition text a ≤ byteOffsetToPosition text b

theorem lastLine_snoc (before : List Char) (ch : Char) :
    lastLine (before ++ [ch]) = if ch = '\n' then [] else lastLine before ++ [ch] := by
  rw [lastLine_append]
  by_cases hch : ch = '\n'
  · subst hch
    rfl
  · rw [if_neg (by simpa using Ne.symm hch), if_neg hch]

theorem utf16Width_append (text more : List Char) :
    utf16Width (text ++ more) = utf16Width text + utf16Width more := by
  simp [utf16Width]

theorem insideCrlf_snoc (before after : List Char) (ch : Char) :
    InsideCrlf (before ++ [ch]) after ↔ ch = '\r' ∧ after.head? = some '\n' := by
  simp [InsideCrlf]

theorem not_insideCrlf_nil (after : List Char) : ¬ InsideCrlf [] after := by
  simp [InsideCrlf]

/-- Before any other character, the whole line counts. -/
theorem columnText_cons {before after : List Char} {ch : Char} (hch : ch ≠ '\n') :
    columnText before (ch :: after) = lastLine before := by
  rw [columnText, if_neg]
  rintro ⟨-, hhead⟩
  exact hch (Option.some.inj hhead)

/-- One character further. -/
theorem exactPosition_snoc (before after : List Char) (ch : Char) :
    exactPosition (before ++ [ch]) after =
      if ch = '\n' then (before.count '\n' + 1, 0)
      else if ch = '\r' ∧ after.head? = some '\n' then exactPosition before (ch :: after)
      else ((exactPosition before (ch :: after)).1,
        (exactPosition before (ch :: after)).2 + utf16Width [ch]) := by
  unfold exactPosition
  rw [List.count_append, columnText, lastLine_snoc]
  simp only [insideCrlf_snoc]
  by_cases hnl : ch = '\n'
  · subst hnl
    simp [utf16Width]
  · rw [if_neg hnl, if_neg hnl, List.count_singleton, if_neg (by simpa using hnl),
      columnText_cons hnl]
    by_cases hcrlf : ch = '\r' ∧ after.head? = some '\n'
    · rw [if_pos hcrlf, if_pos hcrlf, List.dropLast_concat, Nat.add_zero]
    · rw [if_neg hcrlf, if_neg hcrlf, utf16Width_append, Nat.add_zero]

/-- A character moves the position forward, unless it starts a CRLF. -/
theorem exactPosition_lt_snoc {before after : List Char} {ch : Char}
    (hcrlf : ¬ (ch = '\r' ∧ after.head? = some '\n')) :
    toLex (exactPosition before (ch :: after)) < toLex (exactPosition (before ++ [ch]) after) := by
  rw [exactPosition_snoc, if_neg hcrlf, Prod.Lex.toLex_lt_toLex]
  split
  · exact Or.inl (Nat.lt_succ_self _)
  · refine Or.inr ⟨rfl, Nat.lt_add_of_pos_right ?_⟩
    rw [utf16Width, List.map_singleton, List.sum_singleton]
    split <;> decide

theorem exactPosition_snoc_crlf {before after : List Char} {ch : Char}
    (hcrlf : ch = '\r' ∧ after.head? = some '\n') :
    exactPosition (before ++ [ch]) after = exactPosition before (ch :: after) := by
  obtain ⟨rfl, hhead⟩ := hcrlf
  rw [exactPosition_snoc, if_neg (by decide), if_pos ⟨rfl, hhead⟩]

theorem exactPosition_le_append (before mid after : List Char) :
    toLex (exactPosition before (mid ++ after)) ≤ toLex (exactPosition (before ++ mid) after) := by
  induction mid generalizing before with
  | nil => rw [List.nil_append, List.append_nil]
  | cons ch mid ih =>
    have hstep : toLex (exactPosition before (ch :: (mid ++ after))) ≤
        toLex (exactPosition (before ++ [ch]) (mid ++ after)) := by
      by_cases hcrlf : ch = '\r' ∧ (mid ++ after).head? = some '\n'
      · rw [exactPosition_snoc_crlf hcrlf]
      · exact (exactPosition_lt_snoc hcrlf).le
    have hrest := ih (before ++ [ch])
    rw [List.append_assoc, List.singleton_append] at hrest
    exact hstep.trans hrest

/-- Two boundaries at one position are those around the carriage return of a CRLF. -/
theorem crlf_of_exactPosition_eq {before mid after : List Char} {ch : Char}
    (h : exactPosition before (ch :: mid ++ after) = exactPosition (before ++ ch :: mid) after) :
    ch = '\r' ∧ mid = [] ∧ after.head? = some '\n' := by
  have hsplit : before ++ ch :: mid = before ++ [ch] ++ mid := by
    rw [List.append_assoc, List.singleton_append]
  rw [hsplit] at h
  have hrest := exactPosition_le_append (before ++ [ch]) mid after
  by_cases hcrlf : ch = '\r' ∧ (mid ++ after).head? = some '\n'
  · cases mid with
    | nil => exact ⟨hcrlf.1, rfl, hcrlf.2⟩
    | cons next mid =>
      -- the newline after the carriage return ends the line
      have hnext : next = '\n' := Option.some.inj hcrlf.2
      subst hnext
      have hlt : toLex (exactPosition (before ++ [ch]) ('\n' :: (mid ++ after))) <
          toLex (exactPosition (before ++ [ch] ++ ['\n']) (mid ++ after)) :=
        exactPosition_lt_snoc fun h => absurd h.1 (by decide)
      have hle := exactPosition_le_append (before ++ [ch] ++ ['\n']) mid after
      rw [List.append_assoc _ ['\n'], List.singleton_append] at hle
      have hstart : exactPosition (before ++ [ch]) ('\n' :: (mid ++ after)) =
          exactPosition before (ch :: '\n' :: (mid ++ after)) := exactPosition_snoc_crlf hcrlf
      rw [hstart] at hlt
      exact absurd (h ▸ hlt.trans_le hle) (lt_irrefl _)
  · exact absurd (h ▸ (exactPosition_lt_snoc hcrlf).trans_le hrest) (lt_irrefl _)

/-! ## The counters -/

/-- What the counters say at a boundary. -/
def wirePosition (before after : List Char) : Position :=
  ⟨UInt32.ofNat (exactPosition before after).1, UInt32.ofNat (exactPosition before after).2⟩

theorem wirePosition_nil (text : List Char) : wirePosition [] text = ⟨0, 0⟩ := by
  unfold wirePosition exactPosition
  rw [columnText, if_neg (not_insideCrlf_nil text)]
  rfl

theorem scanStep_wirePosition (before after : List Char) (ch : Char) :
    scanStep (wirePosition before (ch :: after)) ch after = wirePosition (before ++ [ch]) after := by
  unfold scanStep
  rw [wirePosition, wirePosition, exactPosition_snoc]
  by_cases hnl : ch = '\n'
  · rw [if_pos hnl, if_pos hnl, UInt32.ofNat_add]
    rfl
  · rw [if_neg hnl, if_neg hnl]
    split
    · rfl
    · have hwidth : UInt32.ofNat (utf16Width [ch]) = utf16Len ch := by
        rw [utf16Width, utf16Len, List.map_singleton, List.sum_singleton]
        split <;> rfl
      rw [UInt32.ofNat_add, hwidth]

/-- The walk to a boundary. -/
theorem scanTo_boundary (before mid after : List Char) :
    scanTo (byteLen (before ++ mid)) (wirePosition before (mid ++ after)) (byteLen before)
      (mid ++ after) = wirePosition (before ++ mid) after := by
  induction mid generalizing before with
  | nil =>
    rw [List.append_nil, List.nil_append]
    cases after with
    | nil => rfl
    | cons ch after => rw [scanTo, if_pos (Nat.le_refl _)]
  | cons ch mid ih =>
    have hpos := ch.utf8Size_pos
    have hstep := ih (before ++ [ch])
    rw [byteLen_append before [ch], byteLen_cons, byteLen_nil, Nat.add_zero, List.append_assoc,
      List.singleton_append] at hstep
    rw [List.cons_append, scanTo, if_neg (by rw [byteLen_append, byteLen_cons]; omega),
      scanStep_wirePosition, hstep]

theorem byteOffsetToPosition_boundary (before after : List Char) :
    byteOffsetToPosition (before ++ after) (byteLen before) = wirePosition before after := by
  have hwalk := scanTo_boundary [] before after
  rwa [wirePosition_nil, byteLen_nil, List.nil_append] at hwalk

/-- Walks to two offsets stop at two boundaries, in this order. -/
theorem scanTo_scanTo {a b : Nat} (hab : a ≤ b) (before rest : List Char) :
    ∃ mid more after, rest = mid ++ (more ++ after) ∧
      scanTo a (wirePosition before rest) (byteLen before) rest =
        wirePosition (before ++ mid) (more ++ after) ∧
      scanTo b (wirePosition before rest) (byteLen before) rest =
        wirePosition (before ++ mid ++ more) after := by
  induction rest generalizing before with
  | nil => exact ⟨[], [], [], rfl, by rw [List.append_nil]; rfl, by simp; rfl⟩
  | cons ch rest ih =>
    obtain ⟨mid, more, after, hrest, ha, hb⟩ := ih (before ++ [ch])
    rw [byteLen_append, byteLen_cons, byteLen_nil, Nat.add_zero] at ha hb
    rw [List.append_assoc before [ch], List.singleton_append] at ha hb
    by_cases hstop : b ≤ byteLen before
    · refine ⟨[], [], ch :: rest, rfl, ?_, ?_⟩
      · rw [scanTo, if_pos (hab.trans hstop), List.append_nil]
        rfl
      · rw [scanTo, if_pos hstop, List.append_nil, List.append_nil]
    · by_cases hstart : a ≤ byteLen before
      · refine ⟨[], ch :: mid ++ more, after, by simp [hrest], ?_, ?_⟩
        · rw [scanTo, if_pos hstart, List.append_nil, hrest]
          simp
        · rw [scanTo, if_neg hstop, scanStep_wirePosition, hb]
          simp
      · refine ⟨ch :: mid, more, after, by simp [hrest], ?_, ?_⟩
        · rw [scanTo, if_neg hstart, scanStep_wirePosition, ha]
        · rw [scanTo, if_neg hstop, scanStep_wirePosition, hb]

/-- An offset that is found is a boundary with the position asked for. -/
theorem scanFor_found {target : Position} {n : Nat} (before rest : List Char)
    (h : scanFor target (wirePosition before rest) (byteLen before) rest = some n) :
    ∃ mid after, rest = mid ++ after ∧ n = byteLen (before ++ mid) ∧
      wirePosition (before ++ mid) after = target := by
  induction rest generalizing before with
  | nil =>
    rw [scanFor] at h
    split at h
    · rename_i htarget
      exact ⟨[], [], rfl, by rw [List.append_nil]; exact (Option.some.inj h).symm,
        by rw [List.append_nil]; exact htarget⟩
    · cases h
  | cons ch rest ih =>
    rw [scanFor] at h
    split at h
    · rename_i htarget
      refine ⟨[], ch :: rest, rfl, by rw [List.append_nil]; exact (Option.some.inj h).symm, ?_⟩
      rw [List.append_nil]
      obtain ⟨line, character⟩ := target
      exact congrArg₂ Position.mk htarget.1 htarget.2
    · split at h
      · cases h
      · rw [scanStep_wirePosition] at h
        have hnext := ih (before ++ [ch])
        rw [byteLen_append, byteLen_cons, byteLen_nil, Nat.add_zero] at hnext
        obtain ⟨mid, after, rfl, hn, hwire⟩ := hnext h
        rw [List.append_assoc, List.singleton_append] at hn hwire
        exact ⟨ch :: mid, after, rfl, hn, hwire⟩

/-- The search does not go past a boundary on the line at the column or beyond it. -/
theorem scanFor_le {target : Position} {n : Nat} (before mid after : List Char)
    (hline : (wirePosition (before ++ mid) after).line = target.line)
    (hcol : target.character ≤ (wirePosition (before ++ mid) after).character)
    (h : scanFor target (wirePosition before (mid ++ after)) (byteLen before) (mid ++ after) =
      some n) : n ≤ byteLen (before ++ mid) := by
  induction mid generalizing before with
  | nil =>
    rw [List.append_nil] at hline hcol ⊢
    rw [List.nil_append] at h
    cases after with
    | nil =>
      rw [scanFor] at h
      split at h
      · exact (Option.some.inj h).ge
      · cases h
    | cons ch after =>
      rw [scanFor] at h
      split at h
      · exact (Option.some.inj h).ge
      · rename_i hmiss
        have hpast : (wirePosition before (ch :: after)).character > target.character :=
          UInt32.lt_of_le_of_ne hcol fun heq => hmiss ⟨hline, heq.symm⟩
        rw [if_pos ⟨hline, hpast⟩] at h
        cases h
  | cons ch mid ih =>
    rw [List.cons_append, scanFor] at h
    split at h
    · rw [← Option.some.inj h, byteLen_append]
      exact Nat.le_add_right _ _
    · split at h
      · cases h
      · rw [scanStep_wirePosition] at h
        have hnext := ih (before ++ [ch])
        rw [byteLen_append, byteLen_cons, byteLen_nil, Nat.add_zero, List.append_assoc,
          List.singleton_append] at hnext
        exact hnext hline hcol h

/-! ## Round trips -/

/-- A position whose counts fit. -/
def InCounters (p : LineColumn) : Prop := p.1 < 2 ^ 32 ∧ p.2 < 2 ^ 32

theorem wirePosition_le {before after before' after' : List Char}
    (hfit : InCounters (exactPosition before after))
    (hfit' : InCounters (exactPosition before' after'))
    (hle : toLex (exactPosition before after) ≤ toLex (exactPosition before' after')) :
    wirePosition before after ≤ wirePosition before' after' := by
  rcases Prod.Lex.toLex_le_toLex.mp hle with hline | ⟨hline, hcol⟩
  · refine Or.inl (UInt32.lt_iff_toNat_lt.mpr ?_)
    rw [wirePosition, wirePosition, UInt32.toNat_ofNat_of_lt' hfit.1,
      UInt32.toNat_ofNat_of_lt' hfit'.1]
    exact hline
  · refine Or.inr ⟨congrArg UInt32.ofNat hline, UInt32.le_iff_toNat_le.mpr ?_⟩
    rw [wirePosition, wirePosition, UInt32.toNat_ofNat_of_lt' hfit.2,
      UInt32.toNat_ofNat_of_lt' hfit'.2]
    exact hcol

theorem exactPosition_eq_of_wirePosition {before after before' after' : List Char}
    (hfit : InCounters (exactPosition before after))
    (hfit' : InCounters (exactPosition before' after'))
    (hline : (wirePosition before after).line = (wirePosition before' after').line)
    (hcol : (wirePosition before after).character = (wirePosition before' after').character) :
    exactPosition before after = exactPosition before' after' := by
  have hsame := congrArg UInt32.toNat hline
  have hsame' := congrArg UInt32.toNat hcol
  rw [wirePosition, wirePosition, UInt32.toNat_ofNat_of_lt' hfit.1,
    UInt32.toNat_ofNat_of_lt' hfit'.1] at hsame
  rw [wirePosition, wirePosition, UInt32.toNat_ofNat_of_lt' hfit.2,
    UInt32.toNat_ofNat_of_lt' hfit'.2] at hsame'
  exact Prod.ext hsame hsame'

theorem scanFor_self (scan : Position) (byte : Nat) (text : List Char) :
    scanFor scan scan byte text = some byte := by
  cases text <;> simp [scanFor]

/-- The search for a later boundary's position, from an earlier boundary. -/
theorem scanFor_back (before mid after : List Char)
    (hfit : FitsCounters (before ++ (mid ++ after)))
    (hedge : mid = [] → ¬ InsideCrlf before after) :
    scanFor (wirePosition (before ++ mid) after) (wirePosition before (mid ++ after))
        (byteLen before) (mid ++ after) =
      some (if InsideCrlf (before ++ mid) after then byteLen (before ++ mid) - 1
        else byteLen (before ++ mid)) := by
  induction mid generalizing before with
  | nil => rw [List.append_nil, List.nil_append, scanFor_self, if_neg (hedge rfl)]
  | cons ch mid ih =>
    have hhere : InCounters (exactPosition before (ch :: mid ++ after)) := hfit before _ rfl
    have hthere : InCounters (exactPosition (before ++ ch :: mid) after) :=
      hfit (before ++ ch :: mid) after (List.append_assoc _ _ _).symm
    by_cases heq : exactPosition before (ch :: mid ++ after) =
        exactPosition (before ++ ch :: mid) after
    · -- the target is inside a CRLF, at the position of its carriage return
      obtain ⟨rfl, rfl, hhead⟩ := crlf_of_exactPosition_eq heq
      have hwire : wirePosition before (['\r'] ++ after) = wirePosition (before ++ ['\r']) after := by
        rw [wirePosition, wirePosition, heq]
      rw [hwire, scanFor_self, if_pos ((insideCrlf_snoc _ _ _).mpr ⟨rfl, hhead⟩), byteLen_append]
      rfl
    · have hlt := lt_of_le_of_ne (exactPosition_le_append before (ch :: mid) after)
        fun h => heq (toLex_inj.mp h)
      have hstep := ih (before ++ [ch]) (by simpa using hfit) ?_
      · rw [List.append_assoc, List.singleton_append, byteLen_append before [ch], byteLen_cons,
          byteLen_nil, Nat.add_zero] at hstep
        rw [List.cons_append, scanFor, scanStep_wirePosition, hstep, if_neg, if_neg]
        · rintro ⟨hline, hpast⟩
          rcases wirePosition_le hhere hthere hlt.le with h | ⟨-, h⟩
          · exact absurd (hline ▸ h) (UInt32.lt_irrefl _)
          · exact UInt32.not_lt.mpr h hpast
        · rintro ⟨hline, hcol⟩
          exact heq (exactPosition_eq_of_wirePosition hhere hthere hline hcol)
      · rintro rfl hcrlf
        obtain ⟨hch, hhead⟩ := (insideCrlf_snoc _ _ _).mp hcrlf
        exact heq (exactPosition_snoc_crlf ⟨hch, hhead⟩).symm

theorem back_of_fitsCounters {before after : List Char} (hfit : FitsCounters (before ++ after)) :
    positionToByteOffset (before ++ after)
        (byteOffsetToPosition (before ++ after) (byteLen before)) =
      some (if InsideCrlf before after then byteLen before - 1 else byteLen before) := by
  have hback := scanFor_back [] before after hfit fun _ => not_insideCrlf_nil after
  rw [byteOffsetToPosition_boundary, positionToByteOffset]
  rwa [List.nil_append, wirePosition_nil, byteLen_nil] at hback

/-- Where offsets lead back to themselves, no count is too large. -/
theorem fitsCounters_of_back {text : List Char}
    (hback : ∀ before after, text = before ++ after →
      positionToByteOffset text (byteOffsetToPosition text (byteLen before)) =
        some (if InsideCrlf before after then byteLen before - 1 else byteLen before)) :
    FitsCounters text := by
  intro before
  induction before using List.reverseRecOn with
  | nil =>
    intro after _
    unfold exactPosition
    rw [columnText, if_neg (not_insideCrlf_nil after)]
    decide
  | append_singleton before ch ih =>
    intro after htext
    have htext' : text = before ++ ch :: after := by rw [htext]; simp
    have hhere := ih (ch :: after) htext'
    -- a boundary with a smaller offset that the search for this one does not pass
    have hlater : ∀ n, positionToByteOffset text (wirePosition (before ++ [ch]) after) = some n →
        ¬ InsideCrlf (before ++ [ch]) after → ¬ n ≤ byteLen before := by
      intro n hn hcrlf hle
      have hself := hback (before ++ [ch]) after htext
      rw [htext, byteOffsetToPosition_boundary, ← htext, hn, if_neg hcrlf] at hself
      have hpos := ch.utf8Size_pos
      rw [Option.some.inj hself, byteLen_append, byteLen_cons] at hle
      omega
    have hsome : ∃ n, positionToByteOffset text (wirePosition (before ++ [ch]) after) = some n := by
      have hself := hback (before ++ [ch]) after htext
      rw [htext, byteOffsetToPosition_boundary, ← htext] at hself
      exact ⟨_, hself⟩
    obtain ⟨n, hn⟩ := hsome
    by_contra hover
    by_cases hnl : ch = '\n'
    · -- the line count wraps to the start of the text
      have hexact := exactPosition_snoc before after ch
      rw [if_pos hnl] at hexact
      rw [hexact] at hover
      have hcount : before.count '\n' + 1 = 2 ^ 32 := by
        have hle := hhere.1
        unfold exactPosition at hle
        dsimp only at hle hover
        omega
      have hwire : wirePosition (before ++ [ch]) after = ⟨0, 0⟩ := by
        rw [wirePosition, hexact, hcount]
        rfl
      have hstart : n ≤ byteLen ([] ++ []) := by
        refine @scanFor_le (wirePosition (before ++ [ch]) after) n [] [] text ?_ ?_ ?_
        · rw [List.nil_append, wirePosition_nil, hwire]
        · rw [List.nil_append, wirePosition_nil, hwire]
          exact UInt32.le_refl _
        · rw [List.nil_append, wirePosition_nil]
          exact hn
      refine hlater n hn (fun h => ?_) (hstart.trans (Nat.zero_le _))
      exact absurd (hnl ▸ ((insideCrlf_snoc _ _ _).mp h).1) (by decide)
    · by_cases hcrlf : ch = '\r' ∧ after.head? = some '\n'
      · rw [exactPosition_snoc_crlf hcrlf] at hover
        exact hover hhere
      · -- the column wraps to at most one
        have hexact := exactPosition_snoc before after ch
        rw [if_neg hnl, if_neg hcrlf] at hexact
        have hwidth : utf16Width [ch] ≤ 2 := by
          rw [utf16Width, List.map_singleton, List.sum_singleton]
          split <;> decide
        have hwrap : 2 ^ 32 ≤ (exactPosition before (ch :: after)).2 + utf16Width [ch] := by
          by_contra hsmall
          rw [hexact] at hover
          exact hover ⟨hhere.1, Nat.lt_of_not_le hsmall⟩
        refine hlater n hn (fun h => hcrlf ((insideCrlf_snoc _ _ _).mp h)) ?_
        refine @scanFor_le (wirePosition (before ++ [ch]) after) n [] before (ch :: after)
          ?_ ?_ ?_
        · rw [List.nil_append, wirePosition, wirePosition, hexact]
        · have hcol := hhere.2
          rw [List.nil_append, UInt32.le_iff_toNat_le, wirePosition, wirePosition, hexact,
            UInt32.toNat_ofNat_of_lt' hhere.2, UInt32.toNat_ofNat']
          dsimp only
          rw [Nat.mod_eq_sub_mod hwrap, Nat.mod_eq_of_lt (by omega)]
          omega
        · rw [wirePosition_nil, ← htext']
          exact hn

/-- Offsets and positions determine each other exactly in the texts whose lines and columns
can be counted. -/
theorem roundTrips_iff_fitsCounters (text : List Char) : RoundTrips text ↔ FitsCounters text := by
  constructor
  · intro h
    exact fitsCounters_of_back h.back
  · intro hfit
    refine ⟨?_, ?_, ?_⟩
    · rintro before after rfl
      exact back_of_fitsCounters hfit
    · intro target byte hfound
      have hfound' := @scanFor_found target byte [] text (by rw [wirePosition_nil]; exact hfound)
      obtain ⟨before, after, rfl, rfl, htarget⟩ := hfound'
      exact ⟨⟨before, after, rfl, rfl⟩, by
        rw [List.nil_append, byteOffsetToPosition_boundary]; exact htarget⟩
    · intro a b hab
      obtain ⟨mid, more, after, rfl, ha, hb⟩ := scanTo_scanTo hab [] text
      rw [wirePosition_nil, byteLen_nil, List.nil_append] at ha hb
      rw [byteOffsetToPosition, byteOffsetToPosition, ha, hb]
      exact wirePosition_le (hfit _ _ rfl) (hfit _ _ (List.append_assoc _ _ _).symm)
        (exactPosition_le_append mid more after)

/-- After 2 ^ 32 lines the end of the text is taken for its start. -/
theorem newlines_not_roundTrips : ¬ RoundTrips (List.replicate (2 ^ 32) '\n') := by
  intro h
  have hend := (fitsCounters_of_back h.back (List.replicate (2 ^ 32) '\n') []
    (List.append_nil _).symm).1
  rw [exactPosition, List.count_replicate_self] at hend
  exact absurd hend (Nat.lt_irrefl _)

end Ry
