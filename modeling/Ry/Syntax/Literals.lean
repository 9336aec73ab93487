import Ry.Syntax.Escapes

/-! # What R makes of a string literal

R reads the text between the quotes from the left.  A backslash starts an escape: one letter, one
to three octal digits, `\x` and one or two hexadecimal digits, `\u` and up to four, `\U` and up to
eight, the last two also in braces; digits are read as long as they last.  A letter stands for a
character, an octal or `\x` escape for a byte, the other two for a code, and two codes in a row may
be a surrogate pair.  R takes no code of zero, no octal code above a byte, and no literal with byte
and Unicode escapes.  Its limits on the lengths of literals and names are left out.

`scan_eq_some_iff` is what the loop of `process_r_escapes` decodes, against this.
-/

namespace Ry.Syntax

/-- A character, a byte, or a code in UTF-16 or UTF-32. -/
inductive LitUnit where
  | char (c : Char)
  | byte (n : Nat)
  | code (n : Nat)

/-- The value of these digits. -/
def numeral (digit : Char → Option Nat) (base value : Nat) (ds : List Char) : Nat :=
  ds.foldl (fun v c => v * base + (digit c).getD 0) value

/-- The digits a reader takes that may take `max` of them, with `rest` to follow. -/
structure IsRun (digit : Char → Option Nat) (max : Nat) (ds rest : List Char) : Prop where
  digits : ∀ c ∈ ds, (digit c).isSome
  atMost : ds.length ≤ max
  longest : ds.length = max ∨ ∀ c ∈ rest.head?, digit c = none

/-- The escapes of one letter. -/
def escapeLetters : List (Char × Char) :=
  [('n', '\n'), ('r', '\r'), ('t', '\t'), ('b', '\x08'), ('f', '\x0c'), ('v', '\x0b'),
    ('a', '\x07'), ('"', '"'), ('\'', '\''), ('`', '`'), ('\\', '\\'), (' ', ' '), ('\n', '\n')]

/-- A text starts with a unit, and goes on with `rest`. -/
inductive Opens : LitUnit → List Char → List Char → Prop where
  | plain {c : Char} (hc : c ≠ '\\') (rest : List Char) : Opens (.char c) (c :: rest) rest
  | letter {next c : Char} (h : (next, c) ∈ escapeLetters) (rest : List Char) :
      Opens (.char c) ('\\' :: next :: rest) rest
  | octal {ds rest : List Char} (hds : ds ≠ []) (hrun : IsRun octalDigit 3 ds rest)
      (hpos : numeral octalDigit 8 0 ds ≠ 0) (hbyte : numeral octalDigit 8 0 ds ≤ 255) :
      Opens (.byte (numeral octalDigit 8 0 ds)) ('\\' :: (ds ++ rest)) rest
  | hex {ds rest : List Char} (hds : ds ≠ []) (hrun : IsRun hexDigit 2 ds rest)
      (hpos : numeral hexDigit 16 0 ds ≠ 0) :
      Opens (.byte (numeral hexDigit 16 0 ds)) ('\\' :: 'x' :: (ds ++ rest)) rest
  | unicode {next : Char} {max : Nat} {ds rest : List Char}
      (hnext : (next, max) ∈ [('u', 4), ('U', 8)]) (hds : ds ≠ [])
      (hrun : IsRun hexDigit max ds rest) (hpos : numeral hexDigit 16 0 ds ≠ 0) :
      Opens (.code (numeral hexDigit 16 0 ds)) ('\\' :: next :: (ds ++ rest)) rest
  | braced {next : Char} {max : Nat} {ds rest : List Char}
      (hnext : (next, max) ∈ [('u', 4), ('U', 8)]) (hds : ds ≠ [])
      (hrun : IsRun hexDigit max ds ('}' :: rest)) (hpos : numeral hexDigit 16 0 ds ≠ 0) :
      Opens (.code (numeral hexDigit 16 0 ds)) ('\\' :: next :: '{' :: (ds ++ '}' :: rest)) rest

/-- The units of a text. -/
inductive Lexes : List LitUnit → List Char → Prop where
  | nil : Lexes [] []
  | cons {u : LitUnit} {us : List LitUnit} {cs rest : List Char} (h : Opens u cs rest)
      (hus : Lexes us rest) : Lexes (u :: us) cs

/-- The bytes that units stand for. -/
inductive Denotes : List LitUnit → List UInt8 → Prop where
  | nil : Denotes [] []
  | char (c : Char) {us : List LitUnit} {bs : List UInt8} (h : Denotes us bs) :
      Denotes (.char c :: us) (String.utf8EncodeChar c ++ bs)
  | byte (n : Nat) {us : List LitUnit} {bs : List UInt8} (h : Denotes us bs) :
      Denotes (.byte n :: us) (UInt8.ofNat n :: bs)
  | scalar (c : Char) {us : List LitUnit} {bs : List UInt8} (h : Denotes us bs) :
      Denotes (.code c.toNat :: us) (String.utf8EncodeChar c ++ bs)
  | pair {high low : Nat} (hhigh : IsHighSurrogate high) (hlow : IsLowSurrogate low) (c : Char)
      (hc : c.toNat = joinSurrogates high low) {us : List LitUnit} {bs : List UInt8}
      (h : Denotes us bs) :
      Denotes (.code high :: .code low :: us) (String.utf8EncodeChar c ++ bs)

def LitUnit.isByte : LitUnit → Bool
  | .byte _ => true
  | _ => false

def LitUnit.isCode : LitUnit → Bool
  | .code _ => true
  | _ => false

/-- R reads these units in the text and takes them. -/
structure Accepts (us : List LitUnit) (cs : List Char) : Prop where
  lexes : Lexes us cs
  unmixed : ¬ (us.any LitUnit.isByte ∧ us.any LitUnit.isCode)

/-- R gives the text between the quotes these bytes. -/
def GivesBytes (cs : List Char) (bs : List UInt8) : Prop := ∃ us, Accepts us cs ∧ Denotes us bs

/-! ## Digits -/

theorem numeral_cons (digit : Char → Option Nat) (base value : Nat) (c : Char) (ds : List Char) :
    numeral digit base value (c :: ds) = numeral digit base (value * base + (digit c).getD 0) ds :=
  rfl

theorem IsRun.cons {digit : Char → Option Nat} {max : Nat} {c : Char} {ds rest : List Char}
    (hc : (digit c).isSome) (h : IsRun digit max ds rest) :
    IsRun digit (max + 1) (c :: ds) rest where
  digits := List.forall_mem_cons.mpr ⟨hc, h.digits⟩
  atMost := Nat.succ_le_succ h.atMost
  longest := h.longest.imp_left (congrArg (· + 1))

theorem IsRun.of_cons {digit : Char → Option Nat} {max : Nat} {c : Char} {ds rest : List Char}
    (h : IsRun digit (max + 1) (c :: ds) rest) : IsRun digit max ds rest where
  digits := (List.forall_mem_cons.mp h.digits).2
  atMost := Nat.le_of_succ_le_succ h.atMost
  longest := h.longest.imp_left Nat.succ.inj

theorem readDigits_of_isRun {digit : Char → Option Nat} (base : Nat) {max : Nat} (value digits : Nat)
    {ds rest : List Char} (h : IsRun digit max ds rest) :
    readDigits digit base max value digits (ds ++ rest) =
      ⟨numeral digit base value ds, digits + ds.length, rest⟩ := by
  induction ds generalizing max value digits with
  | nil =>
    cases max with
    | zero => rfl
    | succ max =>
      cases rest with
      | nil => rfl
      | cons c rest =>
        have hc : digit c = none := h.longest.resolve_left (by simp) c rfl
        simp only [List.nil_append, readDigits, hc, List.length_nil, Nat.add_zero]
        rfl
  | cons c ds ih =>
    cases max with
    | zero => exact absurd h.atMost (by simp)
    | succ max =>
      obtain ⟨d, hd⟩ := Option.isSome_iff_exists.mp (h.digits c List.mem_cons_self)
      simp only [List.cons_append, readDigits, hd]
      rw [ih _ _ h.of_cons, numeral_cons, hd, List.length_cons, Nat.add_right_comm, Nat.add_assoc]
      rfl

/-- The digits that are read are a run. -/
theorem exists_isRun (digit : Char → Option Nat) (max : Nat) (cs : List Char) :
    ∃ ds rest, cs = ds ++ rest ∧ IsRun digit max ds rest := by
  induction max generalizing cs with
  | zero => exact ⟨[], cs, rfl, fun _ h => absurd h List.not_mem_nil, Nat.le_refl _, Or.inl rfl⟩
  | succ max ih =>
    cases cs with
    | nil =>
      exact ⟨[], [], rfl, fun _ h => absurd h List.not_mem_nil, Nat.zero_le _,
        Or.inr fun _ h => absurd h (by simp)⟩
    | cons c cs =>
      by_cases hc : (digit c).isSome
      · obtain ⟨ds, rest, rfl, hrun⟩ := ih cs
        exact ⟨c :: ds, rest, rfl, hrun.cons hc⟩
      · refine ⟨[], c :: cs, rfl, fun _ h => absurd h List.not_mem_nil, Nat.zero_le _, Or.inr ?_⟩
        intro d hd
        cases hd
        exact Option.not_isSome_iff_eq_none.mp hc

theorem mem_escapeLetters {next c : Char} :
    (next, c) ∈ escapeLetters ↔ simpleEscape next = some c := by
  constructor
  · intro h
    simp only [escapeLetters, List.mem_cons, List.not_mem_nil, or_false, Prod.mk.injEq] at h
    rcases h with ⟨rfl, rfl⟩ | ⟨rfl, rfl⟩ | ⟨rfl, rfl⟩ | ⟨rfl, rfl⟩ | ⟨rfl, rfl⟩ | ⟨rfl, rfl⟩ |
      ⟨rfl, rfl⟩ | ⟨rfl, rfl⟩ | ⟨rfl, rfl⟩ | ⟨rfl, rfl⟩ | ⟨rfl, rfl⟩ | ⟨rfl, rfl⟩ | ⟨rfl, rfl⟩ <;> rfl
  · intro h
    unfold simpleEscape at h
    split at h <;> cases h <;> simp [escapeLetters]

/-- An octal digit, `x`, `u` and `U` are no escapes of one letter. -/
theorem simpleEscape_eq_none {next : Char}
    (h : (octalDigit next).isSome ∨ next = 'x' ∨ next = 'u' ∨ next = 'U') :
    simpleEscape next = none := by
  rw [Option.eq_none_iff_forall_not_mem]
  intro c hc
  have hmem := mem_escapeLetters.mpr hc
  simp only [escapeLetters, List.mem_cons, List.not_mem_nil, or_false, Prod.mk.injEq] at hmem
  rcases hmem with ⟨rfl, -⟩ | ⟨rfl, -⟩ | ⟨rfl, -⟩ | ⟨rfl, -⟩ | ⟨rfl, -⟩ | ⟨rfl, -⟩ |
      ⟨rfl, -⟩ | ⟨rfl, -⟩ | ⟨rfl, -⟩ | ⟨rfl, -⟩ | ⟨rfl, -⟩ | ⟨rfl, -⟩ | ⟨rfl, -⟩ <;>
    exact absurd h (by decide)

/-! ## One escape -/

/-- The hexadecimal escapes of a letter: the digits as they are, or in braces. -/
inductive HexText (next : Char) : Nat → List Char → List Char → Prop where
  | bare {ds rest : List Char} (hds : ds ≠ []) (hrun : IsRun hexDigit (maxDigits next) ds rest)
      (hpos : numeral hexDigit 16 0 ds ≠ 0) :
      HexText next (numeral hexDigit 16 0 ds) (ds ++ rest) rest
  | braced {ds rest : List Char} (hnext : next ≠ 'x') (hds : ds ≠ [])
      (hrun : IsRun hexDigit (maxDigits next) ds ('}' :: rest))
      (hpos : numeral hexDigit 16 0 ds ≠ 0) :
      HexText next (numeral hexDigit 16 0 ds) ('{' :: (ds ++ '}' :: rest)) rest

theorem hexValue_of_hexText {next : Char} {n : Nat} {cs rest : List Char}
    (h : HexText next n cs rest) : hexValue next cs = some (n, rest) := by
  cases h with
  | @bare ds _ hds hrun hpos =>
    have hbraced : ¬ (next ≠ 'x' ∧ (ds ++ rest).head? = some '{') := by
      rintro ⟨-, hhead⟩
      cases ds with
      | nil => exact hds rfl
      | cons d ds =>
        cases Option.some.inj hhead
        exact absurd (hrun.digits _ List.mem_cons_self) (by decide)
    have hlen : ds.length ≠ 0 := fun h => hds (List.length_eq_zero_iff.mp h)
    simp only [hexValue, if_neg hbraced, readDigits_of_isRun 16 0 0 hrun]
    rw [if_neg (by omega)]
  | @braced ds _ hnext hds hrun hpos =>
    have hbraced : next ≠ 'x' ∧ ('{' :: (ds ++ '}' :: rest)).head? = some '{' := ⟨hnext, rfl⟩
    have hlen : ds.length ≠ 0 := fun h => hds (List.length_eq_zero_iff.mp h)
    simp only [hexValue, if_pos hbraced, List.tail_cons, readDigits_of_isRun 16 0 0 hrun]
    rw [if_neg (by omega), List.head?_cons, if_pos rfl]

theorem hexText_of_hexValue {next : Char} {n : Nat} {cs rest : List Char}
    (h : hexValue next cs = some (n, rest)) : HexText next n cs rest := by
  by_cases hbraced : next ≠ 'x' ∧ cs.head? = some '{'
  · obtain ⟨cs, rfl⟩ := List.head?_eq_some_iff.mp hbraced.2
    obtain ⟨ds, rest', rfl, hrun⟩ := exists_isRun hexDigit (maxDigits next) cs
    simp only [hexValue, if_pos hbraced, List.tail_cons, readDigits_of_isRun 16 0 0 hrun] at h
    split at h
    · cases h
    · rename_i hzero
      split at h
      · rename_i hclose
        obtain ⟨rest', rfl⟩ := List.head?_eq_some_iff.mp hclose
        cases h
        exact .braced hbraced.1 (fun hnil => hzero (Or.inl (by rw [hnil]; rfl))) hrun
          fun hval => hzero (Or.inr hval)
      · cases h
  · obtain ⟨ds, rest', rfl, hrun⟩ := exists_isRun hexDigit (maxDigits next) cs
    simp only [hexValue, if_neg hbraced, readDigits_of_isRun 16 0 0 hrun] at h
    split at h
    · cases h
    · rename_i hzero
      cases h
      exact .bare (fun hnil => hzero (Or.inl (by rw [hnil]; rfl))) hrun fun hval => hzero (Or.inr hval)

theorem hexValue_eq_some_iff {next : Char} {n : Nat} {cs rest : List Char} :
    hexValue next cs = some (n, rest) ↔ HexText next n cs rest :=
  ⟨hexText_of_hexValue, hexValue_of_hexText⟩

/-- A hexadecimal escape, by its letter. -/
theorem opens_of_hexText {next : Char} (hnext : next = 'x' ∨ next = 'u' ∨ next = 'U') {n : Nat}
    {cs rest : List Char} (h : HexText next n cs rest) :
    Opens (if next = 'x' then .byte n else .code n) ('\\' :: next :: cs) rest := by
  rcases hnext with rfl | hletter
  · cases h with
    | bare hds hrun hpos => exact .hex hds hrun hpos
    | braced hnext => exact absurd rfl hnext
  · have hx : next ≠ 'x' := by rcases hletter with rfl | rfl <;> decide
    have hmax : (next, maxDigits next) ∈ [('u', 4), ('U', 8)] := by
      rcases hletter with rfl | rfl <;> decide
    rw [if_neg hx]
    cases h with
    | bare hds hrun hpos => exact .unicode hmax hds hrun hpos
    | braced _ hds hrun hpos => exact .braced hmax hds hrun hpos

namespace Escapes

/-- Between two turns: what waits is a high surrogate, and otherwise escapes are not mixed. -/
structure Sane (st : Escapes) : Prop where
  high : ∀ high ∈ st.highSurrogate, IsHighSurrogate high
  unmixed : st.highSurrogate = none → ¬ (st.byteEscape ∧ st.unicodeEscape)

/-- A turn of the loop, given the unit it reads. -/
def push (st : Escapes) : LitUnit → Option Escapes
  | .char c => if st.highSurrogate.isSome then none else some (st.pushChar c)
  | .byte n =>
    if st.highSurrogate.isSome then none
    else ({ st with out := st.out ++ [UInt8.ofNat n], byteEscape := true }).unmixed
  | .code n => ({ st with unicodeEscape := true }).unicode n

theorem unmixed_eq_some_iff {st st' : Escapes} :
    st.unmixed = some st' ↔ st = st' ∧ ¬ (st.byteEscape ∧ st.unicodeEscape) := by
  rw [unmixed, ← Bool.and_eq_true]
  split
  · rename_i hmixed
    exact ⟨fun h => Option.noConfusion rfl (heq_of_eq h), fun h => absurd hmixed h.2⟩
  · rename_i hmixed
    exact ⟨fun h => ⟨Option.some.inj h, hmixed⟩, fun h => congrArg some h.1⟩

/-- A turn, where nothing waits or a Unicode escape follows. -/
theorem step_of_free {st : Escapes} {c : Char} {cs : List Char}
    (h : st.highSurrogate = none ∨ c = '\\' ∧ (cs.head? = some 'u' ∨ cs.head? = some 'U')) :
    st.step c cs = if c ≠ '\\' then some (st.pushChar c, cs) else st.escape cs := by
  have hfree : ¬ (st.highSurrogate.isSome ∧
      ¬ (c = '\\' ∧ (cs.head? = some 'u' ∨ cs.head? = some 'U'))) := by
    rintro ⟨hwait, hnot⟩
    rcases h with hnone | hletter
    · rw [hnone] at hwait
      cases hwait
    · exact hnot hletter
  rw [step, if_neg hfree]

theorem free_of_step {st : Escapes} {c : Char} {cs : List Char} {next : Escapes × List Char}
    (h : st.step c cs = some next) :
    st.highSurrogate = none ∨ c = '\\' ∧ (cs.head? = some 'u' ∨ cs.head? = some 'U') := by
  by_contra hnot
  rw [not_or] at hnot
  rw [step, if_pos ⟨Option.isSome_iff_ne_none.mpr hnot.1, hnot.2⟩] at h
  cases h

theorem step_backslash {st : Escapes} {cs : List Char}
    (h : st.highSurrogate = none ∨ cs.head? = some 'u' ∨ cs.head? = some 'U') :
    st.step '\\' cs = st.escape cs := by
  rw [step_of_free (h.imp_right fun hletter => ⟨rfl, hletter⟩), if_neg fun hne => hne rfl]

theorem escape_of_letter {st : Escapes} {next ch : Char} (h : simpleEscape next = some ch)
    (rest : List Char) :
    st.escape (next :: rest) = (st.pushChar ch).unmixed.map (·, rest) := by
  simp only [escape, h]

theorem escape_of_octal {st : Escapes} {next : Char} (h : (octalDigit next).isSome)
    (rest : List Char) : st.escape (next :: rest) = st.octal (next :: rest) := by
  simp only [escape, simpleEscape_eq_none (Or.inl h), if_pos h]

theorem escape_of_hex {st : Escapes} {next : Char} (h : next = 'x' ∨ next = 'u' ∨ next = 'U')
    (rest : List Char) : st.escape (next :: rest) = st.hex next rest := by
  have hoctal : ¬ (octalDigit next).isSome := by rcases h with rfl | rfl | rfl <;> decide
  simp only [escape, simpleEscape_eq_none (Or.inr h), if_neg hoctal, if_pos h]

theorem push_char {st st' : Escapes} {c : Char} :
    st.push (.char c) = some st' ↔ st.highSurrogate = none ∧ st.pushChar c = st' := by
  rw [push]
  cases hhigh : st.highSurrogate <;> simp

theorem push_byte {st st' : Escapes} {n : Nat} :
    st.push (.byte n) = some st' ↔ st.highSurrogate = none ∧
      ({ st with out := st.out ++ [UInt8.ofNat n], byteEscape := true }).unmixed = some st' := by
  rw [push]
  cases hhigh : st.highSurrogate <;> simp

/-- The letters of Unicode escapes. -/
theorem unicode_letter {next : Char} {max : Nat} (h : (next, max) ∈ [('u', 4), ('U', 8)]) :
    (next ≠ 'x' ∧ (next = 'u' ∨ next = 'U')) ∧ max = maxDigits next := by
  simp only [List.mem_cons, List.not_mem_nil, or_false, Prod.mk.injEq] at h
  rcases h with ⟨rfl, rfl⟩ | ⟨rfl, rfl⟩ <;> decide

theorem step_of_unicode {st st' : Escapes} {next : Char}
    (hletter : next ≠ 'x' ∧ (next = 'u' ∨ next = 'U')) {n : Nat} {cs rest : List Char}
    (h : HexText next n cs rest) (hpush : st.push (.code n) = some st') :
    st.step '\\' (next :: cs) = some (st', rest) := by
  have hfree : st.highSurrogate = none ∨ (next :: cs).head? = some 'u' ∨
      (next :: cs).head? = some 'U' := by
    rcases hletter.2 with rfl | rfl
    · exact Or.inr (Or.inl rfl)
    · exact Or.inr (Or.inr rfl)
  rw [step_backslash hfree, escape_of_hex (Or.inr hletter.2), hex, hexValue_of_hexText h,
    Option.bind_some]
  dsimp only
  rw [if_neg hletter.1]
  exact congrArg (Option.map (·, rest)) hpush

/-- An octal escape is read as R reads it. -/
theorem opens_of_octal {st st' : Escapes} (hnone : st.highSurrogate = none) {next : Char}
    (hoctal : (octalDigit next).isSome) {cs rest : List Char}
    (h : st.octal (next :: cs) = some (st', rest)) :
    ∃ u, Opens u ('\\' :: next :: cs) rest ∧ st.push u = some st' := by
  obtain ⟨ds, rest', heq, hrun⟩ := exists_isRun octalDigit 3 (next :: cs)
  have hds : ds ≠ [] := by
    rintro rfl
    subst heq
    rcases hrun.longest with hlen | hnot
    · cases hlen
    · rw [hnot next rfl] at hoctal
      cases hoctal
  rw [heq] at h ⊢
  simp only [octal, readDigits_of_isRun 8 0 0 hrun] at h
  split at h
  · cases h
  · rename_i hrange
    rw [not_or, Nat.not_lt] at hrange
    obtain ⟨st₁, hunmixed, hpair⟩ := Option.map_eq_some_iff.mp h
    cases hpair
    exact ⟨_, .octal hds hrun hrange.1 hrange.2, push_byte.mpr ⟨hnone, hunmixed⟩⟩

theorem opens_of_hex {st st' : Escapes} {next : Char}
    (hletter : next = 'x' ∨ next = 'u' ∨ next = 'U')
    (hnone : next ≠ 'u' → next ≠ 'U' → st.highSurrogate = none) {cs rest : List Char}
    (h : st.hex next cs = some (st', rest)) :
    ∃ u, Opens u ('\\' :: next :: cs) rest ∧ st.push u = some st' := by
  obtain ⟨⟨n, rest'⟩, hread, h⟩ := Option.bind_eq_some_iff.mp h
  have hopens := opens_of_hexText hletter (hexText_of_hexValue hread)
  dsimp only at h
  split at h
  · rename_i hx
    obtain ⟨st₁, hunmixed, hpair⟩ := Option.map_eq_some_iff.mp h
    cases hpair
    rw [if_pos hx] at hopens
    subst hx
    exact ⟨_, hopens, push_byte.mpr ⟨hnone (by decide) (by decide), hunmixed⟩⟩
  · rename_i hx
    obtain ⟨st₁, hunicode, hpair⟩ := Option.map_eq_some_iff.mp h
    cases hpair
    rw [if_neg hx] at hopens
    exact ⟨_, hopens, hunicode⟩

theorem step_of_opens {st st' : Escapes} (hst : st.Sane) {u : LitUnit} {c : Char}
    {cs rest : List Char} (h : Opens u (c :: cs) rest) (hpush : st.push u = some st') :
    st.step c cs = some (st', rest) := by
  cases h with
  | plain hc =>
    obtain ⟨hnone, rfl⟩ := push_char.mp hpush
    rw [step_of_free (Or.inl hnone), if_pos hc]
  | @letter _ ch hmem =>
    obtain ⟨hnone, rfl⟩ := push_char.mp hpush
    have hunmixed : (st.pushChar ch).unmixed = some (st.pushChar ch) :=
      unmixed_eq_some_iff.mpr ⟨rfl, hst.unmixed hnone⟩
    rw [step_backslash (Or.inl hnone), escape_of_letter (mem_escapeLetters.mp hmem), hunmixed]
    rfl
  | @octal ds _ hds hrun hpos hbyte =>
    obtain ⟨hnone, hunmixed⟩ := push_byte.mp hpush
    cases ds with
    | nil => exact absurd rfl hds
    | cons d ds =>
      rw [List.cons_append, step_backslash (Or.inl hnone),
        escape_of_octal (hrun.digits d List.mem_cons_self), Escapes.octal, ← List.cons_append,
        readDigits_of_isRun 8 0 0 hrun]
      dsimp only
      rw [if_neg (by omega), hunmixed]
      rfl
  | hex hds hrun hpos =>
    obtain ⟨hnone, hunmixed⟩ := push_byte.mp hpush
    have hread : HexText 'x' _ _ _ := .bare hds hrun hpos
    rw [step_backslash (Or.inl hnone), escape_of_hex (Or.inl rfl), Escapes.hex,
      hexValue_of_hexText hread, Option.bind_some]
    dsimp only
    rw [if_pos rfl, hunmixed]
    rfl
  | unicode hnext hds hrun hpos =>
    obtain ⟨hletter, rfl⟩ := unicode_letter hnext
    exact step_of_unicode hletter (.bare hds hrun hpos) hpush
  | braced hnext hds hrun hpos =>
    obtain ⟨hletter, rfl⟩ := unicode_letter hnext
    exact step_of_unicode hletter (.braced hletter.1 hds hrun hpos) hpush

theorem opens_of_step {st st' : Escapes} {c : Char} {cs rest : List Char}
    (h : st.step c cs = some (st', rest)) : ∃ u, Opens u (c :: cs) rest ∧ st.push u = some st' := by
  have hfree := free_of_step h
  rw [step_of_free hfree] at h
  split at h
  · rename_i hc
    cases h
    have hnone := hfree.resolve_right fun hletter => hc hletter.1
    exact ⟨.char c, .plain hc cs, push_char.mpr ⟨hnone, rfl⟩⟩
  · rename_i hc
    obtain rfl := Classical.not_not.mp hc
    cases cs with
    | nil => cases h
    | cons next cs =>
      have hnone : next ≠ 'u' → next ≠ 'U' → st.highSurrogate = none := by
        intro hu hwide
        refine hfree.resolve_right fun hletter => ?_
        exact hletter.2.elim (fun h => hu (Option.some.inj h)) fun h => hwide (Option.some.inj h)
      rw [escape] at h
      split at h
      · rename_i ch hsimple
        obtain ⟨st₁, hunmixed, hpair⟩ := Option.map_eq_some_iff.mp h
        obtain ⟨rfl, -⟩ := unmixed_eq_some_iff.mp hunmixed
        cases hpair
        have hwait := hnone (by rintro rfl; cases hsimple) (by rintro rfl; cases hsimple)
        exact ⟨.char ch, .letter (mem_escapeLetters.mpr hsimple) rest, push_char.mpr ⟨hwait, rfl⟩⟩
      · split at h
        · rename_i hoctal
          have hwait := hnone (by rintro rfl; cases hoctal) (by rintro rfl; cases hoctal)
          exact opens_of_octal hwait hoctal h
        · split at h
          · rename_i hletter
            exact opens_of_hex hletter hnone h
          · cases h

end Escapes

/-! ## Units and their bytes -/

theorem charFromU32_eq_some_iff {n : Nat} {c : Char} : charFromU32 n = some c ↔ c.toNat = n := by
  rw [charFromU32]
  constructor
  · intro h
    split at h
    · rename_i hvalid
      cases h
      rw [Char.toNat_ofNat, if_pos hvalid]
    · cases h
  · rintro rfl
    have hvalid : c.toNat.isValidChar := c.valid
    rw [if_pos hvalid, Char.ofNat_toNat]

theorem not_isHighSurrogate_toNat (c : Char) : ¬ IsHighSurrogate c.toNat := by
  rintro ⟨hle, hge⟩
  rcases c.valid with hlow | ⟨hhigh, -⟩
  · exact absurd (Nat.lt_of_lt_of_le hlow hle) (Nat.lt_irrefl _)
  · have hgt : 0xDFFF < c.toNat := hhigh
    omega

theorem denotes_nil {bs : List UInt8} : Denotes [] bs ↔ bs = [] := by
  constructor
  · intro h
    cases h
    rfl
  · rintro rfl
    exact .nil

theorem denotes_char {c : Char} {us : List LitUnit} {bs : List UInt8} :
    Denotes (.char c :: us) bs ↔
      ∃ rest, bs = String.utf8EncodeChar c ++ rest ∧ Denotes us rest := by
  constructor
  · rintro (_ | ⟨_, h⟩)
    exact ⟨_, rfl, h⟩
  · rintro ⟨rest, rfl, h⟩
    exact .char c h

theorem denotes_byte {n : Nat} {us : List LitUnit} {bs : List UInt8} :
    Denotes (.byte n :: us) bs ↔ ∃ rest, bs = UInt8.ofNat n :: rest ∧ Denotes us rest := by
  constructor
  · intro h
    cases h with
    | byte _ h => exact ⟨_, rfl, h⟩
  · rintro ⟨rest, rfl, h⟩
    exact .byte n h

/-- A code that is no high surrogate has to be a character. -/
theorem denotes_scalar {n : Nat} (hn : ¬ IsHighSurrogate n) {us : List LitUnit} {bs : List UInt8} :
    Denotes (.code n :: us) bs ↔ ∃ c, charFromU32 n = some c ∧
      ∃ rest, bs = String.utf8EncodeChar c ++ rest ∧ Denotes us rest := by
  constructor
  · intro h
    cases h with
    | scalar c h => exact ⟨c, charFromU32_eq_some_iff.mpr rfl, _, rfl, h⟩
    | pair hhigh => exact absurd hhigh hn
  · rintro ⟨c, hc, rest, rfl, h⟩
    rw [← charFromU32_eq_some_iff.mp hc]
    exact .scalar c h

/-- A high surrogate has to be the first half of a pair. -/
theorem denotes_high {high : Nat} (hhigh : IsHighSurrogate high) {us : List LitUnit}
    {bs : List UInt8} :
    Denotes (.code high :: us) bs ↔ ∃ low us', us = .code low :: us' ∧ IsLowSurrogate low ∧
      ∃ c, charFromU32 (joinSurrogates high low) = some c ∧
        ∃ rest, bs = String.utf8EncodeChar c ++ rest ∧ Denotes us' rest := by
  constructor
  · intro h
    cases h with
    | scalar c => exact absurd hhigh (not_isHighSurrogate_toNat c)
    | pair _ hlow c hc h => exact ⟨_, _, rfl, hlow, c, charFromU32_eq_some_iff.mpr hc, _, rfl, h⟩
  · rintro ⟨low, us', rfl, hlow, c, hc, rest, rfl, h⟩
    exact .pair hhigh hlow c (charFromU32_eq_some_iff.mp hc) h

/-! ## The loop -/

namespace Escapes

/-- The loop, given the units it reads. -/
def runs (st : Escapes) : List LitUnit → Option (List UInt8)
  | [] => if st.highSurrogate.isSome then none else some st.out
  | u :: us => (st.push u).bind (·.runs us)

theorem sane_unmixed {st st' : Escapes} (hnone : st.highSurrogate = none)
    (h : st.unmixed = some st') : st'.Sane := by
  obtain ⟨rfl, hunmixed⟩ := unmixed_eq_some_iff.mp h
  refine ⟨?_, fun _ => hunmixed⟩
  intro high hhigh
  rw [hnone] at hhigh
  cases hhigh

theorem sane_push {st st' : Escapes} (hst : st.Sane) {u : LitUnit} (h : st.push u = some st') :
    st'.Sane := by
  cases u with
  | char c =>
    obtain ⟨-, rfl⟩ := push_char.mp h
    exact ⟨hst.high, hst.unmixed⟩
  | byte n =>
    obtain ⟨hnone, hunmixed⟩ := push_byte.mp h
    exact @sane_unmixed { st with out := _, byteEscape := true } _ hnone hunmixed
  | code n =>
    rw [push, unicode] at h
    split at h
    · split at h
      · obtain ⟨ch, -, hunmixed⟩ := Option.bind_eq_some_iff.mp h
        exact sane_unmixed rfl hunmixed
      · cases h
    · rename_i hnone
      split at h
      · rename_i hhigh
        cases h
        refine ⟨fun high hmem => ?_, fun hbyte => by cases hbyte⟩
        cases hmem
        exact hhigh
      · obtain ⟨ch, -, hunmixed⟩ := Option.bind_eq_some_iff.mp h
        exact @sane_unmixed ({ st with unicodeEscape := true }.pushChar ch) _ hnone hunmixed

theorem scan_eq_runs {st : Escapes} (hst : st.Sane) {cs : List Char} {out : List UInt8} :
    st.scan cs = some out ↔ ∃ us, Lexes us cs ∧ st.runs us = some out := by
  induction hlen : cs.length using Nat.strong_induction_on generalizing st cs with
  | _ n ih =>
    subst hlen
    cases cs with
    | nil =>
      rw [scan_nil]
      constructor
      · exact fun h => ⟨[], .nil, h⟩
      · rintro ⟨us, hlex, hruns⟩
        cases hlex with
        | nil => exact hruns
        | cons hopens => cases hopens
    | cons c cs =>
      rw [scan_cons]
      constructor
      · intro h
        obtain ⟨⟨st', rest⟩, hstep, hscan⟩ := Option.bind_eq_some_iff.mp h
        obtain ⟨u, hopens, hpush⟩ := opens_of_step hstep
        obtain ⟨us, hlex, hruns⟩ :=
          (ih _ (length_step hstep) (sane_push hst hpush) rfl).mp hscan
        exact ⟨u :: us, .cons hopens hlex, Option.bind_eq_some_iff.mpr ⟨st', hpush, hruns⟩⟩
      · rintro ⟨us, hlex, hruns⟩
        cases hlex with
        | cons hopens hlex =>
          obtain ⟨st', hpush, hruns⟩ := Option.bind_eq_some_iff.mp hruns
          have hstep := step_of_opens hst hopens hpush
          refine Option.bind_eq_some_iff.mpr ⟨_, hstep, ?_⟩
          exact (ih _ (length_step hstep) (sane_push hst hpush) rfl).mpr ⟨_, hlex, hruns⟩

/-- The high surrogate that waits, as a unit. -/
def waiting (st : Escapes) : List LitUnit := st.highSurrogate.toList.map .code

/-- Byte and Unicode escapes are mixed, if these units follow. -/
def Mixed (st : Escapes) (us : List LitUnit) : Prop :=
  (st.byteEscape ∨ us.any LitUnit.isByte) ∧ (st.unicodeEscape ∨ us.any LitUnit.isCode)

/-- What is left of a loop that has decoded `out` so far, where nothing waits. -/
def Leaves (st : Escapes) (us : List LitUnit) (out : List UInt8) : Prop :=
  ∃ bs, out = st.out ++ bs ∧ Denotes (st.waiting ++ us) bs ∧ ¬ st.Mixed us

theorem waiting_none {st : Escapes} (h : st.highSurrogate = none) : st.waiting = [] := by
  rw [waiting, h]
  rfl

theorem waiting_some {st : Escapes} {high : Nat} (h : st.highSurrogate = some high) :
    st.waiting = [.code high] := by
  rw [waiting, h]
  rfl

/-- One unit adds its bytes to what is decoded. -/
theorem leaves_append {st st' : Escapes} {us us' : List LitUnit} {encoded out : List UInt8}
    (hout : st'.out = st.out ++ encoded) (hnone : st'.highSurrogate = none)
    (hdenotes : ∀ bs, Denotes (st.waiting ++ us) bs ↔ ∃ rest, bs = encoded ++ rest ∧ Denotes us' rest)
    (hmixed : st'.Mixed us' ↔ st.Mixed us) : st'.Leaves us' out ↔ st.Leaves us out := by
  rw [Leaves, Leaves, waiting_none hnone, hout, hmixed, List.nil_append]
  constructor
  · rintro ⟨rest, rfl, hrest, hunmixed⟩
    exact ⟨encoded ++ rest, List.append_assoc _ _ _, (hdenotes _).mpr ⟨rest, rfl, hrest⟩, hunmixed⟩
  · rintro ⟨bs, rfl, hbs, hunmixed⟩
    obtain ⟨rest, rfl, hrest⟩ := (hdenotes bs).mp hbs
    exact ⟨rest, (List.append_assoc _ _ _).symm, hrest, hunmixed⟩

/-- The test at the end of a turn finds mixed escapes. -/
theorem unmixed_bind {st : Escapes} {us : List LitUnit} {out : List UInt8}
    (hnone : st.highSurrogate = none)
    (ih : ∀ {st : Escapes}, st.Sane → (st.runs us = some out ↔ st.Leaves us out)) :
    st.unmixed.bind (·.runs us) = some out ↔ st.Leaves us out := by
  by_cases hboth : st.byteEscape ∧ st.unicodeEscape
  · rw [unmixed, if_pos (Bool.and_eq_true _ _ ▸ hboth)]
    constructor
    · intro h
      cases h
    · rintro ⟨bs, -, -, hunmixed⟩
      exact absurd ⟨Or.inl hboth.1, Or.inl hboth.2⟩ hunmixed
  · have hst := unmixed_eq_some_iff.mpr ⟨rfl, hboth⟩
    rw [hst, Option.bind_some]
    exact ih (sane_unmixed hnone hst)

/-- A code that ends a character. -/
theorem pushed_bind {st st₁ : Escapes} (hout : st₁.out = st.out) (hnone : st₁.highSurrogate = none)
    {us us' : List LitUnit} {out : List UInt8}
    (ih : ∀ {st : Escapes}, st.Sane → (st.runs us' = some out ↔ st.Leaves us' out))
    {read : Option Char}
    (hdenotes : ∀ bs, Denotes (st.waiting ++ us) bs ↔ ∃ c, read = some c ∧
      ∃ rest, bs = String.utf8EncodeChar c ++ rest ∧ Denotes us' rest)
    (hmixed : st₁.Mixed us' ↔ st.Mixed us) :
    (read.bind fun ch => (st₁.pushChar ch).unmixed).bind (·.runs us') = some out ↔
      st.Leaves us out := by
  cases read with
  | none =>
    constructor
    · intro h
      cases h
    · rintro ⟨bs, -, hbs, -⟩
      obtain ⟨c, hc, -⟩ := (hdenotes bs).mp hbs
      cases hc
  | some c =>
    rw [Option.bind_some, @unmixed_bind (st₁.pushChar c) us' out hnone ih]
    refine leaves_append (congrArg (· ++ _) hout) hnone (fun bs => (hdenotes bs).trans ?_) hmixed
    simp

theorem runs_eq_some_iff {st : Escapes} (hst : st.Sane) {us : List LitUnit} {out : List UInt8} :
    st.runs us = some out ↔ st.Leaves us out := by
  induction us generalizing st with
  | nil =>
    cases hhigh : st.highSurrogate with
    | none =>
      have hunmixed : ¬ st.Mixed [] := by simpa [Mixed] using hst.unmixed hhigh
      rw [runs, hhigh, Leaves, waiting_none hhigh]
      constructor
      · intro h
        cases h
        exact ⟨[], (List.append_nil _).symm, .nil, hunmixed⟩
      · rintro ⟨bs, rfl, hbs, -⟩
        obtain rfl := denotes_nil.mp hbs
        rw [List.append_nil]
        rfl
    | some high =>
      rw [runs, hhigh, Leaves, waiting_some hhigh]
      constructor
      · intro h
        cases h
      · rintro ⟨bs, -, hbs, -⟩
        obtain ⟨low, us', heq, -⟩ := (denotes_high (hst.high high hhigh)).mp hbs
        cases heq
  | cons u us ih =>
    rw [runs]
    cases hhigh : st.highSurrogate with
    | none =>
      cases u with
      | char c =>
        have hunmixed : (st.pushChar c).unmixed = some (st.pushChar c) :=
          unmixed_eq_some_iff.mpr ⟨rfl, hst.unmixed hhigh⟩
        have hpush : st.push (.char c) = (some c).bind fun ch => (st.pushChar ch).unmixed :=
          (push_char.mpr ⟨hhigh, rfl⟩).trans hunmixed.symm
        rw [hpush]
        refine pushed_bind rfl hhigh ih (fun bs => ?_) ?_
        · rw [waiting_none hhigh, List.nil_append, denotes_char]
          simp
        · simp [Mixed, LitUnit.isByte, LitUnit.isCode]
      | byte n =>
        rw [push, hhigh, if_neg (by decide), unmixed_bind rfl ih]
        refine leaves_append rfl rfl (fun bs => ?_) ?_
        · rw [waiting_none hhigh]
          exact denotes_byte
        · simp [Mixed, LitUnit.isByte, LitUnit.isCode]
      | code n =>
        rw [push, unicode, hhigh]
        dsimp only
        by_cases hn : IsHighSurrogate n
        · -- the unit waits
          rw [if_pos hn, Option.bind_some, ih ⟨fun high hmem => by cases hmem; exact hn, fun h => by cases h⟩]
          simp [Leaves, waiting, hhigh, Mixed, LitUnit.isByte, LitUnit.isCode]
        · rw [if_neg hn]
          refine @pushed_bind st { st with unicodeEscape := true, highSurrogate := none } rfl rfl
            _ us _ ih _ (fun bs => ?_) ?_
          · rw [waiting_none hhigh]
            exact denotes_scalar hn
          · simp [Mixed, LitUnit.isByte, LitUnit.isCode]
    | some high =>
      have hwait := hst.high high hhigh
      -- after a high surrogate, R takes its other half and nothing else
      have hother : (∀ n, u ≠ .code n) → st.push u = none → ((st.push u).bind (·.runs us) = some out ↔
          st.Leaves (u :: us) out) := by
        intro hu hpush
        rw [hpush]
        constructor
        · intro h
          cases h
        · rintro ⟨bs, -, hbs, -⟩
          rw [waiting_some hhigh] at hbs
          obtain ⟨low, us', heq, -⟩ := (denotes_high hwait).mp hbs
          cases heq
          exact absurd rfl (hu low)
      cases u with
      | char c => exact hother (fun n h => by cases h) (by rw [push, hhigh]; rfl)
      | byte n => exact hother (fun n h => by cases h) (by rw [push, hhigh]; rfl)
      | code n =>
        rw [push, unicode, hhigh]
        dsimp only
        by_cases hlow : IsLowSurrogate n
        · rw [if_pos hlow]
          refine @pushed_bind st { st with unicodeEscape := true, highSurrogate := none } rfl rfl
            _ us _ ih _ (fun bs => ?_) ?_
          · rw [waiting_some hhigh]
            refine (denotes_high hwait).trans ?_
            constructor
            · rintro ⟨low, us', heq, -, hc⟩
              cases heq
              exact hc
            · exact fun hc => ⟨n, us, rfl, hlow, hc⟩
          · simp [Mixed, LitUnit.isByte, LitUnit.isCode]
        · rw [if_neg hlow]
          constructor
          · intro h
            cases h
          · rintro ⟨bs, -, hbs, -⟩
            rw [waiting_some hhigh] at hbs
            obtain ⟨low, us', heq, hlow', -⟩ := (denotes_high hwait).mp hbs
            cases heq
            exact absurd hlow' hlow

/-- The loop decodes what R does. -/
theorem scan_eq_some_iff {cs : List Char} {bs : List UInt8} :
    ({} : Escapes).scan cs = some bs ↔ GivesBytes cs bs := by
  have hstart : ({} : Escapes).Sane := by
    constructor
    · intro high h
      cases h
    · rintro - ⟨h, -⟩
      cases h
  rw [scan_eq_runs hstart]
  constructor
  · rintro ⟨us, hlex, hruns⟩
    obtain ⟨bs', rfl, hbs, hunmixed⟩ := (runs_eq_some_iff hstart).mp hruns
    refine ⟨us, ⟨hlex, fun hmixed => hunmixed ?_⟩, hbs⟩
    exact ⟨Or.inr hmixed.1, Or.inr hmixed.2⟩
  · rintro ⟨us, ⟨hlex, hunmixed⟩, hbs⟩
    refine ⟨us, hlex, (runs_eq_some_iff hstart).mpr ⟨bs, rfl, hbs, fun hmixed => hunmixed ?_⟩⟩
    exact ⟨hmixed.1.resolve_left (by decide), hmixed.2.resolve_left (by decide)⟩

end Escapes

end Ry.Syntax
