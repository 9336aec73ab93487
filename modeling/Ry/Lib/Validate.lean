import Ry.Lib.Utf8

/-! # UTF-8 validation

`utf8Error` is the scan of `std::str::from_utf8`: up to where the bytes are characters, and how
many bytes of what follows are an invalid sequence.  `MaximalInvalid` says what such a sequence
is without the scan: the longest one that begins a character, or a byte that begins none.
-/

/-- What a character still owes: how many bytes, and the bounds of the next one. -/
structure Owed where
  more : Nat
  low : Nat
  high : Nat
deriving DecidableEq, Repr

namespace Owed

/-- Continuation bytes, any of them. -/
def tails (n : Nat) : Owed := ⟨n, 0x80, 0xBF⟩

/-- After a first byte. -/
def first (b : Nat) : Option Owed :=
  if b < 0x80 then some (tails 0)
  else if b < 0xC2 then none
  else if b < 0xE0 then some (tails 1)
  else if b = 0xE0 then some ⟨2, 0xA0, 0xBF⟩
  else if b = 0xED then some ⟨2, 0x80, 0x9F⟩
  else if b < 0xF0 then some (tails 2)
  else if b = 0xF0 then some ⟨3, 0x90, 0xBF⟩
  else if b < 0xF4 then some (tails 3)
  else if b = 0xF4 then some ⟨3, 0x80, 0x8F⟩
  else none

/-- After one more. -/
def next (o : Owed) (b : Nat) : Option Owed :=
  if o.more ≠ 0 ∧ o.low ≤ b ∧ b ≤ o.high then some (tails (o.more - 1)) else none

/-- After several. -/
def follow : Owed → List UInt8 → Option Owed
  | o, [] => some o
  | o, b :: bytes => (o.next b.toNat).bind (follow · bytes)

/-- After these bytes, the first of a character. -/
def reads : List UInt8 → Option Owed
  | [] => none
  | b :: bytes => (first b.toNat).bind (follow · bytes)

end Owed

structure Utf8Error where
  validUpTo : Nat
  /-- `none` if the input ends inside a character. -/
  errorLen : Option Nat
deriving DecidableEq, Repr

/-- `upTo` bytes are characters, and `taken` more begin one that owes `owed`. -/
def utf8Scan (upTo taken : Nat) (owed : Owed) : List UInt8 → Option Utf8Error
  | [] => if owed.more = 0 then none else some ⟨upTo, none⟩
  | b :: rest =>
    if owed.more = 0 then
      match Owed.first b.toNat with
      | none => some ⟨upTo, some 1⟩
      | some o => if o.more = 0 then utf8Scan (upTo + 1) 0 o rest else utf8Scan upTo 1 o rest
    else
      match owed.next b.toNat with
      | none => some ⟨upTo, some taken⟩
      | some o =>
        if o.more = 0 then utf8Scan (upTo + taken + 1) 0 o rest
        else utf8Scan upTo (taken + 1) o rest

/-- The error of `std::str::from_utf8`; `none` if it succeeds. -/
def utf8Error (bytes : List UInt8) : Option Utf8Error := utf8Scan 0 0 (Owed.tails 0) bytes

/-- The first bytes of a character, perhaps all of them. -/
def Begins (bytes : List UInt8) : Prop :=
  bytes ≠ [] ∧ ∃ c, bytes <+: String.utf8EncodeChar c

/-- Invalid bytes before `rest`. -/
structure MaximalInvalid (bad rest : List UInt8) : Prop where
  nonempty : bad ≠ []
  no_char : ∀ c, ¬ String.utf8EncodeChar c <+: bad ++ rest
  begins : Begins bad ∨ bad.length = 1
  longest : ∀ more, more ≠ [] → more <+: rest → ¬ Begins (bad ++ more)

namespace Owed

@[simp] theorem tails_more (n : Nat) : (tails n).more = n := rfl

theorem next_eq_some {o o' : Owed} {b : Nat} (h : o.next b = some o') :
    o.more ≠ 0 ∧ (o.low ≤ b ∧ b ≤ o.high) ∧ o' = tails (o.more - 1) := by
  unfold next at h
  split at h
  · next hb => exact ⟨hb.1, hb.2, (Option.some.inj h).symm⟩
  · exact absurd h (by simp)

theorem next_of {o : Owed} {b : Nat} (hmore : o.more ≠ 0) (hlow : o.low ≤ b) (hhigh : b ≤ o.high) :
    o.next b = some (tails (o.more - 1)) := if_pos ⟨hmore, hlow, hhigh⟩

theorem follow_append (o : Owed) (xs ys : List UInt8) :
    o.follow (xs ++ ys) = (o.follow xs).bind (·.follow ys) := by
  induction xs generalizing o with
  | nil => rfl
  | cons b xs ih =>
    rw [List.cons_append, follow, follow]
    cases o.next b.toNat with
    | none => rfl
    | some o' => exact ih o'

theorem reads_append {xs : List UInt8} (h : xs ≠ []) (ys : List UInt8) :
    reads (xs ++ ys) = (reads xs).bind (·.follow ys) := by
  cases xs with
  | nil => exact absurd rfl h
  | cons b xs =>
    rw [List.cons_append, reads, reads]
    cases first b.toNat with
    | none => rfl
    | some o => exact follow_append o xs ys

/-- A complete character takes no more bytes. -/
theorem follow_of_complete {o o' : Owed} {ys : List UInt8} (ho : o.more = 0)
    (h : o.follow ys = some o') : ys = [] := by
  cases ys with
  | nil => rfl
  | cons b ys =>
    rw [follow, Option.bind_eq_some_iff] at h
    obtain ⟨o₁, h₁, -⟩ := h
    exact absurd ho (next_eq_some h₁).1

/-- The bounds of the next byte are not empty and lie among the continuation bytes. -/
def Sane (o : Owed) : Prop := 0x80 ≤ o.low ∧ o.low ≤ o.high ∧ o.high ≤ 0xBF

theorem sane_tails (n : Nat) : Sane (tails n) :=
  ⟨Nat.le_refl _, by simp [tails], Nat.le_refl _⟩

theorem sane_first {b : Nat} {o : Owed} (h : first b = some o) : o.Sane := by
  unfold first at h
  repeat' split at h
  all_goals first | (cases h; refine ⟨?_, ?_, ?_⟩ <;> decide) | exact absurd h (by simp)

theorem sane_follow {o o' : Owed} {ys : List UInt8} (ho : o.Sane) (h : o.follow ys = some o') :
    o'.Sane := by
  induction ys generalizing o with
  | nil => exact Option.some.inj h ▸ ho
  | cons b ys ih =>
    rw [follow, Option.bind_eq_some_iff] at h
    obtain ⟨o₁, h₁, h⟩ := h
    exact ih ((next_eq_some h₁).2.2 ▸ sane_tails _) h

theorem sane_reads {xs : List UInt8} {o : Owed} (h : reads xs = some o) : o.Sane := by
  cases xs with
  | nil => exact absurd h (by simp [reads])
  | cons b xs =>
    rw [reads, Option.bind_eq_some_iff] at h
    obtain ⟨o₁, h₁, h⟩ := h
    exact sane_follow (sane_first h₁) h

/-- What is owed can be paid. -/
theorem follow_completion {o : Owed} (ho : o.Sane) :
    ∃ ys o', o.follow ys = some o' ∧ o'.more = 0 := by
  obtain ⟨more, low, high⟩ := o
  induction more generalizing low high with
  | zero => exact ⟨[], _, rfl, rfl⟩
  | succ n ih =>
    obtain ⟨hlow, hle, hhigh⟩ := ho
    obtain ⟨ys, o', hys, ho'⟩ := ih 0x80 0xBF (sane_tails n)
    refine ⟨UInt8.ofNat low :: ys, o', ?_, ho'⟩
    have hbyte : (UInt8.ofNat low).toNat = low := by
      dsimp only at hlow hle hhigh
      rw [UInt8.toNat_ofNat', Nat.mod_eq_of_lt (by omega)]
    rw [follow, hbyte, next_of (Nat.succ_ne_zero n) (Nat.le_refl low) hle]
    exact hys

/-- The first bytes, by how many they announce. -/
theorem first_cases {b : Nat} {o : Owed} (h : first b = some o) :
    (b < 0x80 ∧ o = tails 0) ∨ (0xC2 ≤ b ∧ b < 0xE0 ∧ o = tails 1) ∨
      (0xE0 ≤ b ∧ b < 0xF0 ∧ o.more = 2 ∧ 0x80 ≤ o.low ∧ o.high ≤ 0xBF ∧
        (b = 0xE0 → 0xA0 ≤ o.low) ∧ (b = 0xED → o.high ≤ 0x9F)) ∨
      (0xF0 ≤ b ∧ b ≤ 0xF4 ∧ o.more = 3 ∧ 0x80 ≤ o.low ∧ o.high ≤ 0xBF ∧
        (b = 0xF0 → 0x90 ≤ o.low) ∧ (b = 0xF4 → o.high ≤ 0x8F)) := by
  unfold first at h
  repeat' split at h
  all_goals first | (cases h; simp only [tails, true_and, and_true]; omega) | exact absurd h (by simp)

theorem first_one {b : Nat} (h : b < 0x80) : first b = some (tails 0) := if_pos h

theorem first_two {b : Nat} (hlow : 0xC2 ≤ b) (hhigh : b < 0xE0) : first b = some (tails 1) := by
  unfold first
  rw [if_neg (by omega), if_neg (by omega), if_pos hhigh]

/-- Of three bytes the second is bounded so that nothing is overlong and no surrogate. -/
theorem first_three {a b : Nat} (hlow : 0xE0 ≤ a) (hhigh : a < 0xF0) (hb : 0x80 ≤ b ∧ b ≤ 0xBF)
    (hover : a = 0xE0 → 0xA0 ≤ b) (hsurrogate : a = 0xED → b ≤ 0x9F) :
    ∃ o, first a = some o ∧ o.next b = some (tails 1) := by
  unfold first
  rw [if_neg (by omega), if_neg (by omega), if_neg (by omega)]
  by_cases h₀ : a = 0xE0
  · rw [if_pos h₀]
    exact ⟨_, rfl, next_of (by decide) (hover h₀) hb.2⟩
  · by_cases hd : a = 0xED
    · rw [if_neg h₀, if_pos hd]
      exact ⟨_, rfl, next_of (by decide) hb.1 (hsurrogate hd)⟩
    · rw [if_neg h₀, if_neg hd, if_pos hhigh]
      exact ⟨_, rfl, next_of (by decide) hb.1 hb.2⟩

/-- Of four, so that nothing is overlong or past the last character. -/
theorem first_four {a b : Nat} (hlow : 0xF0 ≤ a) (hhigh : a ≤ 0xF4) (hb : 0x80 ≤ b ∧ b ≤ 0xBF)
    (hover : a = 0xF0 → 0x90 ≤ b) (hpast : a = 0xF4 → b ≤ 0x8F) :
    ∃ o, first a = some o ∧ o.next b = some (tails 2) := by
  unfold first
  rw [if_neg (by omega), if_neg (by omega), if_neg (by omega), if_neg (by omega),
    if_neg (by omega), if_neg (by omega)]
  by_cases h₀ : a = 0xF0
  · rw [if_pos h₀]
    exact ⟨_, rfl, next_of (by decide) (hover h₀) hb.2⟩
  · by_cases h₄ : a = 0xF4
    · rw [if_neg h₀, if_neg (by omega), if_pos h₄]
      exact ⟨_, rfl, next_of (by decide) hb.1 (hpast h₄)⟩
    · rw [if_neg h₀, if_pos (by omega)]
      exact ⟨_, rfl, next_of (by decide) hb.1 hb.2⟩

theorem next_tails {n b : Nat} (hlow : 0x80 ≤ b) (hhigh : b ≤ 0xBF) :
    (tails (n + 1)).next b = some (tails n) := next_of (Nat.succ_ne_zero n) hlow hhigh

end Owed

theorem toNat_ofNat_of_lt {n : Nat} (h : n < 256) : (UInt8.ofNat n).toNat = n := by
  rw [UInt8.toNat_ofNat', Nat.mod_eq_of_lt h]

theorem ofNat_eq {n : Nat} {b : UInt8} (h : n = b.toNat) : UInt8.ofNat n = b := by
  rw [h, UInt8.ofNat_toNat]

namespace Owed

/-- Every character is read to its end. -/
theorem reads_encode (c : Char) : reads (String.utf8EncodeChar c) = some (tails 0) := by
  have hvalid : c.val.toNat < 0xD800 ∨ 0xDFFF < c.val.toNat ∧ c.val.toNat < 0x110000 := c.valid
  unfold String.utf8EncodeChar
  dsimp only
  generalize c.val.toNat = v at hvalid
  by_cases h₁ : v ≤ 0x7f
  · rw [if_pos h₁, reads, toNat_ofNat_of_lt (by omega), first_one (by omega)]
    rfl
  · rw [if_neg h₁]
    by_cases h₂ : v ≤ 0x7ff
    · rw [if_pos h₂, reads, toNat_ofNat_of_lt (by omega), first_two (by omega) (by omega),
        Option.bind_some, follow, toNat_ofNat_of_lt (by omega), next_tails (by omega) (by omega)]
      rfl
    · rw [if_neg h₂]
      by_cases h₃ : v ≤ 0xffff
      · obtain ⟨o, hfirst, hnext⟩ := @first_three (v / 4096 % 16 + 0xe0) (v / 64 % 64 + 0x80)
          (by omega) (by omega) (by omega) (by omega) (by omega)
        rw [if_pos h₃, reads, toNat_ofNat_of_lt (by omega), hfirst, Option.bind_some, follow,
          toNat_ofNat_of_lt (by omega), hnext, Option.bind_some, follow,
          toNat_ofNat_of_lt (by omega), next_tails (by omega) (by omega)]
        rfl
      · obtain ⟨o, hfirst, hnext⟩ := @first_four (v / 262144 % 8 + 0xf0) (v / 4096 % 64 + 0x80)
          (by omega) (by omega) (by omega) (by omega) (by omega)
        rw [if_neg h₃, reads, toNat_ofNat_of_lt (by omega), hfirst, Option.bind_some, follow,
          toNat_ofNat_of_lt (by omega), hnext, Option.bind_some, follow,
          toNat_ofNat_of_lt (by omega), next_tails (by omega) (by omega), Option.bind_some, follow,
          toNat_ofNat_of_lt (by omega), next_tails (by omega) (by omega)]
        rfl

theorem follow_cons {o o' : Owed} {ys : List UInt8} (h : o.follow ys = some o')
    (ho' : o'.more = 0) (ho : o.more ≠ 0) :
    ∃ y rest, ys = y :: rest ∧ (o.low ≤ y.toNat ∧ y.toNat ≤ o.high) ∧
      (tails (o.more - 1)).follow rest = some o' := by
  cases ys with
  | nil => exact absurd ho' (Option.some.inj h ▸ ho)
  | cons y rest =>
    rw [follow, Option.bind_eq_some_iff] at h
    obtain ⟨o₁, h₁, hrest⟩ := h
    obtain ⟨-, hbounds, rfl⟩ := next_eq_some h₁
    exact ⟨y, rest, rfl, hbounds, hrest⟩

theorem follow_zero {o' : Owed} {ys : List UInt8} (h : (tails 0).follow ys = some o') : ys = [] :=
  follow_of_complete rfl h

theorem exists_char {v : Nat} (h : v < 0xD800 ∨ 0xDFFF < v ∧ v < 0x110000) :
    ∃ c : Char, c.val.toNat = v := ⟨Char.ofNatAux v h, rfl⟩

/-- What is read to its end is a character. -/
theorem encode_of_reads {bytes : List UInt8} {o : Owed} (h : reads bytes = some o)
    (ho : o.more = 0) : ∃ c, String.utf8EncodeChar c = bytes := by
  cases bytes with
  | nil => exact absurd h (by simp [reads])
  | cons a ys =>
    rw [reads, Option.bind_eq_some_iff] at h
    obtain ⟨o₁, h₁, hys⟩ := h
    rcases first_cases h₁ with ⟨ha, rfl⟩ | ⟨hlow, hhigh, rfl⟩ |
      ⟨hlow, hhigh, hmore, hl, hh, hover, hsurr⟩ | ⟨hlow, hhigh, hmore, hl, hh, hover, hpast⟩
    · obtain rfl := follow_zero hys
      obtain ⟨c, hc⟩ := exists_char (v := a.toNat) (by omega)
      refine ⟨c, ?_⟩
      unfold String.utf8EncodeChar
      dsimp only
      rw [hc, if_pos (by omega), ofNat_eq rfl]
    · obtain ⟨b, ys, rfl, hb, hys⟩ := follow_cons hys ho (by decide)
      obtain rfl := follow_zero hys
      dsimp only [tails] at hb
      obtain ⟨c, hc⟩ := exists_char (v := (a.toNat - 0xC0) * 64 + (b.toNat - 0x80)) (by omega)
      refine ⟨c, ?_⟩
      unfold String.utf8EncodeChar
      dsimp only
      rw [hc, if_neg (by omega), if_pos (by omega), @ofNat_eq _ a (by omega),
        @ofNat_eq _ b (by omega)]
    · obtain ⟨b, ys, rfl, hb, hys⟩ := follow_cons hys ho (by omega)
      rw [hmore] at hys
      obtain ⟨d, ys, rfl, hd, hys⟩ := follow_cons hys ho (by decide)
      obtain rfl := follow_zero hys
      dsimp only [tails] at hd
      obtain ⟨c, hc⟩ := exists_char
        (v := (a.toNat - 0xE0) * 4096 + (b.toNat - 0x80) * 64 + (d.toNat - 0x80)) (by omega)
      refine ⟨c, ?_⟩
      unfold String.utf8EncodeChar
      dsimp only
      rw [hc, if_neg (by omega), if_neg (by omega), if_pos (by omega), @ofNat_eq _ a (by omega),
        @ofNat_eq _ b (by omega), @ofNat_eq _ d (by omega)]
    · obtain ⟨b, ys, rfl, hb, hys⟩ := follow_cons hys ho (by omega)
      rw [hmore] at hys
      obtain ⟨d, ys, rfl, hd, hys⟩ := follow_cons hys ho (by decide)
      obtain ⟨e, ys, rfl, he, hys⟩ := follow_cons hys ho (by decide)
      obtain rfl := follow_zero hys
      dsimp only [tails] at hd he
      obtain ⟨c, hc⟩ := exists_char (v := (a.toNat - 0xF0) * 262144 + (b.toNat - 0x80) * 4096 +
        (d.toNat - 0x80) * 64 + (e.toNat - 0x80)) (by omega)
      refine ⟨c, ?_⟩
      unfold String.utf8EncodeChar
      dsimp only
      rw [hc, if_neg (by omega), if_neg (by omega), if_neg (by omega), @ofNat_eq _ a (by omega),
        @ofNat_eq _ b (by omega), @ofNat_eq _ d (by omega), @ofNat_eq _ e (by omega)]

end Owed

open Owed

theorem begins_iff {bytes : List UInt8} : Begins bytes ↔ (reads bytes).isSome := by
  constructor
  · rintro ⟨hne, c, rest, hc⟩
    have hread := reads_encode c
    rw [← hc, reads_append hne, Option.bind_eq_some_iff] at hread
    obtain ⟨o, ho, -⟩ := hread
    rw [ho]
    rfl
  · intro h
    obtain ⟨o, ho⟩ := Option.isSome_iff_exists.mp h
    have hne : bytes ≠ [] := by
      rintro rfl
      exact absurd ho (by simp [reads])
    obtain ⟨ys, o', hys, ho'⟩ := follow_completion (sane_reads ho)
    have hall : reads (bytes ++ ys) = some o' := by rw [reads_append hne, ho]; exact hys
    obtain ⟨c, hc⟩ := encode_of_reads hall ho'
    exact ⟨hne, c, ys, hc.symm⟩

/-- Two texts that begin with a character each begin with the same one. -/
theorem encode_append_inj {c d : Char} {xs ys : List UInt8}
    (h : String.utf8EncodeChar c ++ xs = String.utf8EncodeChar d ++ ys) : c = d ∧ xs = ys := by
  have hread : ∀ (e : Char) (zs : List UInt8),
      (String.utf8EncodeChar e ++ zs).toByteArray.utf8DecodeChar? 0 = some e := by
    intro e zs
    rw [List.toByteArray_append]
    exact ByteArray.utf8DecodeChar?_utf8EncodeChar_append
  have hcd : some c = some d := by rw [← hread c xs, h, hread d ys]
  cases hcd
  exact ⟨rfl, List.append_cancel_left h⟩

/-- What is left of a text after some characters is a text. -/
theorem utf8_of_append {cs ds : List Char} {bytes : List UInt8}
    (h : utf8 ds ++ bytes = utf8 cs) : ∃ es, bytes = utf8 es := by
  induction ds generalizing cs with
  | nil => exact ⟨cs, h⟩
  | cons d ds ih =>
    rw [utf8_cons, List.append_assoc] at h
    cases cs with
    | nil =>
      have hlen := congrArg List.length h
      rw [List.length_append, String.length_utf8EncodeChar, utf8_nil, List.length_nil] at hlen
      have hpos := d.utf8Size_pos
      omega
    | cons c cs =>
      rw [utf8_cons] at h
      exact ih (encode_append_inj h).2

/-! ## The scan -/

/-- The bytes of one character that cannot go on, or that the input ends in. -/
theorem maximal_of_stuck {bad rest : List UInt8} {o : Owed} (h : reads bad = some o)
    (ho : o.more ≠ 0) (hstuck : ∀ more, more ≠ [] → more <+: rest → o.follow more = none) :
    MaximalInvalid bad rest := by
  have hne : bad ≠ [] := by
    rintro rfl
    exact absurd h (by simp [reads])
  have hlonger : ∀ more, more ≠ [] → more <+: rest → reads (bad ++ more) = none := by
    intro more hmore hpre
    rw [reads_append hne, h]
    exact hstuck more hmore hpre
  refine ⟨hne, ?_, .inl (begins_iff.mpr (by rw [h]; rfl)), ?_⟩
  · intro c hc
    have hread := reads_encode c
    obtain ⟨tail, htail⟩ := hc
    rcases List.append_eq_append_iff.mp htail with ⟨left, rfl, -⟩ | ⟨more, hmore, hrest⟩
    · -- a whole character among these bytes leaves nothing owed
      rw [reads_append String.utf8EncodeChar_ne_nil, hread, Option.bind_some] at h
      obtain rfl := follow_zero h
      exact ho (Option.some.inj h ▸ rfl)
    · have hpre : more <+: rest := ⟨tail, hrest.symm⟩
      rw [hmore] at hread
      by_cases hnil : more = []
      · rw [hnil, List.append_nil, h] at hread
        exact ho (Option.some.inj hread ▸ rfl)
      · rw [hlonger more hnil hpre] at hread
        exact absurd hread (by simp)
  · intro more hmore hpre hbegins
    rw [begins_iff, hlonger more hmore hpre] at hbegins
    exact absurd hbegins (by decide)

/-- A byte no character begins with. -/
theorem maximal_of_first {b : UInt8} (h : first b.toNat = none) (rest : List UInt8) :
    MaximalInvalid [b] rest := by
  have hreads : ∀ more, reads (b :: more) = none := by
    intro more
    rw [reads, h]
    rfl
  refine ⟨List.cons_ne_nil _ _, ?_, .inr rfl, ?_⟩
  · intro c hc
    have hread := reads_encode c
    cases hcode : String.utf8EncodeChar c with
    | nil => exact String.utf8EncodeChar_ne_nil hcode
    | cons d code =>
      rw [hcode] at hc hread
      obtain rfl := (List.cons_prefix_cons.mp hc).1
      rw [hreads] at hread
      exact absurd hread (by simp)
  · intro more _ _ hbegins
    rw [begins_iff, List.singleton_append, hreads] at hbegins
    exact absurd hbegins (by decide)

/-- What an answer says of the bytes. -/
def Scanned (upTo : Nat) (bytes : List UInt8) : Option Utf8Error → Prop
  | none => ∃ cs, bytes = utf8 cs
  | some e => ∃ cs bad rest, bytes = utf8 cs ++ (bad ++ rest) ∧ e.validUpTo = upTo + byteLen cs ∧
      MaximalInvalid bad rest ∧ (e.errorLen = some bad.length ∨ e.errorLen = none ∧ rest = [])

theorem Scanned.cons {upTo : Nat} {bytes : List UInt8} {answer : Option Utf8Error} (c : Char)
    (h : Scanned (upTo + c.utf8Size) bytes answer) :
    Scanned upTo (String.utf8EncodeChar c ++ bytes) answer := by
  cases answer with
  | none =>
    obtain ⟨cs, rfl⟩ := h
    exact ⟨c :: cs, rfl⟩
  | some e =>
    obtain ⟨cs, bad, rest, rfl, hup, hmax⟩ := h
    refine ⟨c :: cs, bad, rest, ?_, ?_, hmax⟩
    · rw [utf8_cons, List.append_assoc]
    · rw [hup, byteLen_cons, Nat.add_assoc]

/-- Between characters nothing is taken and nothing owed. -/
def Pending (taken : List UInt8) (o : Owed) : Prop :=
  (taken = [] ∧ o = tails 0) ∨ (reads taken = some o ∧ o.more ≠ 0)

theorem utf8Scan_scanned (upTo : Nat) {taken : List UInt8} {o : Owed} (h : Pending taken o)
    (rest : List UInt8) : Scanned upTo (taken ++ rest) (utf8Scan upTo taken.length o rest) := by
  induction rest generalizing upTo taken o with
  | nil =>
    rw [List.append_nil]
    rcases h with ⟨rfl, rfl⟩ | ⟨hreads, ho⟩
    · exact ⟨[], rfl⟩
    · rw [utf8Scan, if_neg ho]
      refine ⟨[], taken, [], by simp, rfl, maximal_of_stuck hreads ho ?_, .inr ⟨rfl, rfl⟩⟩
      intro more hmore hpre
      exact absurd (List.prefix_nil.mp hpre) hmore
  | cons b rest ih =>
    -- one more byte of the character, which may complete it
    have hgo : ∀ o', reads (taken ++ [b]) = some o' →
        Scanned upTo (taken ++ b :: rest)
          (if o'.more = 0 then utf8Scan (upTo + taken.length + 1) 0 o' rest
            else utf8Scan upTo (taken.length + 1) o' rest) := by
      intro o' hread
      have hsplit : taken ++ b :: rest = (taken ++ [b]) ++ rest := by simp
      by_cases hmore : o'.more = 0
      · obtain ⟨c, hc⟩ := encode_of_reads hread hmore
        have htails : o' = tails 0 := by
          have hchar := reads_encode c
          rw [hc, hread] at hchar
          exact Option.some.inj hchar
        have hsize : taken.length + 1 = c.utf8Size := by
          rw [← String.length_utf8EncodeChar, hc, List.length_append, List.length_singleton]
        rw [if_pos hmore, hsplit, ← hc, Nat.add_assoc, hsize]
        exact (ih _ (.inl ⟨rfl, htails⟩)).cons c
      · rw [if_neg hmore, hsplit]
        have hstep := ih upTo (.inr ⟨hread, hmore⟩)
        rwa [List.length_append, List.length_singleton] at hstep
    rcases h with ⟨rfl, rfl⟩ | ⟨hreads, ho⟩
    · rw [utf8Scan, if_pos (tails_more 0)]
      cases hfirst : first b.toNat with
      | none => exact ⟨[], [b], rest, rfl, rfl, maximal_of_first hfirst rest, .inl rfl⟩
      | some o' =>
        refine hgo o' ?_
        rw [List.nil_append, reads, hfirst]
        rfl
    · have hne : taken ≠ [] := by
        rintro rfl
        exact absurd hreads (by simp [reads])
      rw [utf8Scan, if_neg ho]
      cases hnext : o.next b.toNat with
      | none =>
        refine ⟨[], taken, b :: rest, rfl, rfl, maximal_of_stuck hreads ho ?_, .inl rfl⟩
        intro more hmore hpre
        cases more with
        | nil => exact absurd rfl hmore
        | cons d more =>
          obtain rfl := (List.cons_prefix_cons.mp hpre).1
          rw [follow, hnext]
          rfl
      | some o' =>
        refine hgo o' ?_
        rw [reads_append hne, hreads, Option.bind_some, follow, hnext]
        rfl

theorem utf8Error_scanned (bytes : List UInt8) : Scanned 0 bytes (utf8Error bytes) :=
  utf8Scan_scanned 0 (.inl ⟨rfl, rfl⟩) bytes

/-- The bytes are accepted when they are those of a text. -/
theorem utf8Error_eq_none_iff {bytes : List UInt8} :
    utf8Error bytes = none ↔ ∃ cs, bytes = utf8 cs := by
  constructor
  · intro h
    have hscan := utf8Error_scanned bytes
    rwa [h] at hscan
  · rintro ⟨cs, rfl⟩
    have hscan := utf8Error_scanned (utf8 cs)
    cases h : utf8Error (utf8 cs) with
    | none => rfl
    | some e =>
      rw [h] at hscan
      obtain ⟨ds, bad, rest, heq, -, hmax, -⟩ := hscan
      obtain ⟨es, hes⟩ := utf8_of_append heq.symm
      cases es with
      | nil => exact absurd (List.append_eq_nil_iff.mp hes).1 hmax.nonempty
      | cons c es => exact absurd ⟨utf8 es, hes.symm⟩ (hmax.no_char c)

/-- Otherwise the characters end where an invalid sequence begins. -/
theorem utf8Error_eq_some {bytes : List UInt8} {e : Utf8Error} (h : utf8Error bytes = some e) :
    ∃ cs bad rest, bytes = utf8 cs ++ (bad ++ rest) ∧ e.validUpTo = byteLen cs ∧
      MaximalInvalid bad rest ∧ e.errorLen.getD (bytes.length - e.validUpTo) = bad.length := by
  have hscan := utf8Error_scanned bytes
  rw [h] at hscan
  obtain ⟨cs, bad, rest, rfl, hup, hmax, hlen⟩ := hscan
  rw [Nat.zero_add] at hup
  refine ⟨cs, bad, rest, rfl, hup, hmax, ?_⟩
  rcases hlen with hlen | ⟨hlen, rfl⟩
  · rw [hlen]
    rfl
  · rw [hlen, hup, Option.getD_none, List.append_nil, List.length_append, length_utf8,
      Nat.add_sub_cancel_left]

/-! ## The bytes of an invalid sequence -/

theorem encode_of_ascii {b : UInt8} (h : b.toNat < 0x80) : ∃ c, String.utf8EncodeChar c = [b] := by
  have hreads : reads [b] = some (tails 0) := by rw [reads, first_one h]; rfl
  exact encode_of_reads hreads rfl

theorem MaximalInvalid.highBit {bad rest : List UInt8} (h : MaximalInvalid bad rest) {b : UInt8}
    (hb : b ∈ bad) : 128 ≤ b.toNat := by
  by_contra hlow
  rcases h.begins with ⟨-, c, hpre⟩ | hone
  · by_cases hc : c.val.toNat ≤ 127
    · -- the character is one byte, and these bytes are all of it
      have hencode : String.utf8EncodeChar c = [UInt8.ofNat c.val.toNat] := by
        unfold String.utf8EncodeChar
        exact if_pos hc
      refine h.no_char c (List.IsPrefix.trans ?_ (List.prefix_append _ _))
      rw [hencode] at hpre ⊢
      rcases List.prefix_cons_iff.mp hpre with hnil | ⟨tail, htail, hnil⟩
      · exact absurd hnil h.nonempty
      · rw [htail]
        exact List.cons_prefix_cons.mpr ⟨rfl, List.nil_prefix⟩
    · exact hlow (highBit_of_mem_utf8EncodeChar hc (hpre.subset hb))
  · obtain ⟨d, rfl⟩ := List.length_eq_one_iff.mp hone
    obtain rfl := List.mem_singleton.mp hb
    obtain ⟨c, hc⟩ := encode_of_ascii (b := b) (by omega)
    exact h.no_char c ⟨rest, by rw [hc]⟩
