import Ry.Lib.Bytes
import Mathlib.Data.List.Forall2

/-! # UTF-8 bytes of a text

`utf8` is the encoding and `fromUtf8` reads it back.  `blankBytes` keeps line ends and makes a
space of every other byte; of a text it leaves a text, of as many bytes.
-/

def utf8 (cs : List Char) : List UInt8 := cs.flatMap String.utf8EncodeChar

/-- The text of these bytes, if they are one. -/
def fromUtf8 (bytes : List UInt8) : Option (List Char) :=
  bytes.toByteArray.utf8Decode?.map (·.toList)

@[simp] theorem utf8_nil : utf8 [] = [] := rfl

@[simp] theorem utf8_append (cs ds : List Char) : utf8 (cs ++ ds) = utf8 cs ++ utf8 ds :=
  List.flatMap_append

theorem utf8_cons (c : Char) (cs : List Char) :
    utf8 (c :: cs) = String.utf8EncodeChar c ++ utf8 cs := rfl

@[simp] theorem length_utf8 (cs : List Char) : (utf8 cs).length = byteLen cs := by
  induction cs with
  | nil => rfl
  | cons c cs ih =>
    rw [utf8_cons, List.length_append, String.length_utf8EncodeChar, ih, byteLen_cons]

@[simp] theorem fromUtf8_utf8 (cs : List Char) : fromUtf8 (utf8 cs) = some cs := by
  have hbytes : (utf8 cs).toByteArray = cs.utf8Encode := rfl
  rw [fromUtf8, hbytes, List.utf8Decode?_utf8Encode]
  rfl

/-- What is read is what was written. -/
theorem utf8_of_fromUtf8 {bytes : List UInt8} {cs : List Char} (h : fromUtf8 bytes = some cs) :
    utf8 cs = bytes := by
  obtain ⟨text, htext, rfl⟩ := Option.map_eq_some_iff.mp h
  have hsome : bytes.toByteArray.utf8Decode?.isSome := Option.isSome_iff_exists.mpr ⟨text, htext⟩
  have hencode : (utf8 text.toList).toByteArray = bytes.toByteArray := by
    have hget : bytes.toByteArray.utf8Decode?.get hsome = text := Option.get_of_eq_some hsome htext
    rw [← @ByteArray.utf8Encode_get_utf8Decode? bytes.toByteArray hsome, hget]
    rfl
  have hdata := congrArg (fun b => b.data.toList) hencode
  simpa using hdata

/-! ## Blanks -/

def lineFeed : UInt8 := 10

def carriageReturn : UInt8 := 13

def blank : UInt8 := 32

def blankByte (b : UInt8) : UInt8 := if b = lineFeed ∨ b = carriageReturn then b else blank

/-- What remains of a character. -/
def blankChar (c : Char) : List Char :=
  if c = '\n' ∨ c = '\r' then [c] else List.replicate c.utf8Size ' '

theorem utf8_replicate_space (n : Nat) : utf8 (List.replicate n ' ') = List.replicate n blank := by
  induction n with
  | zero => rfl
  | succ n ih =>
    rw [List.replicate_succ, List.replicate_succ, utf8_cons, ih]
    rfl

/-- Every byte of a longer encoding has its high bit. -/
theorem highBit_of_mem_utf8EncodeChar {c : Char} (hc : ¬ c.val.toNat ≤ 127) {b : UInt8}
    (hb : b ∈ String.utf8EncodeChar c) : 128 ≤ b.toNat := by
  have hhigh : ∀ n, 128 ≤ n → n < 256 → 128 ≤ (UInt8.ofNat n).toNat := by
    intro n hle hlt
    rw [UInt8.toNat_ofNat', Nat.mod_eq_of_lt hlt]
    exact hle
  unfold String.utf8EncodeChar at hb
  dsimp only at hb
  rw [if_neg hc] at hb
  split at hb
  · simp only [List.mem_cons, List.not_mem_nil, or_false] at hb
    rcases hb with rfl | rfl <;> exact hhigh _ (by omega) (by omega)
  · split at hb <;> simp only [List.mem_cons, List.not_mem_nil, or_false] at hb
    · rcases hb with rfl | rfl | rfl <;> exact hhigh _ (by omega) (by omega)
    · rcases hb with rfl | rfl | rfl | rfl <;> exact hhigh _ (by omega) (by omega)

theorem blankByte_of_highBit {b : UInt8} (hb : 128 ≤ b.toNat) : blankByte b = blank := by
  refine if_neg fun hend => ?_
  rcases hend with rfl | rfl <;> exact absurd hb (by decide)

theorem utf8_blankChar (c : Char) :
    utf8 (blankChar c) = (String.utf8EncodeChar c).map blankByte := by
  by_cases hc : c.val.toNat ≤ 127
  · -- one byte, the character's own code
    have hencode : String.utf8EncodeChar c = [UInt8.ofNat c.val.toNat] := by
      unfold String.utf8EncodeChar
      exact if_pos hc
    have hsize : c.utf8Size = 1 := by rw [← String.length_utf8EncodeChar, hencode]; rfl
    have hcode : ∀ d : Char, d.val.toNat ≤ 127 →
        (UInt8.ofNat c.val.toNat = UInt8.ofNat d.val.toNat ↔ c = d) := by
      intro d hd
      refine ⟨fun heq => ?_, fun heq => heq ▸ rfl⟩
      have hnat := congrArg UInt8.toNat heq
      rw [UInt8.toNat_ofNat', UInt8.toNat_ofNat', Nat.mod_eq_of_lt (by omega),
        Nat.mod_eq_of_lt (by omega)] at hnat
      exact Char.ext (UInt32.toNat_inj.mp hnat)
    have hends : UInt8.ofNat c.val.toNat = lineFeed ∨ UInt8.ofNat c.val.toNat = carriageReturn ↔
        c = '\n' ∨ c = '\r' := or_congr (hcode '\n' (by decide)) (hcode '\r' (by decide))
    rw [hencode, List.map_singleton]
    unfold blankChar blankByte
    by_cases hend : c = '\n' ∨ c = '\r'
    · rw [if_pos hend, if_pos (hends.mpr hend), utf8_cons, hencode]
      rfl
    · rw [if_neg hend, if_neg fun h => hend (hends.mp h), utf8_replicate_space, hsize]
      rfl
  · have hend : ¬ (c = '\n' ∨ c = '\r') := by
      rintro (rfl | rfl) <;> exact hc (by decide)
    rw [blankChar, if_neg hend, utf8_replicate_space, ← String.length_utf8EncodeChar]
    symm
    rw [List.eq_replicate_iff]
    refine ⟨List.length_map _, fun b hb => ?_⟩
    obtain ⟨b', hb', rfl⟩ := List.mem_map.mp hb
    exact blankByte_of_highBit (highBit_of_mem_utf8EncodeChar hc hb')

/-- The bytes of a text, blanked, are those of a text. -/
theorem utf8_flatMap_blankChar (cs : List Char) :
    utf8 (cs.flatMap blankChar) = (utf8 cs).map blankByte := by
  induction cs with
  | nil => rfl
  | cons c cs ih => rw [List.flatMap_cons, utf8_append, utf8_blankChar, ih, utf8_cons, List.map_append]

/-! ## Texts in parts -/

theorem byteLen_flatten (parts : List (List Char)) :
    byteLen parts.flatten = (parts.map byteLen).sum := by
  induction parts with
  | nil => rfl
  | cons part parts ih => rw [List.flatten_cons, byteLen_append, ih, List.map_cons, List.sum_cons]

@[simp] theorem byteLen_replicate (n : Nat) (c : Char) :
    byteLen (List.replicate n c) = n * c.utf8Size := by
  simp [byteLen]

/-- Take the middle of a list from another one. -/
theorem getElem?_splice {A : Type} {xs ys : List A} (hlen : xs.length = ys.length) {a b : Nat}
    (hab : a ≤ b) (hb : b ≤ xs.length) (i : Nat) :
    (xs.take a ++ (ys.drop a).take (b - a) ++ xs.drop b)[i]? =
      if a ≤ i ∧ i < b then ys[i]? else xs[i]? := by
  have hleft : (xs.take a).length = a := by simp; omega
  have hmid : ((ys.drop a).take (b - a)).length = b - a := by simp; omega
  rcases Nat.lt_or_ge i a with hia | hia
  · rw [if_neg (by omega), List.append_assoc, List.getElem?_append_left (by omega),
      List.getElem?_take_of_lt hia]
  · rcases Nat.lt_or_ge i b with hib | hib
    · rw [if_pos ⟨hia, hib⟩, List.getElem?_append_left (by simp; omega),
        List.getElem?_append_right (by omega), hleft, List.getElem?_take_of_lt (by omega),
        List.getElem?_drop]
      congr 1
      omega
    · rw [if_neg (by omega), List.getElem?_append_right (by simp; omega), List.length_append, hleft,
        hmid, List.getElem?_drop]
      congr 1
      omega

theorem utf8_flatten_take_drop (parts : List (List Char)) (k : Nat) :
    (utf8 parts.flatten).take (byteLen (parts.take k).flatten) = utf8 (parts.take k).flatten ∧
      (utf8 parts.flatten).drop (byteLen (parts.take k).flatten) = utf8 (parts.drop k).flatten := by
  have hsplit : utf8 parts.flatten = utf8 (parts.take k).flatten ++ utf8 (parts.drop k).flatten := by
    rw [← utf8_append, ← List.flatten_append, List.take_append_drop]
  rw [hsplit, ← length_utf8, List.take_left, List.drop_left]
  exact ⟨rfl, rfl⟩

theorem flatMap_flatten_blankChar (parts : List (List Char)) :
    parts.flatten.flatMap blankChar = (parts.map (·.flatMap blankChar)).flatten := by
  induction parts with
  | nil => rfl
  | cons part parts ih => rw [List.flatten_cons, List.flatMap_append, ih, List.map_cons, List.flatten_cons]
