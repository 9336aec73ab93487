import Mathlib

/-! # Byte offsets into text

A text is a list of characters, and an offset counts the bytes of their UTF-8 encoding.
`prefixBytes` is the part of a text that ends at an offset, or at the last character boundary
before it.
-/

/-- The length in bytes. -/
def byteLen (cs : List Char) : Nat := (cs.map Char.utf8Size).sum

@[simp] theorem byteLen_nil : byteLen [] = 0 := rfl

@[simp] theorem byteLen_cons (c : Char) (cs : List Char) :
    byteLen (c :: cs) = c.utf8Size + byteLen cs := by
  simp [byteLen]

@[simp] theorem byteLen_append (cs ds : List Char) :
    byteLen (cs ++ ds) = byteLen cs + byteLen ds := by
  simp [byteLen]

theorem byteLen_pos {cs : List Char} (h : cs ≠ []) : 0 < byteLen cs := by
  cases cs with
  | nil => exact absurd rfl h
  | cons c cs =>
    rw [byteLen_cons]
    exact Nat.add_pos_left c.utf8Size_pos _

/-- The text before a byte offset. -/
def prefixBytes : List Char → Nat → List Char
  | [], _ => []
  | c :: cs, n => if c.utf8Size ≤ n then c :: prefixBytes cs (n - c.utf8Size) else []

/-- The text from a byte offset on. -/
def suffixBytes (cs : List Char) (n : Nat) : List Char := cs.drop (prefixBytes cs n).length

theorem prefixBytes_zero (cs : List Char) : prefixBytes cs 0 = [] := by
  cases cs with
  | nil => rfl
  | cons c cs =>
    have hpos := c.utf8Size_pos
    rw [prefixBytes, if_neg (by omega)]

@[simp] theorem prefixBytes_append (cs ds : List Char) :
    prefixBytes (cs ++ ds) (byteLen cs) = cs := by
  induction cs with
  | nil => exact prefixBytes_zero ds
  | cons c cs ih =>
    rw [List.cons_append, prefixBytes, byteLen_cons, if_pos (Nat.le_add_right _ _),
      Nat.add_sub_cancel_left, ih]

@[simp] theorem suffixBytes_append (cs ds : List Char) :
    suffixBytes (cs ++ ds) (byteLen cs) = ds := by
  rw [suffixBytes, prefixBytes_append, List.drop_left]

/-- Of two boundaries of a text, the earlier one comes first. -/
theorem prefix_of_byteLen_le {cs ds es fs : List Char} (heq : cs ++ ds = es ++ fs)
    (hle : byteLen cs ≤ byteLen es) : ∃ mid, es = cs ++ mid ∧ ds = mid ++ fs := by
  rcases List.append_eq_append_iff.mp heq with ⟨mid, hes, hds⟩ | ⟨mid, hcs, hfs⟩
  · exact ⟨mid, hes, hds⟩
  · have hmid : mid = [] := by
      by_contra hne
      have hpos := byteLen_pos hne
      rw [hcs, byteLen_append] at hle
      omega
    subst hmid
    exact ⟨[], by simpa using hcs.symm, by simpa using hfs.symm⟩
