import Ry.Lib.Bytes

/-! # Slices of a text

The text between two byte offsets, if both are character boundaries: a slice is what stands between
what comes before it and what comes after (`slice_eq_some`).
-/

def IsCharBoundary (cs : List Char) (n : Nat) : Prop := byteLen (prefixBytes cs n) = n

instance (cs : List Char) (n : Nat) : Decidable (IsCharBoundary cs n) :=
  inferInstanceAs (Decidable (_ = _))

/-- `get(start..stop)` -/
def slice (cs : List Char) (start stop : Nat) : Option (List Char) :=
  if start ≤ stop ∧ IsCharBoundary cs start ∧ IsCharBoundary cs stop then
    some ((prefixBytes cs stop).drop (prefixBytes cs start).length)
  else none

/-- Back to a character boundary, but not past `start`. -/
def backToBoundary (cs : List Char) (start : Nat) : Nat → Nat
  | 0 => 0
  | stop + 1 =>
    if start < stop + 1 ∧ ¬ IsCharBoundary cs (stop + 1) then backToBoundary cs start stop
    else stop + 1

section

-- The equations of these functions, derived once for the proofs that rewrite by them
attribute [local simp] slice backToBoundary

end

/-! ## Boundaries -/

theorem prefixBytes_prefix (cs : List Char) (n : Nat) : prefixBytes cs n <+: cs := by
  induction cs generalizing n with
  | nil => exact List.prefix_rfl
  | cons c cs ih =>
    rw [prefixBytes]
    by_cases hc : c.utf8Size ≤ n
    · rw [if_pos hc]
      exact (List.prefix_cons_inj c).mpr (ih _)
    · rw [if_neg hc]
      exact List.nil_prefix

/-- A boundary splits the text. -/
theorem isCharBoundary_iff {cs : List Char} {n : Nat} :
    IsCharBoundary cs n ↔ ∃ before after, cs = before ++ after ∧ byteLen before = n := by
  constructor
  · intro h
    obtain ⟨after, heq⟩ := prefixBytes_prefix cs n
    exact ⟨prefixBytes cs n, after, heq.symm, h⟩
  · rintro ⟨before, after, rfl, rfl⟩
    rw [IsCharBoundary, prefixBytes_append]

theorem isCharBoundary_append (cs ds : List Char) : IsCharBoundary (cs ++ ds) (byteLen cs) :=
  isCharBoundary_iff.mpr ⟨cs, ds, rfl, rfl⟩

theorem isCharBoundary_append_add {cs ds : List Char} {n : Nat} (h : IsCharBoundary ds n) :
    IsCharBoundary (cs ++ ds) (byteLen cs + n) := by
  obtain ⟨before, after, rfl, rfl⟩ := isCharBoundary_iff.mp h
  exact isCharBoundary_iff.mpr ⟨cs ++ before, after, (List.append_assoc _ _ _).symm,
    byteLen_append _ _⟩

/-! ## Slices -/

theorem slice_eq_some {cs text : List Char} {start stop : Nat} :
    slice cs start stop = some text ↔
      ∃ before after, cs = before ++ (text ++ after) ∧ byteLen before = start ∧
        stop = start + byteLen text := by
  constructor
  · intro h
    rw [slice] at h
    split at h
    case isFalse => cases h
    case isTrue hb =>
      obtain ⟨hle, hstart, hstop⟩ := hb
      obtain ⟨rest, hrest⟩ := prefixBytes_prefix cs start
      obtain ⟨after, hafter⟩ := prefixBytes_prefix cs stop
      obtain ⟨mid, hmid, hds⟩ := prefix_of_byteLen_le (hrest.trans hafter.symm)
        (by rw [hstart, hstop]; exact hle)
      rw [hmid, List.drop_left] at h
      obtain rfl := Option.some.inj h
      refine ⟨prefixBytes cs start, after, by rw [← hds, hrest], hstart, ?_⟩
      have hlen := congrArg byteLen hmid
      rw [byteLen_append, hstop, hstart] at hlen
      exact hlen
  · rintro ⟨before, after, rfl, rfl, rfl⟩
    have hstart : IsCharBoundary (before ++ (text ++ after)) (byteLen before) :=
      isCharBoundary_append _ _
    have hstop : prefixBytes (before ++ (text ++ after)) (byteLen before + byteLen text) =
        before ++ text := by
      rw [← List.append_assoc, ← byteLen_append, prefixBytes_append]
    rw [slice, if_pos ⟨Nat.le_add_right _ _, hstart, by rw [IsCharBoundary, hstop, byteLen_append]⟩,
      hstop, prefixBytes_append, List.drop_left]

/-- A part of a slice is a slice. -/
theorem slice_slice {cs text part : List Char} {start stop first last : Nat}
    (h : slice cs start stop = some text) (hpart : slice text first last = some part) :
    slice cs (start + first) (start + last) = some part := by
  obtain ⟨before, after, rfl, rfl, -⟩ := slice_eq_some.mp h
  obtain ⟨before', after', rfl, rfl, rfl⟩ := slice_eq_some.mp hpart
  refine slice_eq_some.mpr ⟨before ++ before', after' ++ after, by simp, byteLen_append _ _, ?_⟩
  rw [Nat.add_assoc]

theorem IsCharBoundary.of_slice {cs text : List Char} {start stop : Nat}
    (h : slice cs start stop = some text) : IsCharBoundary cs start ∧ IsCharBoundary cs stop := by
  obtain ⟨before, after, rfl, rfl, rfl⟩ := slice_eq_some.mp h
  refine ⟨isCharBoundary_append _ _, ?_⟩
  rw [← List.append_assoc, ← byteLen_append]
  exact isCharBoundary_append _ _

theorem exists_slice {cs : List Char} {start stop : Nat} (hle : start ≤ stop)
    (hstart : IsCharBoundary cs start) (hstop : IsCharBoundary cs stop) :
    ∃ text, slice cs start stop = some text :=
  ⟨_, if_pos ⟨hle, hstart, hstop⟩⟩

theorem byteLen_of_slice {cs text : List Char} {start stop : Nat}
    (h : slice cs start stop = some text) : start + byteLen text = stop := by
  obtain ⟨-, -, -, -, hstop⟩ := slice_eq_some.mp h
  exact hstop.symm

/-! ## Going back to a boundary -/

theorem backToBoundary_le (cs : List Char) (start stop : Nat) :
    backToBoundary cs start stop ≤ stop := by
  induction stop with
  | zero => exact Nat.le_refl _
  | succ stop ih =>
    rw [backToBoundary]
    split
    · exact Nat.le_succ_of_le ih
    · exact Nat.le_refl _

theorem le_backToBoundary {cs : List Char} {start stop : Nat} (hle : start ≤ stop) :
    start ≤ backToBoundary cs start stop := by
  induction stop with
  | zero => exact hle
  | succ stop ih =>
    rw [backToBoundary]
    split
    next h => exact ih (Nat.le_of_lt_succ h.1)
    next => exact hle

theorem isCharBoundary_backToBoundary {cs : List Char} {start stop : Nat}
    (hstart : IsCharBoundary cs start) (hle : start ≤ stop) :
    IsCharBoundary cs (backToBoundary cs start stop) := by
  induction stop with
  | zero =>
    rw [Nat.le_zero.mp hle] at hstart
    exact hstart
  | succ stop ih =>
    rw [backToBoundary]
    split
    next h => exact ih (Nat.le_of_lt_succ h.1)
    next h =>
      rcases Nat.lt_or_ge start (stop + 1) with hlt | hge
      · exact Decidable.not_not.mp fun hnot => h ⟨hlt, hnot⟩
      · rw [Nat.le_antisymm hle hge] at hstart
        exact hstart

theorem backToBoundary_of_boundary {cs : List Char} {start stop : Nat}
    (h : IsCharBoundary cs stop) : backToBoundary cs start stop = stop := by
  cases stop with
  | zero => rfl
  | succ stop => rw [backToBoundary, if_neg fun hback => hback.2 h]
