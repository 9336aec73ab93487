import Mathlib.Data.List.TakeWhile

/-! # Partition points

Of a sorted list, how many entries come first that satisfy a bound, and the last of them.
-/

/-- `partition_point`, of a slice that is partitioned. -/
def partitionPoint {A : Type} (p : A → Bool) (xs : List A) : Nat := (xs.takeWhile p).length

/-- The entry before the partition point. -/
def lastWhere {A : Type} (p : A → Bool) (xs : List A) : Option A :=
  match partitionPoint p xs with
  | 0 => none
  | i + 1 => xs[i]?

variable {A : Type} {p : A → Bool} {xs ys : List A} {x : A}

theorem partitionPoint_le_length : partitionPoint p xs ≤ xs.length :=
  (List.takeWhile_prefix p).length_le

theorem partitionPoint_mono {q : A → Bool} (h : ∀ x ∈ xs, p x → q x) :
    partitionPoint p xs ≤ partitionPoint q xs := by
  unfold partitionPoint
  induction xs with
  | nil => exact Nat.le_refl _
  | cons x xs ih =>
    by_cases hp : p x
    · rw [List.takeWhile_cons_of_pos hp, List.takeWhile_cons_of_pos (h x List.mem_cons_self hp)]
      exact Nat.succ_le_succ (ih fun y hy => h y (List.mem_cons_of_mem _ hy))
    · rw [List.takeWhile_cons_of_neg hp]
      exact Nat.zero_le _

/-- An index before the point is that of an entry that satisfies the bound. -/
theorem lt_partitionPoint_iff (h : xs.Pairwise fun a b => p b → p a) {i : Nat} :
    i < partitionPoint p xs ↔ ∃ x, xs[i]? = some x ∧ p x = true := by
  unfold partitionPoint
  induction xs generalizing i with
  | nil => simp
  | cons y ys ih =>
    rw [List.pairwise_cons] at h
    by_cases hy : p y
    · rw [List.takeWhile_cons_of_pos hy, List.length_cons]
      cases i with
      | zero => simp [hy]
      | succ i => rw [List.getElem?_cons_succ, ← ih h.2, Nat.succ_lt_succ_iff]
    · rw [List.takeWhile_cons_of_neg hy]
      constructor
      · intro hlt
        exact absurd hlt (Nat.not_lt_zero _)
      · rintro ⟨x, hx, hpx⟩
        cases i with
        | zero =>
          obtain rfl : y = x := by simpa using hx
          exact absurd hpx hy
        | succ i => exact absurd (h.1 x (List.mem_of_getElem? hx) hpx) hy

theorem mem_of_lastWhere (h : lastWhere p xs = some x) : x ∈ xs := by
  unfold lastWhere at h
  split at h
  · exact absurd h (by simp)
  · exact List.mem_of_getElem? h

theorem lastWhere_append (hxs : ∀ a ∈ xs, p a) (hx : p x) (hys : ∀ a ∈ ys, ¬ p a) :
    lastWhere p (xs ++ x :: ys) = some x := by
  have htake : (xs ++ x :: ys).takeWhile p = xs ++ [x] := by
    have hsplit : xs ++ x :: ys = (xs ++ [x]) ++ ys := by simp
    have hall : ∀ a ∈ xs ++ [x], p a := by
      intro a ha
      rcases List.mem_append.mp ha with ha | ha
      · exact hxs a ha
      · exact List.mem_singleton.mp ha ▸ hx
    have hnone : ys.takeWhile p = [] := by
      cases ys with
      | nil => rfl
      | cons y ys => exact List.takeWhile_cons_of_neg (hys y List.mem_cons_self)
    rw [hsplit, List.takeWhile_append_of_pos hall, hnone, List.append_nil]
  have hpoint : partitionPoint p (xs ++ x :: ys) = xs.length + 1 := by
    rw [partitionPoint, htake, List.length_append, List.length_singleton]
  rw [lastWhere, hpoint]
  simp

/-- In a list sorted by a key, where no later entry has a key this small. -/
theorem lastWhere_sorted {key : A → Nat} {bound : Nat}
    (hsorted : xs.Pairwise fun a b => key a ≤ key b) (hx : x ∈ xs) (hbound : key x ≤ bound)
    (hlast : ∀ before after, xs = before ++ x :: after → ∀ a ∈ after, bound < key a) :
    lastWhere (fun a => decide (key a ≤ bound)) xs = some x := by
  obtain ⟨before, after, rfl⟩ := List.append_of_mem hx
  refine lastWhere_append ?_ (decide_eq_true hbound) ?_
  · intro a ha
    have hle : key a ≤ key x := (List.pairwise_append.mp hsorted).2.2 a ha x List.mem_cons_self
    exact decide_eq_true (Nat.le_trans hle hbound)
  · intro a ha hle
    have hlt := hlast before after rfl a ha
    have hkey : key a ≤ bound := of_decide_eq_true hle
    omega
