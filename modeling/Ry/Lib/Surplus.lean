import Mathlib.Data.Multiset.Count
import Mathlib.Data.Multiset.AddSub
import Mathlib.Data.Multiset.Filter

/-! # Counted difference of a list

`surplus key allowance xs` drops the first `allowance k` items of every key `k` and keeps the
rest in order: a multiset difference that says which occurrences stay.
-/

variable {A K : Type} [DecidableEq K]

/-- What is left of a list when each key may use up its allowance. -/
def surplus (key : A → K) (allowance : K → Nat) : List A → List A
  | [] => []
  | x :: xs =>
    if 0 < allowance (key x) then
      surplus key (Function.update allowance (key x) (allowance (key x) - 1)) xs
    else x :: surplus key allowance xs

variable {key : A → K} {allowance : K → Nat}

theorem surplus_sublist (xs : List A) : (surplus key allowance xs).Sublist xs := by
  induction xs generalizing allowance with
  | nil => exact List.Sublist.slnil
  | cons x xs ih =>
    rw [surplus]
    split
    · exact (ih).cons x
    · exact (ih).cons_cons x

/-- Of each key, the later items stay. -/
theorem filter_surplus (k : K) (xs : List A) :
    (surplus key allowance xs).filter (key · = k) =
      (xs.filter (key · = k)).drop (allowance k) := by
  induction xs generalizing allowance with
  | nil => rw [surplus, List.filter_nil, List.drop_nil]
  | cons x xs ih =>
    rw [surplus]
    by_cases hk : key x = k
    · subst hk
      rw [List.filter_cons_of_pos (by simp)]
      by_cases hpos : 0 < allowance (key x)
      · obtain ⟨n, hn⟩ := Nat.exists_eq_add_of_lt hpos
        rw [if_pos hpos, ih, Function.update_self, hn, Nat.zero_add, Nat.add_sub_cancel,
          List.drop_succ_cons]
      · have hzero : allowance (key x) = 0 := Nat.eq_zero_of_not_pos hpos
        rw [if_neg hpos, List.filter_cons_of_pos (by simp), ih, hzero, List.drop_zero,
          List.drop_zero]
    · have hskip : ∀ ys, (x :: ys).filter (key · = k) = ys.filter (key · = k) := fun ys =>
        List.filter_cons_of_neg (by simpa using hk)
      rw [hskip]
      split
      · rw [ih, Function.update_of_ne fun h => hk h.symm]
      · rw [hskip, ih]

/-- How many items of a key there are. -/
theorem count_map_eq_length_filter (k : K) (xs : List A) :
    (xs.map key).count k = (xs.filter (key · = k)).length := by
  rw [List.count, List.countP_map, List.countP_eq_length_filter]
  rfl

/-- The keys that stay are the multiset difference. -/
theorem map_surplus (allowed : Multiset K) (xs : List A) :
    (↑((surplus key (fun k => allowed.count k) xs).map key) : Multiset K) =
      ↑(xs.map key) - allowed := by
  refine Multiset.ext.mpr fun k => ?_
  rw [Multiset.count_sub, Multiset.coe_count, Multiset.coe_count, count_map_eq_length_filter,
    count_map_eq_length_filter, filter_surplus, List.length_drop]

/-- Nothing stays when no key has more items than its allowance. -/
theorem surplus_eq_nil {xs : List A} (h : ∀ k, (xs.map key).count k ≤ allowance k) :
    surplus key allowance xs = [] := by
  rw [List.eq_nil_iff_forall_not_mem]
  intro x hx
  have hkept : x ∈ (surplus key allowance xs).filter (key · = key x) :=
    List.mem_filter.mpr ⟨hx, by simp⟩
  rw [filter_surplus, List.drop_eq_nil_of_le (count_map_eq_length_filter (key x) xs ▸ h (key x))]
    at hkept
  exact nomatch hkept

/-- An allowance used up by the items in front leaves the rest. -/
theorem surplus_append (xs ys : List A) :
    surplus key (fun k => (xs.map key).count k) (xs ++ ys) = ys := by
  induction xs with
  | nil =>
    induction ys with
    | nil => rfl
    | cons y ys ih => rw [List.nil_append, surplus, if_neg (by simp)]; exact congrArg (y :: ·) ih
  | cons x xs ih =>
    have hself : ((x :: xs).map key).count (key x) = (xs.map key).count (key x) + 1 := by
      rw [List.map_cons, List.count_cons_self]
    have hrest : Function.update (fun k => ((x :: xs).map key).count k) (key x)
        (((x :: xs).map key).count (key x) - 1) = fun k => (xs.map key).count k := by
      funext k
      by_cases hk : k = key x
      · rw [hk, Function.update_self, hself, Nat.add_sub_cancel]
      · rw [Function.update_of_ne hk, List.map_cons, List.count_cons_of_ne (Ne.symm hk)]
    rw [List.cons_append, surplus, if_pos (hself ▸ Nat.succ_pos _), hrest, ih]

/-! ## Parts with keys of their own -/

/-- Only the keys of the list matter. -/
theorem surplus_congr {allowance' : K → Nat} {xs : List A}
    (h : ∀ x ∈ xs, allowance (key x) = allowance' (key x)) :
    surplus key allowance xs = surplus key allowance' xs := by
  induction xs generalizing allowance allowance' with
  | nil => rfl
  | cons x xs ih =>
    have hx := h x List.mem_cons_self
    rw [surplus, surplus, hx]
    split
    · refine ih fun y hy => ?_
      rw [Function.update_apply, Function.update_apply, h y (List.mem_cons_of_mem x hy)]
    · exact congrArg (x :: ·) (ih fun y hy => h y (List.mem_cons_of_mem x hy))

/-- Two parts without a common key do not share an allowance. -/
theorem surplus_append_of_disjoint {xs ys : List A} (h : ∀ x ∈ xs, ∀ y ∈ ys, key x ≠ key y) :
    surplus key allowance (xs ++ ys) =
      surplus key allowance xs ++ surplus key allowance ys := by
  induction xs generalizing allowance with
  | nil => rfl
  | cons x xs ih =>
    have hrest : ∀ z ∈ xs, ∀ y ∈ ys, key z ≠ key y :=
      fun z hz => h z (List.mem_cons_of_mem x hz)
    rw [List.cons_append, surplus, surplus]
    split
    · rw [ih hrest]
      refine congrArg (_ ++ ·) (surplus_congr fun y hy => ?_)
      exact Function.update_of_ne (h x List.mem_cons_self y hy).symm _ _
    · rw [ih hrest]
      rfl
