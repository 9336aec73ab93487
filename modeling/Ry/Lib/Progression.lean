import Mathlib.Algebra.Order.Ring.Int
import Mathlib.Tactic.Linarith

/-! # Arithmetic progressions

The terms from one number on in equal steps, and the progression that goes from one end as far
as the other allows: by a given step (`StepsTo`), or by ones in whichever direction the other
end lies (`span`).
-/

namespace Progression

variable {a b d x : ℤ} {n : ℕ}

/-- `a`, `a + d`, ..., `a + n * d` -/
def terms (a d : ℤ) (n : ℕ) : List ℤ := (List.range (n + 1)).map fun k : ℕ => a + k * d

theorem mem_terms : x ∈ terms a d n ↔ ∃ k : ℕ, k ≤ n ∧ x = a + k * d := by
  simp only [terms, List.mem_map, List.mem_range, Nat.lt_succ_iff]
  constructor
  · rintro ⟨k, hk, rfl⟩
    exact ⟨k, hk, rfl⟩
  · rintro ⟨k, hk, rfl⟩
    exact ⟨k, hk, rfl⟩

theorem first_mem_terms (a d : ℤ) (n : ℕ) : a ∈ terms a d n :=
  mem_terms.mpr ⟨0, n.zero_le, by simp⟩

theorem last_mem_terms (a d : ℤ) (n : ℕ) : a + n * d ∈ terms a d n :=
  mem_terms.mpr ⟨n, le_rfl, rfl⟩

theorem tdiv_flip (a b d : ℤ) : (b - a).tdiv d = (a - b).tdiv (-d) := by
  rw [Int.tdiv_neg, ← Int.neg_tdiv, neg_sub]

/-- `n` steps of `d` lead from `a` towards `b` and not past it, and one more would. -/
def Reaches (a b d : ℤ) (n : ℕ) : Prop :=
  (0 < d ∧ a + n * d ≤ b ∧ b < a + (n + 1) * d) ∨ (d < 0 ∧ b ≤ a + n * d ∧ a + (n + 1) * d < b)

/-- The number of steps is the truncated quotient of the distance by the step. -/
theorem Reaches.tdiv_eq (h : Reaches a b d n) : (b - a).tdiv d = n := by
  rcases h with ⟨hpos, hle, hlt⟩ | ⟨hneg, hle, hlt⟩
  · have hn : (0 : ℤ) ≤ n * d := mul_nonneg n.cast_nonneg hpos.le
    have hdistance : 0 ≤ b - a := by omega
    rw [Int.tdiv_eq_ediv_of_nonneg hdistance]
    refine Int.ediv_eq_iff_of_pos hpos |>.mpr ⟨by linarith, by linarith⟩
  · have hpos : 0 < -d := by omega
    have hn : (n : ℤ) * d ≤ 0 := mul_nonpos_of_nonneg_of_nonpos n.cast_nonneg hneg.le
    have hdistance : 0 ≤ a - b := by omega
    rw [tdiv_flip, Int.tdiv_eq_ediv_of_nonneg hdistance]
    refine Int.ediv_eq_iff_of_pos hpos |>.mpr ⟨by linarith, by linarith⟩

theorem tdiv_mul_between {distance d : ℤ} (hdistance : 0 ≤ distance)
    (hsteps : 0 ≤ distance.tdiv d) :
    0 ≤ distance.tdiv d * d ∧ distance.tdiv d * d ≤ distance := by
  have hle : distance.tdiv d * d ≤ distance := by
    rw [Int.mul_comm]
    exact Int.mul_tdiv_self_le hdistance
  refine ⟨?_, hle⟩
  by_cases hd : 0 ≤ d
  · exact mul_nonneg hsteps hd
  · -- a step the other way leads nowhere
    have hback : 0 ≤ distance.tdiv (-d) := Int.tdiv_nonneg hdistance (by omega)
    rw [Int.tdiv_neg] at hback
    have hzero : distance.tdiv d = 0 := by omega
    rw [hzero, zero_mul]

/-- The last of the steps that the truncated quotient counts lies between the ends. -/
theorem last_between (hsteps : 0 ≤ (b - a).tdiv d) :
    min a b ≤ a + (b - a).tdiv d * d ∧ a + (b - a).tdiv d * d ≤ max a b := by
  rcases le_total a b with hab | hba
  · obtain ⟨hlow, hhigh⟩ := tdiv_mul_between (by omega) hsteps
    rw [min_eq_left hab, max_eq_right hab]
    omega
  · rw [tdiv_flip] at hsteps ⊢
    obtain ⟨hlow, hhigh⟩ := tdiv_mul_between (by omega) hsteps
    rw [mul_neg] at hlow hhigh
    rw [min_eq_right hba, max_eq_left hba]
    omega

/-- What goes from `a` towards `b` in steps of `d`; without a step there is only one term. -/
inductive StepsTo (a b d : ℤ) : List ℤ → Prop
  | steps (n : ℕ) (h : Reaches a b d n) : StepsTo a b d (terms a d n)
  | still (h : d = 0) (hab : a = b) : StepsTo a b d [a]

/-- `a`, ..., `b` by ones, up or down. -/
def span (a b : ℤ) : List ℤ := terms a (if a ≤ b then 1 else -1) (b - a).natAbs

theorem first_mem_span (a b : ℤ) : a ∈ span a b := first_mem_terms a _ _

theorem last_mem_span (a b : ℤ) : b ∈ span a b := by
  have hlast := last_mem_terms a (if a ≤ b then 1 else -1) (b - a).natAbs
  by_cases hab : a ≤ b
  · rw [if_pos hab] at hlast
    have heq : a + ((b - a).natAbs : ℤ) * 1 = b := by omega
    rw [heq] at hlast
    rw [span, if_pos hab]
    exact hlast
  · rw [if_neg hab] at hlast
    have heq : a + ((b - a).natAbs : ℤ) * -1 = b := by omega
    rw [heq] at hlast
    rw [span, if_neg hab]
    exact hlast

/-- A term on either side of zero. -/
def Mixed (l : List ℤ) : Prop := (∃ x ∈ l, x < 0) ∧ ∃ x ∈ l, 0 < x

theorem mixed_of_mem {l : List ℤ} (ha : a ∈ l) (hb : b ∈ l)
    (h : (0 < a ∧ b < 0) ∨ (a < 0 ∧ 0 < b)) : Mixed l := by
  rcases h with ⟨hpos, hneg⟩ | ⟨hneg, hpos⟩
  · exact ⟨⟨b, hb, hneg⟩, ⟨a, ha, hpos⟩⟩
  · exact ⟨⟨a, ha, hneg⟩, ⟨b, hb, hpos⟩⟩

/-- Both signs take more than one term. -/
theorem Mixed.length_ne_one {l : List ℤ} (h : Mixed l) : l.length ≠ 1 := by
  intro hlength
  obtain ⟨x, rfl⟩ := List.length_eq_one_iff.mp hlength
  obtain ⟨⟨y, hy, hneg⟩, ⟨z, hz, hpos⟩⟩ := h
  rw [List.mem_singleton] at hy hz
  omega

end Progression
