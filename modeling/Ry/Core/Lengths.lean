import Mathlib.Data.Set.Lattice
import Mathlib.Order.Bounds.Basic
import Mathlib.Order.CompletePartialOrder
import Ry.Core.Evidence

/-! # Lengths as sets of naturals

A `Length` stands for a set of naturals: a single length, or every length from a lower
bound on.  The spellings overlap (`zero` and `known 0`, `one` and `known 1`, `unknown` and
`atLeast 0`, `nonempty` and `atLeast 1`), so the operations are read on the sets.
Ordered by them, `join` is the least upper bound (`isLUB_join`) whatever the spellings,
and `refineAtLeast` keeps what satisfies the bound.  `binary` follows R's recycling rule
except beside `atLeast 0`, a spelling nothing builds.
-/

namespace Ry

namespace Length

def mayBeEmpty : Length → Bool
  | zero | unknown => true
  | _ => false

/-- Length of a binary operation's result given the operands' lengths. -/
def binary : Length → Length → Length
  -- `known 0` (as from `c(integer())`) is empty too
  | zero, _ | known 0, _ | _, zero | _, known 0 => zero
  | one, l | l, one => l
  | known m, known n => known (max m n)
  | atLeast m, atLeast n => atLeast (max m n)
  | atLeast m, known n | known n, atLeast m => atLeast (max m n)
  | atLeast m, nonempty | nonempty, atLeast m => atLeast m
  | nonempty, known _ | known _, nonempty | nonempty, nonempty => nonempty
  | nonempty, unknown | unknown, nonempty | known _, unknown | unknown, known _
  | atLeast _, unknown | unknown, atLeast _ | unknown, unknown => unknown

/-- The lengths a claim allows. -/
def set (l : Length) : Set Nat := {n | l.describes n = true}

@[simp] theorem mem_set (l : Length) (n : Nat) : n ∈ l.set ↔ l.describes n = true := Iff.rfl

instance (l : Length) (n : Nat) : Decidable (n ∈ l.set) :=
  inferInstanceAs (Decidable (l.describes n = true))

/-- A claim is below another when it allows fewer lengths. -/
instance : Preorder Length := Preorder.lift set

theorem le_iff (a b : Length) : a ≤ b ↔ ∀ n, a.describes n = true → b.describes n = true := Iff.rfl

@[simp] theorem describes_zero (n : Nat) : zero.describes n = true ↔ n = 0 := by
  simp [describes, exact]

@[simp] theorem describes_one (n : Nat) : one.describes n = true ↔ n = 1 := by
  simp [describes, exact]

@[simp] theorem describes_known (k n : Nat) : (known k).describes n = true ↔ n = k := by
  simp [describes, exact]

@[simp] theorem describes_unknown (n : Nat) : unknown.describes n = true := by
  simp [describes, exact, minPossible]

@[simp] theorem describes_nonempty (n : Nat) : nonempty.describes n = true ↔ 1 ≤ n :=
  decide_eq_true_iff

@[simp] theorem describes_atLeast (k n : Nat) : (atLeast k).describes n = true ↔ k ≤ n :=
  decide_eq_true_iff

theorem describes_of_exact {l : Length} {k : Nat} (h : l.exact = some k) (n : Nat) :
    l.describes n = true ↔ n = k := by
  simp [describes, h]

theorem describes_of_bound {l : Length} (h : l.exact = none) (n : Nat) :
    l.describes n = true ↔ l.minPossible ≤ n := by
  simp [describes, h]

/-- The smallest length a claim allows is one it allows. -/
theorem describes_minPossible (l : Length) : l.describes l.minPossible = true := by
  cases h : l.exact with
  | some k => rw [describes_of_exact h, minPossible_of_exact h]
  | none => rw [describes_of_bound h]

/-- Two exact claims that meet are one claim. -/
theorem exact_eq_of_le {a c : Length} {k : Nat} (h : a ≤ c) (hc : c.exact = some k) :
    a.exact = some k := by
  have hmin : a.minPossible = k := (describes_of_exact hc _).mp ((le_iff a c).mp h _ (describes_minPossible a))
  cases ha : a.exact with
  | some m => rw [← minPossible_of_exact ha, hmin]
  | none =>
    have hnext : a.describes (k + 1) = true := by
      rw [describes_of_bound ha]
      omega
    have := (describes_of_exact hc _).mp ((le_iff a c).mp h _ hnext)
    omega

/-- The join is the least upper bound the domain has. -/
theorem isLUB_join (a b : Length) : IsLUB {a, b} (a.join b) := by
  refine ⟨?_, fun c hc => ?_⟩
  · rintro l (rfl | rfl)
    · exact fun n => describes_join_left b
    · exact fun n => describes_join_right a
  · have ha : a ≤ c := hc (.inl rfl)
    have hb : b ≤ c := hc (.inr rfl)
    intro n hn
    cases hexact : c.exact with
    | some k =>
      have hjoin : (a.join b).exact = some k := by
        rw [exact_join, exact_eq_of_le ha hexact, exact_eq_of_le hb hexact, if_pos rfl]
      rwa [mem_set, describes_of_exact hexact, ← describes_of_exact hjoin]
    | none =>
      have hn := minPossible_le hn
      rw [minPossible_join] at hn
      have hamin := (describes_of_bound hexact _).mp ((le_iff a c).mp ha _ (describes_minPossible a))
      have hbmin := (describes_of_bound hexact _).mp ((le_iff b c).mp hb _ (describes_minPossible b))
      rw [mem_set, describes_of_bound hexact]
      omega

theorem set_join_comm (a b : Length) : (a.join b).set = (b.join a).set := by
  refine le_antisymm ?_ ?_
  · exact (isLUB_join a b).2 (Set.pair_comm b a ▸ (isLUB_join b a).1)
  · exact (isLUB_join b a).2 (Set.pair_comm a b ▸ (isLUB_join a b).1)

/-- Strengthening with a lower bound keeps every length that satisfies it, and of a claim
that is no exact length those only. -/
theorem describes_refineAtLeast (l : Length) (bound n : Nat) :
    (l.refineAtLeast bound).describes n = true ↔
      l.describes n = true ∧ (l.exact = none → bound ≤ n) := by
  unfold refineAtLeast
  cases h : l.exact with
  | some k => simp
  | none => simp [describes_lowerBound, describes_of_bound h]

/-- The length R recycles two operands to. -/
def recycled (m n : Nat) : Nat := if m = 0 ∨ n = 0 then 0 else max m n

theorem recycled_comm (m n : Nat) : recycled m n = recycled n m := by
  simp [recycled, or_comm, Nat.max_comm]

theorem recycled_zero_left (n : Nat) : recycled 0 n = 0 := by simp [recycled]

theorem recycled_one_left (n : Nat) : recycled 1 n = n := by
  unfold recycled
  split <;> omega

theorem recycled_of_pos {m n : Nat} (hm : 0 < m) (hn : 0 < n) : recycled m n = max m n :=
  if_neg (by omega)

theorem binary_comm (a b : Length) : a.binary b = b.binary a := by
  rcases a with _ | _ | (_ | m) | _ | _ | m <;> rcases b with _ | _ | (_ | n) | _ | _ | n <;>
    simp [binary, Nat.max_comm]

/-- What R recycles two operands to is among the lengths `binary` allows. -/
theorem describes_binary {a b : Length} {m n : Nat} (ha : a ≠ .atLeast 0) (hb : b ≠ .atLeast 0)
    (hm : a.describes m = true) (hn : b.describes n = true) :
    (a.binary b).describes (recycled m n) = true := by
  fun_cases binary a b with
  | case1 | case2 | case3 | case4 => simp_all [recycled]
  | case5 =>
    obtain rfl := (describes_one m).mp hm
    rwa [recycled_one_left]
  | case6 =>
    obtain rfl := (describes_one n).mp hn
    rwa [recycled_comm, recycled_one_left]
  | case16 | case17 | case18 | case19 | case20 | case21 | case22 => exact describes_unknown _
  | _ =>
    -- neither operand is empty, so the longer one decides
    have hpos : 0 < m ∧ 0 < n := by simp_all; omega
    rw [recycled_of_pos hpos.1 hpos.2]
    simp_all <;> omega

/-! ## The domain -/

theorem domain_sound :
    (∀ a b : Length, IsLUB {a, b} (a.join b)) ∧
    (∀ a b : Length, a ≠ .atLeast 0 → b ≠ .atLeast 0 → ∀ m ∈ a.set, ∀ n ∈ b.set,
      recycled m n ∈ (a.binary b).set) ∧
    (∀ (a : Length) (bound : Nat), {n ∈ a.set | bound ≤ n} ⊆ (a.refineAtLeast bound).set) ∧
    ∀ a b : Length, (a.join b).set = (b.join a).set ∧ (a.binary b).set = (b.binary a).set := by
  refine ⟨isLUB_join, fun a b ha hb m hm n hn => describes_binary ha hb hm hn, ?_, fun a b => ?_⟩
  · intro a bound n hn
    exact (describes_refineAtLeast a bound n).mpr ⟨hn.1, fun _ => hn.2⟩
  · exact ⟨set_join_comm a b, by rw [binary_comm]⟩

/-- A scalar beside three elements recycles to three. -/
theorem domain_sound_scalar : recycled 1 3 ∈ (nonempty.binary (known 3)).set :=
  domain_sound.2.1 .nonempty (.known 3) (by decide) (by decide) 1 (by decide) 3 (by decide)

/-- `atLeast 0` allows an empty operand, but `binary` reads it as a proven bound. -/
theorem binary_beside_atLeast_zero :
    ¬ ∀ a b : Length, ∀ m ∈ a.set, ∀ n ∈ b.set, recycled m n ∈ (a.binary b).set := by
  intro h
  have hmem := h (.atLeast 0) (.known 3) 0 (by decide) 3 (by decide)
  exact absurd hmem (by decide)

end Length
end Ry
