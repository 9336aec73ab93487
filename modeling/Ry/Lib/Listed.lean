import Ry.Lib.Delimited
import Mathlib.Data.List.Forall2

/-! # Lists of pieces, and debug strings

Pieces with a separator between them are told apart, with what follows the last one, where each
piece is.  A string in quotes is told apart whichever characters are escaped, the quotes, the
backslash and some controls always.
-/

namespace Listed

/-- The pieces from the `index`-th on, with the separator before every one but the first. -/
def listed {B : Type} (sep : List B) : Nat → List (List B) → List B
  | _, [] => []
  | index, piece :: pieces =>
    (if index ≠ 0 then sep else []) ++ piece ++ listed sep (index + 1) pieces

variable {A B : Type} {spell : A → List B} {sep : List B} {Stops Ends : List B → Prop}

/-- What follows a piece shows where the piece ends, where a separator does and the end does. -/
theorem stops_listed (hsep : ∀ z, Stops (sep ++ z)) (hend : ∀ z, Ends z → Stops z) {x : List B}
    (hx : Ends x) {index : Nat} (hindex : index ≠ 0) (as : List A) :
    Stops (listed sep index (as.map spell) ++ x) := by
  cases as with
  | nil => exact hend x hx
  | cons a as =>
    rw [List.map_cons, listed, if_pos hindex, List.append_assoc, List.append_assoc]
    exact hsep _

/-- Two lists of pieces before an end that begins neither like a separator nor like a piece. -/
theorem listed_append_inj {R : A → A → Prop} (hsep : ∀ z, Stops (sep ++ z))
    (hend : ∀ z, Ends z → Stops z) (hsepEnd : ∀ z, ¬Ends (sep ++ z))
    (hpiece : ∀ a z, ¬Ends (spell a ++ z)) {as bs : List A}
    (hspell : ∀ a ∈ as, ∀ b x y, Stops x → Stops y → spell a ++ x = spell b ++ y →
      R a b ∧ x = y) {index : Nat} {x y : List B} (hx : Ends x) (hy : Ends y)
    (h : listed sep index (as.map spell) ++ x = listed sep index (bs.map spell) ++ y) :
    List.Forall₂ R as bs ∧ x = y := by
  have hopen (b : A) (bs : List A) (index : Nat) (z : List B) :
      ¬Ends (listed sep index ((b :: bs).map spell) ++ z) := by
    rw [List.map_cons, listed, List.append_assoc, List.append_assoc]
    split
    · exact hsepEnd _
    · exact hpiece b _
  induction as generalizing bs index with
  | nil =>
    cases bs with
    | nil => exact ⟨.nil, h⟩
    | cons b bs => exact absurd (h ▸ hx) (hopen b bs index y)
  | cons a as ih =>
    cases bs with
    | nil => exact absurd (h ▸ hy) (hopen a as index x)
    | cons b bs =>
      obtain ⟨ha, has⟩ := List.forall_mem_cons.mp hspell
      simp only [List.map_cons, listed, List.append_assoc, List.append_cancel_left_eq] at h
      obtain ⟨hab, hrest⟩ := ha b _ _ (stops_listed hsep hend hx (Nat.succ_ne_zero index) as)
        (stops_listed hsep hend hy (Nat.succ_ne_zero index) bs) h
      obtain ⟨hall, hxy⟩ := ih has hrest
      exact ⟨.cons hab hall, hxy⟩

/-! ## Numbers in base sixteen -/

theorem digitChar_injective {m n : Nat} (hm : m < 16) (hn : n < 16)
    (h : Nat.digitChar m = Nat.digitChar n) : m = n := by
  interval_cases m <;> interval_cases n <;> first | rfl | exact absurd h (by decide)

theorem toDigits_sixteen (n : Nat) : Nat.toDigits 16 n =
    (if n < 16 then [] else Nat.toDigits 16 (n / 16)) ++ [Nat.digitChar (n % 16)] := by
  rw [Nat.toDigits_eq_if (by decide)]
  split
  · rename_i h
    rw [Nat.mod_eq_of_lt h, List.nil_append]
  · rfl

theorem toDigits_sixteen_injective {m n : Nat} (h : Nat.toDigits 16 m = Nat.toDigits 16 n) :
    m = n := by
  induction m using Nat.strong_induction_on generalizing n with
  | h m ih =>
    rw [toDigits_sixteen m, toDigits_sixteen n] at h
    obtain ⟨hfront, hlast⟩ := List.append_inj' h rfl
    have hmod : m % 16 = n % 16 :=
      digitChar_injective (Nat.mod_lt _ (by decide)) (Nat.mod_lt _ (by decide))
        (List.singleton_inj.mp hlast)
    have hdiv : m / 16 = n / 16 := by
      by_cases hm : m < 16
      · by_cases hn : n < 16
        · rw [Nat.div_eq_of_lt hm, Nat.div_eq_of_lt hn]
        · rw [if_pos hm, if_neg hn] at hfront
          exact absurd hfront.symm Nat.toDigits_ne_nil
      · by_cases hn : n < 16
        · rw [if_neg hm, if_pos hn] at hfront
          exact absurd hfront Nat.toDigits_ne_nil
        · rw [if_neg hm, if_neg hn] at hfront
          exact ih (m / 16) (Nat.div_lt_self (by omega) (by decide)) hfront
    omega

theorem not_mem_toDigits_sixteen {c : Char} (hc : ∀ n < 16, Nat.digitChar n ≠ c) (n : Nat) :
    c ∉ Nat.toDigits 16 n := by
  induction n using Nat.strong_induction_on with
  | h n ih =>
    have hlast : c ≠ Nat.digitChar (n % 16) := (hc _ (Nat.mod_lt _ (by decide))).symm
    rw [toDigits_sixteen]
    split
    · simpa using hlast
    · rename_i hn
      simp only [List.mem_append, List.mem_singleton, not_or]
      exact ⟨ih (n / 16) (Nat.div_lt_self (by omega) (by decide)), hlast⟩

end Listed
