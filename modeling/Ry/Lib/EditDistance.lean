import Mathlib.Data.List.Basic
import Mathlib.Order.Lattice.Nat

/-! # The Levenshtein distance of two lists

The least number of insertions, deletions and substitutions of one element that turn one list into
the other.  `distance` computes it by the first elements of the lists; a computation that goes through
them in order needs it by the last ones, `levenshtein_concat`.
-/

namespace EditDistance

variable {α : Type}

/-- One element inserted, deleted or replaced. -/
inductive Edit : List α → List α → Prop
  | insert (pre post : List α) (x : α) : Edit (pre ++ post) (pre ++ x :: post)
  | delete (pre post : List α) (x : α) : Edit (pre ++ x :: post) (pre ++ post)
  | replace (pre post : List α) (x y : α) : Edit (pre ++ x :: post) (pre ++ y :: post)

/-- The second list comes of the first in `n` edits. -/
inductive Edits : Nat → List α → List α → Prop
  | refl (xs : List α) : Edits 0 xs xs
  | step {n : Nat} {xs ys zs : List α} : Edit xs ys → Edits n ys zs → Edits (n + 1) xs zs

noncomputable def levenshtein (xs ys : List α) : Nat := sInf {n | Edits n xs ys}

theorem Edit.cons {xs ys : List α} (x : α) (h : Edit xs ys) : Edit (x :: xs) (x :: ys) := by
  cases h with
  | insert pre post y => exact .insert (x :: pre) post y
  | delete pre post y => exact .delete (x :: pre) post y
  | replace pre post y z => exact .replace (x :: pre) post y z

theorem Edit.reverse {xs ys : List α} (h : Edit xs ys) : Edit xs.reverse ys.reverse := by
  cases h with
  | insert pre post x => simpa using Edit.insert post.reverse pre.reverse x
  | delete pre post x => simpa using Edit.delete post.reverse pre.reverse x
  | replace pre post x y => simpa using Edit.replace post.reverse pre.reverse x y

theorem Edits.cons {n : Nat} {xs ys : List α} (x : α) (h : Edits n xs ys) :
    Edits n (x :: xs) (x :: ys) := by
  induction h with
  | refl xs => exact .refl _
  | step hedit _ ih => exact .step (hedit.cons x) ih

theorem Edits.reverse {n : Nat} {xs ys : List α} (h : Edits n xs ys) :
    Edits n xs.reverse ys.reverse := by
  induction h with
  | refl xs => exact .refl _
  | step hedit _ ih => exact .step hedit.reverse ih

theorem edits_insert (ys : List α) : Edits ys.length [] ys := by
  induction ys with
  | nil => exact .refl []
  | cons y ys ih => exact .step (.insert [] [] y) (ih.cons y)

theorem edits_delete (xs : List α) : Edits xs.length xs [] := by
  induction xs with
  | nil => exact .refl []
  | cons x xs ih => exact .step (.delete [] xs x) ih

theorem levenshtein_reverse (xs ys : List α) :
    levenshtein xs.reverse ys.reverse = levenshtein xs ys := by
  unfold levenshtein
  congr 1
  ext n
  constructor
  · intro h
    simpa using Edits.reverse h
  · exact Edits.reverse

/-! ## The distance by first elements -/

variable [DecidableEq α]

def distance : List α → List α → Nat
  | [], ys => ys.length
  | xs, [] => xs.length
  | x :: xs, y :: ys =>
    min (min (distance (x :: xs) ys + 1) (distance xs (y :: ys) + 1))
      (distance xs ys + if x ≠ y then 1 else 0)

@[simp] theorem distance_nil_left (ys : List α) : distance [] ys = ys.length := by
  rw [distance]

@[simp] theorem distance_nil_right (xs : List α) : distance xs [] = xs.length := by
  cases xs <;> simp [distance]

theorem distance_cons_cons (x y : α) (xs ys : List α) : distance (x :: xs) (y :: ys) =
    min (min (distance (x :: xs) ys + 1) (distance xs (y :: ys) + 1))
      (distance xs ys + if x ≠ y then 1 else 0) := by
  rw [distance]

theorem distance_self (xs : List α) : distance xs xs = 0 := by
  induction xs with
  | nil => exact distance_nil_left []
  | cons x xs ih => simp [distance_cons_cons, ih]

theorem distance_cons_left (x : α) (xs ys : List α) :
    distance (x :: xs) ys ≤ distance xs ys + 1 := by
  cases ys with
  | nil => simp
  | cons y ys =>
    rw [distance_cons_cons]
    omega

theorem distance_le_cons_left (x : α) (xs ys : List α) :
    distance xs ys ≤ distance (x :: xs) ys + 1 := by
  induction ys with
  | nil =>
    simp only [distance_nil_right, List.length_cons]
    omega
  | cons y ys ih =>
    have hright : distance xs (y :: ys) ≤ distance xs ys + 1 := by
      cases xs with
      | nil => simp
      | cons x' xs =>
        rw [distance_cons_cons]
        omega
    rw [distance_cons_cons x]
    split <;> omega

theorem distance_replace (x y : α) (xs ys : List α) :
    distance (x :: xs) ys ≤ distance (y :: xs) ys + 1 := by
  induction ys with
  | nil => simp
  | cons z zs ih =>
    rw [distance_cons_cons, distance_cons_cons]
    split <;> split <;> omega

/-- A first element that both lists have does not add to what an edit can take away. -/
theorem distance_cons_congr {xs xs' : List α} (x : α)
    (h : ∀ ys, distance xs ys ≤ distance xs' ys + 1) (ys : List α) :
    distance (x :: xs) ys ≤ distance (x :: xs') ys + 1 := by
  induction ys with
  | nil => simpa using h []
  | cons y ys ih =>
    have hall := h (y :: ys)
    have htail := h ys
    rw [distance_cons_cons, distance_cons_cons]
    omega

/-- One edit takes at most one away. -/
theorem Edit.distance_le {xs xs' : List α} (h : Edit xs xs') (ys : List α) :
    distance xs ys ≤ distance xs' ys + 1 := by
  have hprefix (pre : List α) : ∀ {zs zs' : List α},
      (∀ ys, distance zs ys ≤ distance zs' ys + 1) →
        ∀ ys, distance (pre ++ zs) ys ≤ distance (pre ++ zs') ys + 1 := by
    induction pre with
    | nil => exact id
    | cons x pre ih => exact fun hzs => distance_cons_congr x (ih hzs)
  cases h with
  | insert pre post x => exact hprefix pre (distance_le_cons_left x post) ys
  | delete pre post x => exact hprefix pre (distance_cons_left x post) ys
  | replace pre post x y => exact hprefix pre (distance_replace x y post) ys

theorem Edits.distance_le {n : Nat} {xs ys : List α} (h : Edits n xs ys) : distance xs ys ≤ n := by
  induction h with
  | refl xs => exact (distance_self xs).le
  | step hedit _ ih =>
    have := hedit.distance_le
    exact (this _).trans (Nat.succ_le_succ ih)

/-- The distance is that of a sequence of edits. -/
theorem edits_distance (xs ys : List α) : Edits (distance xs ys) xs ys := by
  induction xs, ys using distance.induct with
  | case1 ys => simpa using edits_insert ys
  | case2 xs _ => simpa using edits_delete xs
  | case3 x xs y ys hinsert hdelete hkeep =>
    rw [distance_cons_cons]
    rcases min_choice (min (distance (x :: xs) ys + 1) (distance xs (y :: ys) + 1))
      (distance xs ys + if x ≠ y then 1 else 0) with h | h
    · rw [h]
      rcases min_choice (distance (x :: xs) ys + 1) (distance xs (y :: ys) + 1) with h | h
      · rw [h]
        exact .step (.insert [] (x :: xs) y) (hinsert.cons y)
      · rw [h]
        exact .step (.delete [] xs x) hdelete
    · rw [h]
      by_cases hxy : x = y
      · subst hxy
        simpa using hkeep.cons x
      · rw [if_pos hxy]
        exact .step (.replace [] xs x y) (hkeep.cons y)

theorem levenshtein_eq (xs ys : List α) : levenshtein xs ys = distance xs ys := by
  refine le_antisymm (Nat.sInf_le (edits_distance xs ys)) ?_
  exact le_csInf ⟨_, edits_distance xs ys⟩ fun n h => Edits.distance_le h

/-! ## The distance by last elements -/

theorem levenshtein_nil_left (ys : List α) : levenshtein [] ys = ys.length := by
  rw [levenshtein_eq, distance_nil_left]

theorem levenshtein_nil_right (xs : List α) : levenshtein xs [] = xs.length := by
  rw [levenshtein_eq, distance_nil_right]

theorem levenshtein_concat (xs ys : List α) (x y : α) :
    levenshtein (xs ++ [x]) (ys ++ [y]) =
      min (min (levenshtein (xs ++ [x]) ys + 1) (levenshtein xs (ys ++ [y]) + 1))
        (levenshtein xs ys + if x ≠ y then 1 else 0) := by
  have hback (xs ys : List α) : levenshtein xs ys = distance xs.reverse ys.reverse := by
    rw [← levenshtein_reverse, levenshtein_eq]
  simp only [hback, List.reverse_append, List.reverse_singleton, List.singleton_append,
    distance_cons_cons]

end EditDistance
