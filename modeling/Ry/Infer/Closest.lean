import Ry.Lib.EditDistance
import Mathlib.Data.List.Range

/-! # The formal a misspelled argument may have meant

`closest_parameter` and `edit_distance` of `args.rs`: the hint of an unknown argument names the one
formal within two edits of it, where no other is as close.
-/

namespace Ry

open EditDistance

/-- The entry of the next row for one character of the right side. -/
def nextEntry (previous : List Nat) (leftChar : Char) (current : List Nat) :
    Char × Nat → List Nat
  | (rightChar, rightIndex) =>
    let substitution := previous[rightIndex]! + if leftChar ≠ rightChar then 1 else 0
    current ++ [min (min (current[rightIndex]! + 1) (previous[rightIndex + 1]! + 1)) substitution]

def nextRow (rightChars : List Char) (previous : List Nat) : Char × Nat → List Nat
  | (leftChar, leftIndex) =>
    rightChars.zipIdx.foldl (nextEntry previous leftChar) [leftIndex + 1]

def editDistance (left right : String) : Nat :=
  let rightChars := right.toList
  let previous := left.toList.zipIdx.foldl (nextRow rightChars) (List.range (rightChars.length + 1))
  previous[rightChars.length]!

structure ClosestSearch where
  closest : Option String
  minimumDistance : Nat
  minimumIsTied : Bool

namespace ClosestSearch

/-- Nothing is found; no distance that is looked at comes up to `usize::MAX`. -/
def start : ClosestSearch := ⟨none, 2 ^ 64 - 1, false⟩

def visit (argument : String) (s : ClosestSearch) (parameter : String) : ClosestSearch :=
  let distance := editDistance argument parameter
  if distance > 2 then s
  else
    match compare distance s.minimumDistance with
    | .lt => ⟨some parameter, distance, false⟩
    | .eq => { s with minimumIsTied := true }
    | .gt => s

end ClosestSearch

def closestParameter (argument : String) (parameters : List String) : Option String :=
  let found := (parameters.filter (· ≠ "...")).foldl (ClosestSearch.visit argument) .start
  if found.minimumIsTied then none else found.closest

/-! ## The distance by rows -/

/-- The row after the left side `xs`: its distances to what the right side starts with. -/
noncomputable def row (xs ys : List Char) : List Nat :=
  (List.range (ys.length + 1)).map fun j => levenshtein xs (ys.take j)

@[simp] theorem length_row (xs ys : List Char) : (row xs ys).length = ys.length + 1 := by
  simp [row]

theorem row_get {xs ys : List Char} {j : Nat} (h : j ≤ ys.length) :
    (row xs ys)[j]! = levenshtein xs (ys.take j) := by
  rw [getElem!_pos _ _ (by simpa using Nat.lt_succ_of_le h)]
  simp [row]

theorem row_nil (ys : List Char) : row [] ys = List.range (ys.length + 1) := by
  refine List.ext_getElem (by simp) fun j hrow hrange => ?_
  have hj : j ≤ ys.length := by
    simpa [Nat.lt_succ_iff] using hrange
  rw [← getElem!_pos, row_get hj, levenshtein_nil_left, List.getElem_range, List.length_take]
  exact min_eq_left hj

theorem row_concat (xs ys : List Char) (y : Char) :
    row xs (ys ++ [y]) = row xs ys ++ [levenshtein xs (ys ++ [y])] := by
  rw [row, List.length_append, List.length_singleton, List.range_succ, List.map_append, row]
  congr 1
  · refine List.map_congr_left fun j hj => ?_
    rw [List.take_append_of_le_length (Nat.lt_succ_iff.mp (List.mem_range.mp hj))]
  · rw [List.map_singleton, ← List.length_singleton (a := y), ← List.length_append,
      List.take_length]

/-- One row: its entries up to some place come of the row before, by the characters up to it. -/
theorem foldl_nextEntry (xs : List Char) (x : Char) (ys rest : List Char) :
    ys.zipIdx.foldl (nextEntry (row xs (ys ++ rest)) x) [xs.length + 1] = row (xs ++ [x]) ys := by
  induction ys using List.reverseRecOn generalizing rest with
  | nil => simp [row, levenshtein_nil_right]
  | append_singleton ys y ih =>
    rw [List.zipIdx_append, List.foldl_append, List.append_assoc, ih, row_concat]
    have hprevious : (row xs (ys ++ ([y] ++ rest)))[ys.length]! = levenshtein xs ys := by
      rw [row_get (by simp), List.take_left']
      rfl
    have hnext : (row xs (ys ++ ([y] ++ rest)))[ys.length + 1]! = levenshtein xs (ys ++ [y]) := by
      rw [row_get (by simp), ← List.append_assoc, List.take_left']
      simp
    have hcurrent : (row (xs ++ [x]) ys)[ys.length]! = levenshtein (xs ++ [x]) ys := by
      rw [row_get le_rfl, List.take_length]
    simp only [List.zipIdx_singleton, List.foldl_cons, List.foldl_nil, nextEntry, Nat.zero_add,
      hprevious, hnext, hcurrent]
    rw [levenshtein_concat]

theorem nextRow_row (xs ys : List Char) (x : Char) :
    nextRow ys (row xs ys) (x, xs.length) = row (xs ++ [x]) ys := by
  have h := foldl_nextEntry xs x ys []
  rw [List.append_nil] at h
  exact h

theorem foldl_nextRow (xs ys : List Char) :
    xs.zipIdx.foldl (nextRow ys) (List.range (ys.length + 1)) = row xs ys := by
  induction xs using List.reverseRecOn with
  | nil => exact (row_nil ys).symm
  | append_singleton xs x ih =>
    rw [List.zipIdx_append, List.foldl_append, ih]
    simpa using nextRow_row xs ys x

theorem editDistance_eq (left right : String) :
    editDistance left right = levenshtein left.toList right.toList := by
  have h : editDistance left right = (left.toList.zipIdx.foldl (nextRow right.toList)
      (List.range (right.toList.length + 1)))[right.toList.length]! := rfl
  rw [h, foldl_nextRow, row_get le_rfl, List.take_length]

/-! ## The closest formal -/

/-- What the search holds after the parameters `seen`: nothing, where none is within two edits, and
else the closest one, and whether another is as close. -/
inductive SearchOf (argument : String) (seen : List String) : ClosestSearch → Prop
  | far (hfar : ∀ q ∈ seen, 2 < editDistance argument q) : SearchOf argument seen .start
  | near (p : String) (others : List String) (tied : Bool) (hseen : seen.Perm (p :: others))
      (hnear : editDistance argument p ≤ 2)
      (hleast : ∀ q ∈ others, editDistance argument p ≤ editDistance argument q)
      (htied : tied = true ↔ ∃ q ∈ others, editDistance argument q = editDistance argument p) :
      SearchOf argument seen ⟨some p, editDistance argument p, tied⟩

variable {argument : String} {seen : List String}

/-- The parameter is closer than all before it. -/
theorem SearchOf.closer {q : String} (hnear : editDistance argument q ≤ 2)
    (hcloser : ∀ p ∈ seen, editDistance argument q < editDistance argument p) :
    SearchOf argument (seen ++ [q]) ⟨some q, editDistance argument q, false⟩ := by
  refine .near q seen false (List.perm_append_singleton q seen) hnear (fun p hp => ?_) ?_
  · exact (hcloser p hp).le
  · refine ⟨fun h => absurd h Bool.false_ne_true, ?_⟩
    rintro ⟨p, hp, heq⟩
    exact absurd heq (hcloser p hp).ne'

/-- The closest parameter before it is closer still. -/
theorem SearchOf.farther {p q : String} {tied : Bool}
    (h : SearchOf argument seen ⟨some p, editDistance argument p, tied⟩)
    (hlt : editDistance argument p < editDistance argument q) :
    SearchOf argument (seen ++ [q]) ⟨some p, editDistance argument p, tied⟩ := by
  cases h with
  | near p others tied hseen hnear hleast htied =>
    refine .near p (others ++ [q]) tied (hseen.append_right [q]) hnear (fun r hr => ?_) ?_
    · rcases List.mem_append.mp hr with hr | hr
      · exact hleast r hr
      · rw [List.mem_singleton.mp hr]
        exact hlt.le
    · rw [htied]
      constructor
      · rintro ⟨r, hr, heq⟩
        exact ⟨r, List.mem_append_left _ hr, heq⟩
      · rintro ⟨r, hr, heq⟩
        rcases List.mem_append.mp hr with hr | hr
        · exact ⟨r, hr, heq⟩
        · rw [List.mem_singleton.mp hr] at heq
          exact absurd heq hlt.ne'

theorem SearchOf.visit {s : ClosestSearch} (h : SearchOf argument seen s) (q : String) :
    SearchOf argument (seen ++ [q]) (s.visit argument q) := by
  unfold ClosestSearch.visit
  by_cases hq : editDistance argument q > 2
  · simp only [if_pos hq]
    cases h with
    | far hfar =>
      refine .far fun p hp => ?_
      rcases List.mem_append.mp hp with hp | hp
      · exact hfar p hp
      · rw [List.mem_singleton.mp hp]
        exact hq
    | near p others tied hseen hnear hleast htied =>
      exact (SearchOf.near p others tied hseen hnear hleast htied).farther (by omega)
  · simp only [if_neg hq]
    cases h with
    | far hfar =>
      have hlt : editDistance argument q < ClosestSearch.start.minimumDistance := by
        change _ < 2 ^ 64 - 1
        omega
      rw [Nat.compare_eq_lt.mpr hlt]
      refine .closer (by omega) fun p hp => ?_
      have := hfar p hp
      omega
    | near p others tied hseen hnear hleast htied =>
      rcases lt_trichotomy (editDistance argument q) (editDistance argument p) with hlt | heq | hgt
      · simp only [Nat.compare_eq_lt.mpr hlt]
        refine .closer (by omega) fun r hr => ?_
        rcases List.mem_cons.mp (hseen.mem_iff.mp hr) with rfl | hr
        · exact hlt
        · exact hlt.trans_le (hleast r hr)
      · simp only [Nat.compare_eq_eq.mpr heq]
        refine .near p (others ++ [q]) true (hseen.append_right [q]) hnear (fun r hr => ?_) ?_
        · rcases List.mem_append.mp hr with hr | hr
          · exact hleast r hr
          · rw [List.mem_singleton.mp hr]
            exact heq.ge
        · exact ⟨fun _ => ⟨q, by simp, heq⟩, fun _ => rfl⟩
      · simp only [Nat.compare_eq_gt.mpr hgt]
        exact (SearchOf.near p others tied hseen hnear hleast htied).farther hgt

theorem searchOf_foldl (argument : String) (parameters : List String) :
    SearchOf argument parameters (parameters.foldl (ClosestSearch.visit argument) .start) := by
  induction parameters using List.reverseRecOn with
  | nil => exact .far fun q hq => absurd hq List.not_mem_nil
  | append_singleton parameters q ih =>
    rw [List.foldl_append]
    exact ih.visit q

/-- The search has the closest parameter, and it is not tied, where all others are farther. -/
theorem SearchOf.closest_iff {s : ClosestSearch} (h : SearchOf argument seen s) (p : String) :
    (if s.minimumIsTied then none else s.closest) = some p ↔ ∃ others, seen.Perm (p :: others) ∧
      editDistance argument p ≤ 2 ∧
        ∀ q ∈ others, editDistance argument p < editDistance argument q := by
  cases h with
  | far hfar =>
    constructor
    · intro h
      cases h
    · rintro ⟨others, hseen, hnear, -⟩
      have := hfar p (hseen.mem_iff.mpr List.mem_cons_self)
      omega
  | near p' others tied hseen hnear hleast htied =>
    constructor
    · intro h
      cases tied with
      | true => cases h
      | false =>
        obtain rfl := Option.some.inj h
        refine ⟨others, hseen, hnear, fun q hq => lt_of_le_of_ne (hleast q hq) fun heq => ?_⟩
        exact absurd (htied.mpr ⟨q, hq, heq.symm⟩) (by simp)
    · rintro ⟨rest, hrest, -, hcloser⟩
      have hp : p' = p := by
        rcases List.mem_cons.mp (hrest.mem_iff.mp (hseen.mem_iff.mpr List.mem_cons_self)) with
          heq | hmem
        · exact heq
        · have hlt := hcloser p' hmem
          rcases List.mem_cons.mp (hseen.mem_iff.mp (hrest.mem_iff.mpr List.mem_cons_self)) with
            heq | hother
          · exact heq.symm
          · exact absurd (hleast p hother) (by omega)
      subst hp
      have hothers : others.Perm rest := (hseen.symm.trans hrest).cons_inv
      have hnotTied : tied = false := by
        rw [← Bool.not_eq_true, htied]
        rintro ⟨q, hq, heq⟩
        exact absurd heq (hcloser q (hothers.mem_iff.mp hq)).ne'
      simp [hnotTied]

theorem perm_named (before after : List String) {p : String} (h : p ≠ "...") :
    ((before ++ p :: after).filter (· ≠ "...")).Perm
      (p :: (before ++ after).filter (· ≠ "...")) := by
  simp [h, List.perm_middle]

/-- The distance is Levenshtein's, and the formal named is the one that is closest: none but it is,
`...` apart, and it is within two edits. -/
theorem closestParameter_iff :
    (∀ left right, editDistance left right = levenshtein left.toList right.toList) ∧
    ∀ (argument : String) (parameters : List String) (p : String),
      closestParameter argument parameters = some p ↔
        ∃ before after, parameters = before ++ p :: after ∧ p ≠ "..." ∧
          levenshtein argument.toList p.toList ≤ 2 ∧
            ∀ q ∈ before ++ after, q ≠ "..." →
              levenshtein argument.toList p.toList < levenshtein argument.toList q.toList := by
  refine ⟨editDistance_eq, fun argument parameters p => ?_⟩
  simp only [← editDistance_eq]
  have hfound := (searchOf_foldl argument (parameters.filter (· ≠ "..."))).closest_iff p
  refine hfound.trans ⟨?_, ?_⟩
  · rintro ⟨others, hperm, hnear, hcloser⟩
    have hmem := hperm.mem_iff.mpr List.mem_cons_self
    obtain ⟨hp, hnamed⟩ := List.mem_filter.mp hmem
    obtain ⟨before, after, rfl⟩ := List.append_of_mem hp
    have hp := of_decide_eq_true hnamed
    refine ⟨before, after, rfl, hp, hnear, fun q hq hq' => hcloser q ?_⟩
    have hothers := ((perm_named before after hp).symm.trans hperm).cons_inv
    exact hothers.mem_iff.mp (List.mem_filter.mpr ⟨hq, decide_eq_true hq'⟩)
  · rintro ⟨before, after, rfl, hnamed, hnear, hcloser⟩
    refine ⟨_, perm_named before after hnamed, hnear, fun q hq => ?_⟩
    obtain ⟨hq, hq'⟩ := List.mem_filter.mp hq
    exact hcloser q hq (of_decide_eq_true hq')

/-- The dots are a formal too, one edit away from `..`, and are never named. -/
theorem dots_not_closest : ¬ ∀ (argument : String) (parameters : List String) (p : String),
    closestParameter argument parameters = some p ↔
      ∃ before after, parameters = before ++ p :: after ∧
        levenshtein argument.toList p.toList ≤ 2 ∧
          ∀ q ∈ before ++ after,
            levenshtein argument.toList p.toList < levenshtein argument.toList q.toList := by
  intro h
  have hdots := (h ".." ["..."] "...").mpr ⟨[], [], rfl, ?_, fun q hq => absurd hq (by simp)⟩
  · exact absurd hdots (by decide)
  · rw [← editDistance_eq]
    decide

end Ry
