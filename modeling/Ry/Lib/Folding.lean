import Ry.Lib.Lines
import Mathlib.Data.List.DropRight

/-! # Folded lines

A text whose lines are put together again, each without the blanks around it.  Read character by
character: a run of blanks that a line feed is in, or that the text begins or ends with, is left
out, and any other stays.
-/

namespace Folding

open Ry

variable (p : Char → Bool)

def trimmed (line : List Char) : List Char := (line.dropWhile p).rdropWhile p

/-- The lines of the text, trimmed and put together. -/
def joined (text : List Char) : List Char := (rawLines text).flatMap (trimmed p)

/-- The text behind a run of blanks `pending`, which is left out if `folded`. -/
def squeeze (pending : List Char) (folded : Bool) : List Char → List Char
  | [] => []
  | c :: text =>
    if p c then squeeze (pending ++ [c]) (folded || c = '\n') text
    else (if folded then [] else pending) ++ c :: squeeze [] false text

variable {p}

theorem rdropWhile_visible {c : Char} (hc : p c = false) (before after : List Char) :
    (before ++ c :: after).rdropWhile p = before ++ c :: after.rdropWhile p := by
  induction after using List.reverseRecOn with
  | nil => exact List.rdropWhile_concat_neg _ _ _ (by simp [hc])
  | append_singleton after d ih =>
    rw [← List.cons_append, ← List.append_assoc]
    by_cases hd : p d = true
    · rw [List.rdropWhile_concat_pos _ _ _ hd, List.rdropWhile_concat_pos _ _ _ hd, ih]
    · rw [List.rdropWhile_concat_neg _ _ _ hd, List.rdropWhile_concat_neg _ _ _ hd]
      simp

theorem squeeze_folded (pending text : List Char) :
    squeeze p pending true text = squeeze p [] true text := by
  induction text generalizing pending with
  | nil => rfl
  | cons c text ih =>
    by_cases hc : p c = true
    · simp only [squeeze, if_pos hc, Bool.true_or]
      rw [ih (pending ++ [c]), ih ([] ++ [c])]
    · simp [squeeze, hc]

/-- A line and what comes behind it: its last blanks are left out if those of the text behind it are,
whatever they are. -/
theorem squeeze_line {pending line tail rest : List Char} (hpending : ∀ c ∈ pending, p c = true)
    (hline : '\n' ∉ line)
    (htail : ∀ blanks, (∀ c ∈ blanks, p c = true) → squeeze p blanks false tail = rest) :
    squeeze p pending false (line ++ tail) = (pending ++ line).rdropWhile p ++ rest := by
  induction line generalizing pending with
  | nil =>
    have hblank : (pending ++ []).rdropWhile p = [] := by
      rw [List.append_nil]
      exact List.rdropWhile_eq_nil_iff.mpr hpending
    rw [hblank]
    exact htail pending hpending
  | cons c line ih =>
    obtain ⟨hc, hline⟩ := not_or.mp (mt List.mem_cons.mpr hline)
    by_cases hblank : p c = true
    · have hpending' : ∀ d ∈ pending ++ [c], p d = true := by
        intro d hd
        rcases List.mem_append.mp hd with hd | hd
        · exact hpending d hd
        · rw [List.mem_singleton.mp hd]
          exact hblank
      simp only [List.cons_append, squeeze, if_pos hblank, Ne.symm hc, decide_false, Bool.or_false]
      rw [ih hpending' hline, List.append_assoc, List.singleton_append]
    · have hvisible : p c = false := by simpa using hblank
      simp only [List.cons_append, squeeze, if_neg hblank, Bool.false_eq_true, if_false]
      rw [ih (by simp) hline, rdropWhile_visible hvisible, List.nil_append, List.append_assoc,
        List.cons_append]

theorem squeeze_first {line tail rest : List Char} (hline : '\n' ∉ line)
    (hfolded : squeeze p [] true tail = rest)
    (htail : ∀ blanks, (∀ c ∈ blanks, p c = true) → squeeze p blanks false tail = rest) :
    squeeze p [] true (line ++ tail) = trimmed p line ++ rest := by
  induction line with
  | nil => exact hfolded
  | cons c line ih =>
    obtain ⟨hc, hline⟩ := not_or.mp (mt List.mem_cons.mpr hline)
    by_cases hblank : p c = true
    · simp only [List.cons_append, squeeze, if_pos hblank, Bool.true_or]
      rw [squeeze_folded, ih hline, trimmed, trimmed, List.dropWhile_cons_of_pos hblank]
    · have hvisible : p c = false := by simpa using hblank
      simp only [List.cons_append, squeeze, if_neg hblank, if_true, List.nil_append]
      have hrest : squeeze p [] false (line ++ tail) = line.rdropWhile p ++ rest :=
        squeeze_line (by simp) hline htail
      have htrimmed := rdropWhile_visible hvisible [] line
      rw [List.nil_append, List.nil_append] at htrimmed
      rw [hrest, trimmed, List.dropWhile_cons_of_neg hblank, htrimmed, List.cons_append]

/-- The trimmed lines put together are the text without the runs of blanks that are folded. -/
theorem joined_eq (hfeed : p '\n' = true) (text : List Char) :
    joined p text = squeeze p [] true text := by
  by_cases h : '\n' ∈ text
  · obtain ⟨line, rest, rfl, hline⟩ : ∃ line rest, text = line ++ '\n' :: rest ∧ '\n' ∉ line :=
      ⟨_, _, cut_at h⟩
    have hlines : rawLines (line ++ '\n' :: rest) = line :: rawLines rest := by
      have hended := @rawLines_endedLines [line] (by simpa using hline) rest
      rwa [endedLines_cons, List.append_assoc] at hended
    have hrest := joined_eq hfeed rest
    rw [joined, hlines, List.flatMap_cons]
    refine (squeeze_first hline ?_ fun blanks _ => ?_).symm
    · simp only [squeeze, if_pos hfeed, Bool.true_or]
      rw [squeeze_folded]
      exact hrest.symm
    · simp only [squeeze, if_pos hfeed, decide_true, Bool.or_true]
      rw [squeeze_folded]
      exact hrest.symm
  · have hline := @squeeze_first p text [] [] h rfl fun _ _ => rfl
    rw [List.append_nil, List.append_nil] at hline
    rw [joined, rawLines_line h, hline, List.flatMap_singleton]
termination_by text.length
decreasing_by
  subst text
  simp only [List.length_append, List.length_cons]
  omega

/-- Between two visible characters, a run of blanks is left out if a line feed is in it. -/
theorem squeeze_blanks {blanks : List Char} (h : ∀ c ∈ blanks, p c = true) {c : Char}
    (hc : p c = false) (pending : List Char) (folded : Bool) (text : List Char) :
    squeeze p pending folded (blanks ++ c :: text) =
      (if folded ∨ '\n' ∈ blanks then [] else pending ++ blanks) ++ c :: squeeze p [] false text := by
  induction blanks generalizing pending folded with
  | nil => simp [squeeze, hc]
  | cons d blanks ih =>
    obtain ⟨hd, hblanks⟩ := List.forall_mem_cons.mp h
    rw [List.cons_append, squeeze, if_pos hd, ih hblanks]
    simp only [Bool.or_eq_true, decide_eq_true_eq, List.mem_cons, List.append_assoc,
      List.singleton_append, or_assoc, eq_comm (a := d)]

/-- Blanks at the end are left out. -/
theorem squeeze_end {pending blanks : List Char} (h : ∀ c ∈ blanks, p c = true) (folded : Bool) :
    squeeze p pending folded blanks = [] := by
  induction blanks generalizing pending folded with
  | nil => rfl
  | cons d blanks ih =>
    obtain ⟨hd, hblanks⟩ := List.forall_mem_cons.mp h
    rw [squeeze, if_pos hd, ih hblanks]

/-- Before a visible character, what is kept has no characters but those of the text. -/
theorem squeeze_visible {c : Char} (hc : p c = false) (pending : List Char) (folded : Bool)
    (text rest : List Char) : ∃ kept, (∀ d ∈ kept, d ∈ pending ++ text) ∧
      squeeze p pending folded (text ++ c :: rest) = kept ++ c :: squeeze p [] false rest := by
  induction text generalizing pending folded with
  | nil =>
    refine ⟨if folded then [] else pending, fun d hd => ?_, by simp [squeeze, hc]⟩
    cases folded <;> simp_all
  | cons d text ih =>
    by_cases hd : p d = true
    · obtain ⟨kept, hkept, heq⟩ := ih (pending ++ [d]) (folded || d = '\n')
      refine ⟨kept, fun e he => by simpa using hkept e he, ?_⟩
      rw [List.cons_append, squeeze, if_pos hd, heq]
    · obtain ⟨kept, hkept, heq⟩ := ih [] false
      refine ⟨(if folded then [] else pending) ++ d :: kept, fun e he => ?_, ?_⟩
      · rcases List.mem_append.mp he with he | he
        · cases folded <;> simp_all
        · rcases List.mem_cons.mp he with rfl | he
          · simp
          · have := hkept e he
            simp_all
      · rw [List.cons_append, squeeze, if_neg hd, heq]
        simp

end Folding
