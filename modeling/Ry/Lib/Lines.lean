import Mathlib.Data.List.TakeWhile

/-! # Lines

A text as its lines: those that a line feed ends, and a last one.
-/

namespace Ry

/-- A text is cut where a character first stands in it. -/
theorem cut_at {c : Char} {text : List Char} (h : c ∈ text) :
    text = text.takeWhile (· ≠ c) ++ c :: (text.dropWhile (· ≠ c)).tail ∧
      c ∉ text.takeWhile (· ≠ c) := by
  constructor
  · cases hdrop : text.dropWhile (· ≠ c) with
    | nil =>
      have hall := List.dropWhile_eq_nil_iff.mp hdrop c h
      simp at hall
    | cons d rest =>
      have hd := List.head?_dropWhile_not (fun x : Char => decide (x ≠ c)) text
      rw [hdrop] at hd
      have hfirst : d = c := by simpa using hd
      have hcons : text.dropWhile (· ≠ c) = c :: rest := by rw [hdrop, hfirst]
      rw [List.tail_cons, ← hcons, List.takeWhile_append_dropWhile]
  · intro hmem
    have hne := List.mem_takeWhile_imp hmem
    simp at hne

/-- Lines, each with its line feed after it. -/
def endedLines (lines : List (List Char)) : List Char := lines.flatMap (· ++ ['\n'])

/-- Lines, each with a line feed before it. -/
def begunLines (lines : List (List Char)) : List Char := lines.flatMap ('\n' :: ·)

/-- The pieces between line feeds; a `\r` stays. -/
def rawLines (text : List Char) : List (List Char) := text.splitOnP (· = '\n')

@[simp] theorem endedLines_cons (line : List Char) (lines : List (List Char)) :
    endedLines (line :: lines) = line ++ '\n' :: endedLines lines := by
  simp [endedLines]

@[simp] theorem begunLines_cons (line : List Char) (lines : List (List Char)) :
    begunLines (line :: lines) = '\n' :: (line ++ begunLines lines) := by
  simp [begunLines]

theorem splitOnP_piece {p : Char → Bool} {text piece : List Char} (h : piece ∈ text.splitOnP p) :
    ∀ c ∈ piece, p c = false := by
  induction text generalizing piece with
  | nil =>
    rw [List.splitOnP_nil, List.mem_singleton] at h
    simp [h]
  | cons d text ih =>
    rw [List.splitOnP_cons_eq_if_modifyHead] at h
    cases hd : p d with
    | true =>
      rw [if_pos hd, List.mem_cons] at h
      rcases h with rfl | h
      · simp
      · exact ih h
    | false =>
      rw [if_neg (by simp [hd])] at h
      cases hsplit : text.splitOnP p with
      | nil => exact absurd hsplit (List.splitOnP_ne_nil p text)
      | cons first rest =>
        rw [hsplit, List.modifyHead_cons, List.mem_cons] at h
        rcases h with rfl | h
        · intro c hc
          rcases List.mem_cons.mp hc with rfl | hc
          · exact hd
          · exact ih (by rw [hsplit]; exact List.mem_cons_self) c hc
        · exact ih (by rw [hsplit]; exact List.mem_cons_of_mem _ h)

theorem not_mem_of_rawLines {text line : List Char} (h : line ∈ rawLines text) : '\n' ∉ line := by
  intro hmem
  have hpiece := splitOnP_piece h _ hmem
  simp at hpiece

theorem rawLines_line {line : List Char} (h : '\n' ∉ line) : rawLines line = [line] := by
  refine List.splitOnP_eq_singleton fun c hc => decide_eq_false ?_
  rintro rfl
  exact h hc

theorem rawLines_endedLines {above : List (List Char)} (h : ∀ line ∈ above, '\n' ∉ line)
    (rest : List Char) : rawLines (endedLines above ++ rest) = above ++ rawLines rest := by
  induction above with
  | nil => rfl
  | cons line above ih =>
    obtain ⟨hline, habove⟩ := List.forall_mem_cons.mp h
    rw [endedLines_cons, List.append_assoc, List.cons_append, rawLines,
      List.splitOnP_append_cons _ _ (by simp)]
    change rawLines line ++ rawLines _ = _
    rw [rawLines_line hline, ih habove]
    rfl

theorem rawLines_begunLines {line : List Char} {below : List (List Char)}
    (hline : '\n' ∉ line) (h : ∀ l ∈ below, '\n' ∉ l) :
    rawLines (line ++ begunLines below) = line :: below := by
  induction below generalizing line with
  | nil =>
    rw [show begunLines [] = [] from rfl, List.append_nil]
    exact rawLines_line hline
  | cons l below ih =>
    obtain ⟨hl, hbelow⟩ := List.forall_mem_cons.mp h
    rw [begunLines_cons, rawLines, List.splitOnP_append_cons _ _ (by simp)]
    change rawLines line ++ rawLines _ = _
    rw [rawLines_line hline, ih hl hbelow]
    rfl

/-- A text is put together of its lines. -/
theorem eq_of_rawLines {text : List Char} {above below : List (List Char)} {line : List Char}
    (h : rawLines text = above ++ line :: below) :
    text = endedLines above ++ line ++ begunLines below := by
  have hbelow : ['\n'].intercalate (line :: below) = line ++ begunLines below := by
    clear h
    induction below generalizing line with
    | nil => simp [begunLines]
    | cons l below ih => simp [ih]
  have habove : ['\n'].intercalate (above ++ line :: below) =
      endedLines above ++ (line ++ begunLines below) := by
    clear h
    induction above with
    | nil => exact hbelow
    | cons l above ih =>
      rw [List.cons_append, List.intercalate_cons_of_ne_nil (by simp), ih]
      simp
  have hjoin : ['\n'].intercalate (rawLines text) = text := List.intercalate_splitOn '\n'
  rw [← hjoin, h, habove, List.append_assoc]

/-- Lines put together are the text's lines. -/
theorem rawLines_put {above below : List (List Char)} {line : List Char}
    (h : ∀ l ∈ above ++ line :: below, '\n' ∉ l) :
    rawLines (endedLines above ++ line ++ begunLines below) = above ++ line :: below := by
  rw [List.forall_mem_append, List.forall_mem_cons] at h
  rw [List.append_assoc, rawLines_endedLines h.1, rawLines_begunLines h.2.1 h.2.2]

theorem count_endedLines {above : List (List Char)} (h : ∀ line ∈ above, '\n' ∉ line) :
    (endedLines above).count '\n' = above.length := by
  induction above with
  | nil => rfl
  | cons line above ih =>
    obtain ⟨hline, habove⟩ := List.forall_mem_cons.mp h
    rw [endedLines_cons, List.count_append, List.count_cons_self, ih habove,
      List.count_eq_zero.mpr hline, List.length_cons, Nat.zero_add]

end Ry
