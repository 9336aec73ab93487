import Ry.Lib.Lines

/-! # Workflow commands

The commands a continuous integration runner reads in a log: a line
`::name key=value,key=value::data`, with escapes for the characters that have a meaning.
-/

namespace Workflow

/-- The escapes of data. -/
def dataEscape : Char → Char → Option Char
  | '2', '5' => some '%'
  | '0', 'D' => some '\r'
  | '0', 'A' => some '\n'
  | _, _ => none

/-- The escapes of a property. -/
def propertyEscape : Char → Char → Option Char
  | '3', 'A' => some ':'
  | '2', 'C' => some ','
  | a, b => dataEscape a b

def unescape (escape : Char → Char → Option Char) : List Char → List Char
  | '%' :: a :: b :: cs =>
    match escape a b with
    | some c => c :: unescape escape cs
    | none => '%' :: unescape escape (a :: b :: cs)
  | c :: cs => c :: unescape escape cs
  | [] => []

def holdsEscape (escape : Char → Char → Option Char) : List Char → Bool
  | '%' :: a :: b :: cs => (escape a b).isSome || holdsEscape escape (a :: b :: cs)
  | _ :: cs => holdsEscape escape cs
  | [] => false

/-- The lines of a log; `line` is what is read of one. -/
def logLines (line : List Char) : List Char → List (List Char)
  | [] => if line = [] then [] else [line]
  | '\r' :: '\n' :: cs => line :: logLines [] cs
  | c :: cs =>
    if c = '\r' ∨ c = '\n' then line :: logLines [] cs else logLines (line ++ [c]) cs

structure Command where
  name : List Char
  properties : List (List Char × List Char)
  data : List Char
deriving DecidableEq

/-- What stands before the first `::`, and what after it. -/
def splitColons : List Char → Option (List Char × List Char)
  | [] => none
  | ':' :: ':' :: cs => some ([], cs)
  | c :: cs => (splitColons cs).map fun (before, after) => (c :: before, after)

def readProperty (text : List Char) : Option (List Char × List Char) :=
  if '=' ∈ text then
    some (text.takeWhile (· ≠ '='), unescape propertyEscape ((text.dropWhile (· ≠ '=')).drop 1))
  else none

def readCommand : List Char → Option Command
  | ':' :: ':' :: line =>
    (splitColons line).map fun (info, data) =>
      { name := info.takeWhile (· ≠ ' ')
        properties :=
          (((info.dropWhile (· ≠ ' ')).drop 1).splitOnP (· = ',')).filterMap readProperty
        data := unescape dataEscape data }
  | _ => none

/-- The commands of a log that consists of commands. -/
def commands (log : List Char) : Option (List Command) := (logLines [] log).mapM readCommand

/-! ## Escapes -/

variable {escape : Char → Char → Option Char} {text a b : List Char}

theorem unescape_length (text : List Char) :
    (unescape escape text).length ≤ text.length ∧
      ((unescape escape text).length = text.length →
        holdsEscape escape text = false ∧ unescape escape text = text) := by
  fun_induction unescape escape text with
  | case1 a b cs c hc ih =>
    simp only [List.length_cons]
    refine ⟨by omega, fun h => ?_⟩
    have hle := ih.1
    omega
  | case2 a b cs hc ih =>
    refine ⟨Nat.succ_le_succ ih.1, fun h => ?_⟩
    obtain ⟨hnone, hself⟩ := ih.2 (Nat.succ.inj h)
    rw [holdsEscape, hc, hnone, hself]
    exact ⟨rfl, rfl⟩
  | case3 c cs hshape ih =>
    refine ⟨Nat.succ_le_succ ih.1, fun h => ?_⟩
    obtain ⟨hnone, hself⟩ := ih.2 (Nat.succ.inj h)
    rw [holdsEscape, hnone, hself]
    · exact ⟨rfl, rfl⟩
    · exact hshape
  | case4 => exact ⟨Nat.le_refl _, fun _ => ⟨rfl, rfl⟩⟩

theorem unescape_self (h : holdsEscape escape text = false) : unescape escape text = text := by
  fun_induction holdsEscape escape text with
  | case1 a b cs ih =>
    rw [Bool.or_eq_false_iff, Option.isSome_eq_false_iff, Option.isNone_iff_eq_none] at h
    rw [unescape, h.1]
    dsimp only
    rw [ih h.2]
  | case2 c cs hshape ih =>
    rw [unescape, ih h]
    exact hshape
  | case3 => rfl

theorem holdsEscape_append (ha : '%' ∉ a) : holdsEscape escape (a ++ b) = holdsEscape escape b := by
  induction a with
  | nil => rfl
  | cons c a ih =>
    rw [List.mem_cons, not_or] at ha
    rw [List.cons_append, holdsEscape, ih ha.2]
    rintro _ _ _ rfl
    exact absurd rfl ha.1

/-! ## Lines and colons -/

/-- A character inside a line. -/
def inLine (c : Char) : Bool := c ≠ '\r' && c ≠ '\n'

theorem logLines_cons {c : Char} {cs : List Char} (line : List Char) (h : inLine c = true) :
    logLines line (c :: cs) = logLines (line ++ [c]) cs := by
  have hne : c ≠ '\r' ∧ c ≠ '\n' := by simpa [inLine] using h
  rw [logLines, if_neg (not_or.mpr hne)]
  rintro _ rfl
  exact absurd rfl hne.1

/-- The first line of a log ends at its first line break. -/
theorem logLines_first (line text rest : List Char) :
    ∃ more, logLines line (text ++ '\n' :: rest) = (line ++ text.takeWhile inLine) :: more ∧
      ((∀ c ∈ text, inLine c = true) → more = logLines [] rest) := by
  induction text generalizing line with
  | nil =>
    refine ⟨logLines [] rest, ?_, fun _ => rfl⟩
    rw [List.takeWhile_nil, List.append_nil]
    rfl
  | cons c text ih =>
    by_cases hc : inLine c = true
    · obtain ⟨more, hmore, hall⟩ := ih (line ++ [c])
      refine ⟨more, ?_, fun h => hall fun d hd => h d (List.mem_cons_of_mem _ hd)⟩
      rw [List.cons_append, logLines_cons line hc, hmore, List.takeWhile_cons_of_pos hc,
        List.append_assoc, List.singleton_append]
    · have hbreak : c = '\r' ∨ c = '\n' := by
        by_contra hnone
        rw [not_or] at hnone
        exact hc (by simp [inLine, hnone])
      have hfirst : ∃ more, logLines line (c :: (text ++ '\n' :: rest)) = line :: more := by
        rcases hbreak with rfl | rfl
        · cases htext : text ++ '\n' :: rest with
          | nil => simp at htext
          | cons d ds =>
            by_cases hd : d = '\n'
            · subst hd
              exact ⟨_, rfl⟩
            · refine ⟨logLines [] (d :: ds), ?_⟩
              rw [logLines, if_pos (.inl rfl)]
              rintro _ _ heq
              exact hd (List.cons.inj heq).1
        · exact ⟨_, rfl⟩
      obtain ⟨more, hmore⟩ := hfirst
      refine ⟨more, ?_, fun h => absurd (h c List.mem_cons_self) hc⟩
      rw [List.cons_append, hmore, List.takeWhile_cons_of_neg hc, List.append_nil]

theorem splitColons_cons {c : Char} (h : c ≠ ':') :
    splitColons (c :: text) = (splitColons text).map fun (x, y) => (c :: x, y) := by
  rw [splitColons]
  rintro _ rfl
  exact absurd rfl h

theorem splitColons_append (ha : ':' ∉ a) :
    splitColons (a ++ b) = (splitColons b).map fun (x, y) => (a ++ x, y) := by
  induction a with
  | nil => simp
  | cons c a ih =>
    rw [List.mem_cons, not_or] at ha
    rw [List.cons_append, splitColons_cons (Ne.symm ha.1), ih ha.2, Option.map_map]
    rfl

/-- What stands before the colons has none in a row. -/
theorem splitColons_some {x y : List Char} (h : splitColons text = some (x, y)) :
    text = x ++ "::".toList ++ y ∧ ¬ "::".toList <:+: x := by
  fun_induction splitColons text generalizing x with
  | case1 => cases h
  | case2 cs =>
    obtain ⟨rfl, rfl⟩ := Prod.mk.inj (Option.some.inj h)
    exact ⟨rfl, by simp⟩
  | case3 c cs hshape ih =>
    obtain ⟨⟨x', y'⟩, hsplit, heq⟩ := Option.map_eq_some_iff.mp h
    obtain ⟨rfl, rfl⟩ := Prod.mk.inj heq
    obtain ⟨rfl, hnone⟩ := ih hsplit
    refine ⟨rfl, ?_⟩
    rw [List.infix_cons_iff, not_or]
    refine ⟨?_, hnone⟩
    rintro ⟨rest, hrest⟩
    obtain ⟨rfl, hx⟩ := List.cons.inj hrest
    refine hshape (rest ++ "::".toList ++ y') rfl ?_
    rw [← hx]
    rfl

/-- A text without colons in a row, and without one at its end, before a `::`. -/
theorem splitColons_at (ha : ¬ "::".toList <:+: a) (hlast : a.getLast? ≠ some ':') :
    splitColons (a ++ "::".toList ++ b) = some (a, b) := by
  induction a with
  | nil => rfl
  | cons c a ih =>
    rw [List.infix_cons_iff, not_or] at ha
    have hrest : splitColons (a ++ "::".toList ++ b) = some (a, b) := by
      refine ih ha.2 fun hend => hlast ?_
      cases a with
      | nil => cases hend
      | cons d a => rw [List.getLast?_cons_cons, hend]
    rw [List.append_assoc, List.cons_append, ← List.append_assoc, splitColons, hrest]
    · rfl
    · rintro cs rfl heq
      cases a with
      | nil => exact hlast rfl
      | cons d a =>
        rw [List.cons_append, List.cons_append] at heq
        obtain ⟨rfl, -⟩ := List.cons.inj heq
        exact ha.1 ⟨a, rfl⟩

/-! ## Properties -/

theorem splitOnP_first {p : Char → Bool} (text : List Char) :
    ∃ more, text.splitOnP p = text.takeWhile (fun c => !p c) :: more := by
  induction text with
  | nil => exact ⟨[], List.splitOnP_nil⟩
  | cons c text ih =>
    obtain ⟨more, hmore⟩ := ih
    rw [List.splitOnP_cons_eq_if_modifyHead]
    cases hc : p c with
    | true => exact ⟨text.splitOnP p, by simp [hc]⟩
    | false =>
      refine ⟨more, ?_⟩
      rw [if_neg (by simp), hmore, List.modifyHead_cons,
        List.takeWhile_cons_of_pos (by simp [hc])]

theorem readProperty_eq {key value : List Char} (hkey : '=' ∉ key) :
    readProperty (key ++ '=' :: value) = some (key, unescape propertyEscape value) := by
  have hall : ∀ c ∈ key, decide (c ≠ '=') = true :=
    fun c hc => decide_eq_true fun heq => hkey (heq ▸ hc)
  rw [readProperty, if_pos (by simp), List.takeWhile_append_of_pos hall,
    List.dropWhile_append_of_pos hall, List.takeWhile_cons_of_neg (by simp),
    List.dropWhile_cons_of_neg (by simp), List.append_nil]
  rfl

end Workflow
