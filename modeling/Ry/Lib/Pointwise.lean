import Mathlib.Data.List.Nodup
import Mathlib.Tactic.Common

/-! # Loops that touch one key a pass

A loop over distinct keys, each pass of which rewrites what the state holds under its
own key and leaves the others alone, rewrites every key it visits once and in place:
the order of the passes does not show.
-/

namespace Pointwise

variable {S K V : Type} {P : S → Prop}

/-- `P` is what the passes may assume of the state, and keep. -/
theorem foldl_read [DecidableEq K] (read : S → K → V) {f : S → K → S} {F : K → V → V}
    (hP : ∀ s k, P s → P (f s k))
    (hread : ∀ s k j, P s → read (f s k) j = if j = k then F k (read s k) else read s j)
    {l : List K} (hl : l.Nodup) {s : S} (hs : P s) (j : K) :
    read (l.foldl f s) j = if j ∈ l then F j (read s j) else read s j := by
  induction l generalizing s with
  | nil => simp
  | cons k l ih =>
    obtain ⟨hk, hl⟩ := List.nodup_cons.mp hl
    rw [List.foldl_cons, ih hl (hP s k hs), hread s k j hs]
    by_cases hj : j = k
    · subst hj
      simp [hk]
    · simp [hj]

theorem foldl_inv {f : S → K → S} (hP : ∀ s k, P s → P (f s k)) (l : List K) {s : S}
    (hs : P s) : P (l.foldl f s) := by
  induction l generalizing s with
  | nil => exact hs
  | cons k l ih => exact ih (hP s k hs)

end Pointwise
