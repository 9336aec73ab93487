import Mathlib.Data.List.Basic

/-! # Loops over a list and its indices

A `for` loop over an enumerated list is a fold over `List.zipIdx`.  `zipIdx_inv` is its rule:
what holds before the loop and survives one turn holds after it.
-/

namespace Loop

variable {A S : Type}

theorem foldl_zipIdx_inv {f : S → A × Nat → S} (P : Nat → S → Prop) {l : List A} {k : Nat}
    {s : S} (hstart : P k s)
    (hstep : ∀ i x s, l[i]? = some x → P (k + i) s → P (k + i + 1) (f s (x, k + i))) :
    P (k + l.length) ((l.zipIdx k).foldl f s) := by
  induction l generalizing k s with
  | nil => exact hstart
  | cons x xs ih =>
    rw [List.zipIdx_cons, List.foldl_cons, List.length_cons, Nat.add_comm xs.length 1,
      ← Nat.add_assoc]
    refine ih (hstep 0 x s rfl hstart) fun i y s hy h => ?_
    have hnext := hstep (i + 1) y s (by simpa using hy)
    rw [show k + (i + 1) = k + 1 + i from by omega] at hnext
    exact hnext h

/-- What holds before the loop and survives one turn holds after it. -/
theorem zipIdx_inv {f : S → A × Nat → S} (P : Nat → S → Prop) {l : List A} {s : S}
    (hstart : P 0 s) (hstep : ∀ i x s, l[i]? = some x → P i s → P (i + 1) (f s (x, i))) :
    P l.length (l.zipIdx.foldl f s) := by
  have hrun := foldl_zipIdx_inv P (k := 0) hstart fun i x s hx h => by
    simpa using hstep i x s hx (by simpa using h)
  simpa using hrun

end Loop
