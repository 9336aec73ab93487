import Mathlib.Tactic.Common

/-! # Undo logs

A program that rolls back from a log pushes one record for each change and replays
the records newest first.  `Restores` says that a list of records, newest first,
takes a state back to one that agrees with an earlier state.  Agreement is any
transitive relation that replaying respects, so a log may leave out what is restored
by other means.
-/

namespace UndoLog

variable {S R : Type} (replay : R → S → S) (Agree : S → S → Prop)

/-- Replay the records in list order; the newest stands first. -/
def replayAll (records : List R) (s : S) : S := records.foldl (fun s r => replay r s) s

@[simp] theorem replayAll_nil (s : S) : replayAll replay [] s = s := rfl

@[simp] theorem replayAll_cons (r : R) (rs : List R) (s : S) :
    replayAll replay (r :: rs) s = replayAll replay rs (replay r s) := rfl

theorem replayAll_append (rs rs' : List R) (s : S) :
    replayAll replay (rs ++ rs') s = replayAll replay rs' (replayAll replay rs s) := by
  simp [replayAll, List.foldl_append]

/-- What a single replay preserves, replaying the whole log preserves. -/
theorem replayAll_induct {P : S → Prop} (h : ∀ r s, P s → P (replay r s)) (rs : List R) {s : S}
    (hs : P s) : P (replayAll replay rs s) := by
  induction rs generalizing s with
  | nil => exact hs
  | cons r rs ih => exact ih (h r s hs)

/-- Replaying `records` on `after` gives a state that agrees with `before`. -/
def Restores (records : List R) (before after : S) : Prop :=
  Agree (replayAll replay records after) before

variable {replay Agree}

theorem replayAll_congr (hcongr : ∀ r a b, Agree a b → Agree (replay r a) (replay r b))
    (rs : List R) {a b : S} (h : Agree a b) :
    Agree (replayAll replay rs a) (replayAll replay rs b) := by
  induction rs generalizing a b with
  | nil => exact h
  | cons r rs ih => exact ih (hcongr r a b h)

/-- The records of two changes, the later change's first, take its result back past
both. -/
theorem Restores.append (hcongr : ∀ r a b, Agree a b → Agree (replay r a) (replay r b))
    (htrans : ∀ a b c, Agree a b → Agree b c → Agree a c) {rs rs' : List R} {a b c : S}
    (hab : Restores replay Agree rs a b) (hbc : Restores replay Agree rs' b c) :
    Restores replay Agree (rs' ++ rs) a c := by
  unfold Restores
  rw [replayAll_append]
  exact htrans _ _ _ (replayAll_congr hcongr rs hbc) hab

end UndoLog
