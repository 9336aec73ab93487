import Mathlib.Data.Set.Basic
import Mathlib.Logic.Relation

/-! # Strongly connected sets

A depth-first search keeps its unfinished nodes in a stack.  The part of the stack from a node
on is a strongly connected component when the node reaches all of it, every other node there
reaches one of lower rank, and its edges lead nowhere but back to it and to what is done.
-/

namespace Strong

open Relation

variable {N : Type} {edge : N → N → Prop}

/-- No edge leaves the set. -/
def Closed (edge : N → N → Prop) (D : Set N) : Prop := ∀ v ∈ D, ∀ w, edge v w → w ∈ D

theorem Closed.mem_of_reaches {D : Set N} (hD : Closed edge D) {v w : N} (hv : v ∈ D)
    (h : ReflTransGen edge v w) : w ∈ D := by
  induction h with
  | refl => exact hv
  | tail _ hedge ih => exact hD _ ih _ hedge

/-- A part of the stack, from `root` on, above the nodes that are done. -/
structure Segment (edge : N → N → Prop) (rank : N → Nat) (root : N) (T D : Set N) : Prop where
  from_root : ∀ v ∈ T, ReflTransGen edge root v
  descends : ∀ v ∈ T, v ≠ root → ∃ w ∈ T, rank w < rank v ∧ ReflTransGen edge v w
  exits : ∀ v ∈ T, ∀ w, edge v w → w ∈ T ∨ w ∈ D
  done : Closed edge D
  disjoint : ∀ v ∈ T, v ∉ D

namespace Segment

variable {rank : N → Nat} {root : N} {T D : Set N}

theorem closed_union (h : Segment edge rank root T D) : Closed edge (T ∪ D) := by
  rintro v (hv | hv) w hedge
  · exact h.exits v hv w hedge
  · exact .inr (h.done v hv w hedge)

theorem to_root (h : Segment edge rank root T D) {v : N} (hv : v ∈ T) :
    ReflTransGen edge v root := by
  induction hrank : rank v using Nat.strong_induction_on generalizing v with
  | h n ih =>
    by_cases hroot : v = root
    · rw [hroot]
    · obtain ⟨w, hw, hlt, hreach⟩ := h.descends v hv hroot
      exact hreach.trans (ih (rank w) (hrank ▸ hlt) hw rfl)

/-- The segment is the component of each of its nodes. -/
theorem mem_iff (h : Segment edge rank root T D) {v : N} (hv : v ∈ T) (w : N) :
    w ∈ T ↔ ReflTransGen edge v w ∧ ReflTransGen edge w v := by
  constructor
  · intro hw
    exact ⟨(h.to_root hv).trans (h.from_root w hw), (h.to_root hw).trans (h.from_root v hv)⟩
  · rintro ⟨hvw, hwv⟩
    rcases h.closed_union.mem_of_reaches (.inl hv) hvw with hw | hw
    · exact hw
    · exact (h.disjoint v hv (h.done.mem_of_reaches hw hwv)).elim

end Segment
end Strong
