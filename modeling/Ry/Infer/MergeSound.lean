import Ry.Core.JoinSound
import Ry.Infer.Arm

/-! # What the merged type covers

After an `if`, the type recorded for a name describes every value that the name's type
at the end of a continuing arm describes, unless the arm's type is the condition's own
view of a binding, which the merge leaves to the arm.  The argument is made of one name
(`IfStatement.covers_mergeState`): whichever rule writes the name last, and every rule
in turn, keeps what the arm's type describes.
-/

namespace Ry

/-- The branch's of two. -/
def NarrowingBranch.pick {A : Type} (branch : NarrowingBranch) (thenSide elseSide : A) : A :=
  match branch with
  | .thenBranch => thenSide
  | .elseBranch => elseSide

/-- There is a type, and it describes the value. -/
def Covers (ty : Option RType) (v : RValue) : Prop := ∃ t, ty = some t ∧ t.describes v = true

theorem covers_some {t : RType} {v : RValue} (h : t.describes v = true) : Covers (some t) v :=
  ⟨t, rfl, h⟩

theorem not_covers_none (v : RValue) : ¬ Covers none v := fun ⟨_, h, _⟩ => nomatch h

theorem Covers.describes {t : RType} {v : RValue} (h : Covers (some t) v) :
    t.describes v = true := by
  obtain ⟨t', ht, hv⟩ := h
  rwa [Option.some.inj ht]

theorem describes_unknown (v : RValue) : RType.unknown.describes v = true :=
  RType.describes_unknown_with .unknown v

theorem describes_of_eq {a b : RType} (h : a.eq b = true) {v : RValue}
    (hv : b.describes v = true) : a.describes v = true :=
  (RType.describes_congr (RType.sameShape_of_eq h) v).trans hv

namespace BindingState

variable {st : BindingState} {v : RValue}

/-- An insert that keeps the old type keeps one that describes as much. -/
theorem covers_afterInsert (journaling : Bool) {ty : RType} (h : ty.describes v = true) :
    Covers (st.afterInsert journaling ty).ty v := by
  unfold afterInsert
  split
  · rename_i hkeeps
    simp only [keepsType, Bool.and_eq_true] at hkeeps
    have heq := hkeeps.2.1.1.1.1.1
    cases hty : st.ty with
    | none => simp [hty] at heq
    | some old => exact covers_some (describes_of_eq (by simpa [hty] using heq) h)
  · exact covers_some h

/-- What is written, or else what was there, covers the value; so does what is left. -/
theorem covers_afterMerged (journaling : Bool) {write : Option (RType × Bool)}
    (h : Covers ((write.map Prod.fst).or st.ty) v) : Covers (st.afterMerged journaling write).ty v
    := by
  match write with
  | none => exact h
  | some (ty, false) => exact covers_afterInsert journaling h.describes
  | some (ty, true) => exact covers_afterInsert journaling h.describes

theorem covers_afterFact (journaling : Bool) {fact : Option RType × Bool}
    (h : Covers (fact.1.or st.ty) v) : Covers (st.afterFact journaling fact).ty v := by
  match fact with
  | (none, _) => exact h
  | (some ty, true) => exact h
  | (some ty, false) => exact covers_afterInsert journaling h.describes

theorem covers_afterGuard {fact : Option RType} (h : Covers (fact.or st.ty) v) :
    Covers (fact.elim st st.afterNarrowed).ty v := by
  cases fact <;> exact h

theorem ty_withBoxObject (object : Option BoxObject) : (st.withBoxObject object).ty = st.ty := by
  unfold withBoxObject
  split <;> rfl

end BindingState

/-! ## What a null guard leaves -/

namespace BranchGuardView

variable {w : BranchGuardView}

theorem isComplementView_of_plain (h : w.narrowed = false) (complement : RType) :
    w.isComplementView complement = false := by
  simp [isComplementView, h]

theorem isUnknownNarrowing_of_plain (h : w.narrowed = false) : w.isUnknownNarrowing = false := by
  simp [isUnknownNarrowing, h]

theorem isLengthBoundNarrowing_of_plain (h : w.narrowed = false) (original : RType) :
    w.isLengthBoundNarrowing original = false := by
  simp [isLengthBoundNarrowing, h]

theorem mem_rebindViewType {original rebound : RType}
    (h : rebound ∈ w.rebindViewType original) : rebound ∈ w.ty :=
  (Option.mem_filter_iff.mp h).1

end BranchGuardView

namespace UnionGuardViews

variable {w : UnionGuardViews} {v : RValue}

/-- An arm that rebound the name, and continues, has its type in the refinement. -/
theorem describes_refinementShapes_then (hview : w.thenView.narrowed = false)
    (hreturn : w.thenReturnDiverges = false) (hplain : ∀ ty ∈ w.thenView.ty, ty.PlainUnion)
    (h : Covers w.thenView.ty v) {complement m : RType}
    (hm : w.refinementShapes complement = some m) : m.describes v = true := by
  have hcomplement := BranchGuardView.isComplementView_of_plain hview complement
  have hrebound : ∀ rebound ∈ w.thenView.rebindViewType w.original, rebound.describes v = true :=
    fun rebound hmem => Covers.describes (BranchGuardView.mem_rebindViewType hmem ▸ h)
  simp only [refinementShapes, hreturn, hcomplement, Bool.false_and, Bool.not_false, Bool.and_true,
    Bool.true_and, Bool.false_eq_true, if_false] at hm
  split at hm
  · exact hrebound m hm
  · split at hm
    · split at hm
      · rename_i rebound hthen _
        obtain rfl : rebound.join complement = m := by simpa using hm
        exact RType.describes_join_left (hplain rebound (BranchGuardView.mem_rebindViewType hthen))
          complement (hrebound rebound hthen)
      · split at hm
        · simp_all
        · simp at hm
    · simp at hm

theorem describes_refinementShapes_else (hview : w.elseView.narrowed = false)
    (hreturn : w.elseReturnDiverges = false) (hplain : ∀ ty ∈ w.elseView.ty, ty.PlainUnion)
    (h : Covers w.elseView.ty v) {complement m : RType}
    (hm : w.refinementShapes complement = some m) : m.describes v = true := by
  have hcomplement := BranchGuardView.isComplementView_of_plain hview complement
  have hrebound : ∀ rebound ∈ w.elseView.rebindViewType w.original, rebound.describes v = true :=
    fun rebound hmem => Covers.describes (BranchGuardView.mem_rebindViewType hmem ▸ h)
  simp only [refinementShapes, hreturn, hcomplement, Bool.false_and, Bool.not_false, Bool.and_true,
    Bool.false_eq_true, if_false] at hm
  split at hm
  · exact hrebound m hm
  · split at hm
    · split at hm
      · simp_all
      · split at hm
        · rename_i rebound helse _
          obtain rfl : complement.join rebound = m := by simpa using hm
          exact RType.describes_join_right complement
            (hplain rebound (BranchGuardView.mem_rebindViewType helse)) (hrebound rebound helse)
        · simp at hm
    · simp at hm

theorem describes_nullRebind_then (hview : w.thenView.narrowed = false)
    (h : Covers w.thenView.ty v) {complement m : RType}
    (hm : w.nullRebind complement = some m) : m.describes v = true := by
  have hcomplement := BranchGuardView.isComplementView_of_plain hview complement
  unfold nullRebind at hm
  split at hm
  · rename_i rebound hthen _
    obtain rfl : rebound = m := by simpa using hm
    exact Covers.describes (BranchGuardView.mem_rebindViewType hthen ▸ h)
  · split at hm
    · simp_all
    · simp at hm

theorem describes_nullRebind_else (hview : w.elseView.narrowed = false)
    (h : Covers w.elseView.ty v) {complement m : RType}
    (hm : w.nullRebind complement = some m) : m.describes v = true := by
  have hcomplement := BranchGuardView.isComplementView_of_plain hview complement
  unfold nullRebind at hm
  split at hm
  · simp_all
  · split at hm
    · rename_i rebound helse _
      obtain rfl : rebound = m := by simpa using hm
      exact Covers.describes (BranchGuardView.mem_rebindViewType helse ▸ h)
    · simp at hm

theorem plainUnion_narrowAwayFromNull {t complement : RType} (ht : t.PlainUnion)
    (h : t.narrowAwayFromNull = some complement) : complement.PlainUnion := by
  unfold RType.narrowAwayFromNull at h
  split at h
  · obtain rfl : RType.unknown = complement := by simpa using h
    exact nofun
  · rename_i hmode
    split at h
    · simp at h
    · rename_i members hmembers
      split at h
      · obtain rfl := Option.some.inj h
        refine RType.plainUnion_ofMembers fun m hm => (ht hmode).2 m ?_
        rw [hmembers]
        exact (List.mem_filter.mp hm).1
      · simp at h
  · simp at h

theorem describes_complement {view : BranchGuardView} {complement : RType}
    (h : Covers view.ty v) (hview : view.isComplementView complement = true) :
    complement.describes v = true := by
  simp only [BranchGuardView.isComplementView, Bool.and_eq_true] at hview
  obtain ⟨ty, hty, hv⟩ := h
  rw [hty] at hview
  exact (RType.describes_congr (RType.sameShape_of_eq hview.2) v).symm.trans hv

theorem rebindViewType_of_narrowed {view : BranchGuardView} (h : view.narrowed = true)
    (original : RType) : view.rebindViewType original = none := by
  simp [BranchGuardView.rebindViewType, h]

/-- A refinement of a binding that is not `NULL` alone covers what the condition's own
view of it does. -/
theorem describes_of_guardView {m : RType} {arm : BranchGuardView}
    (hsurviving : ∀ view ∈ w.surviving, view = arm) (hplain : w.original.PlainUnion)
    (hnull : w.original.mode ≠ .null) (h : Covers arm.ty v)
    (hshapes : ∀ complement, complement.PlainUnion →
      w.refinementShapes complement = some m → m.describes v = true)
    (hm : w.continuationRefinement = some m) : m.describes v = true := by
  simp only [continuationRefinement] at hm
  split at hm
  · exact Option.some.inj hm ▸ describes_unknown v
  · split at hm
    · rename_i view hview
      obtain rfl := hsurviving view (Option.mem_filter_iff.mp hview).1
      exact Covers.describes (hm ▸ h)
    · split at hm
      · simp at hm
      · rename_i complement hcomplement
        split at hm
        · split at hm
          · simp at hm
          · exact hshapes complement (plainUnion_narrowAwayFromNull hplain hcomplement) hm
        · rename_i hmode
          exact absurd hmode hnull
        · simp at hm

theorem describes_refinementShapes_of_guard_then (hview : w.thenView.narrowed = true)
    (hreturn : w.thenReturnDiverges = false) (h : Covers w.thenView.ty v) {complement m : RType}
    (hplain : complement.PlainUnion) (hm : w.refinementShapes complement = some m) :
    m.describes v = true := by
  have hrebind := rebindViewType_of_narrowed hview w.original
  simp only [refinementShapes, hreturn, hrebind, Bool.false_and, Bool.not_false, Bool.and_true,
    Bool.true_and, Bool.false_eq_true, if_false] at hm
  split at hm
  · split at hm
    · rename_i hcomplement
      exact Option.some.inj hm ▸ describes_complement h hcomplement
    · simp at hm
  · split at hm
    · split at hm
      · rename_i rebound _ hcomplement
        obtain rfl : complement.join rebound = m := by simpa using hm
        exact RType.describes_join_left hplain rebound (describes_complement h hcomplement)
      · simp at hm
    · simp at hm

theorem describes_refinementShapes_of_guard_else (hview : w.elseView.narrowed = true)
    (hreturn : w.elseReturnDiverges = false) (h : Covers w.elseView.ty v) {complement m : RType}
    (hplain : complement.PlainUnion) (hm : w.refinementShapes complement = some m) :
    m.describes v = true := by
  have hrebind := rebindViewType_of_narrowed hview w.original
  simp only [refinementShapes, hreturn, hrebind, Bool.false_and, Bool.not_false, Bool.and_true,
    Bool.false_eq_true, if_false] at hm
  split at hm
  · split at hm
    · rename_i hcomplement
      exact Option.some.inj hm ▸ describes_complement h hcomplement
    · simp at hm
  · split at hm
    · split at hm
      · rename_i rebound _ hcomplement
        obtain rfl : rebound.join complement = m := by simpa using hm
        exact RType.describes_join_right rebound hplain (describes_complement h hcomplement)
      · simp at hm
    · simp at hm

/-- A refinement that says something of every shape and every rebind says it. -/
theorem describes_continuationRefinement {m : RType}
    (hsurviving : ∀ view ∈ w.surviving, view.narrowed = false)
    (hshapes : ∀ complement, w.refinementShapes complement = some m → m.describes v = true)
    (hnull : ∀ complement, w.nullRebind complement = some m → m.describes v = true)
    (hm : w.continuationRefinement = some m) : m.describes v = true := by
  have hunknown : w.surviving.elim false (·.isUnknownNarrowing) = false := by
    cases hs : w.surviving with
    | none => rfl
    | some view => exact BranchGuardView.isUnknownNarrowing_of_plain (hsurviving view hs)
  have hbound : ∀ defaulted : Bool, (w.surviving.filter fun view =>
      !defaulted && view.isLengthBoundNarrowing w.original) = none := by
    intro defaulted
    cases hs : w.surviving with
    | none => rfl
    | some view =>
      simp [Option.filter, BranchGuardView.isLengthBoundNarrowing_of_plain (hsurviving view hs)]
  simp only [continuationRefinement, hunknown, hbound, Bool.false_eq_true, if_false] at hm
  cases hcomplement : w.original.narrowAwayFromNull with
  | none => simp [hcomplement] at hm
  | some complement =>
    simp only [hcomplement] at hm
    split at hm
    · split at hm
      · simp at hm
      · exact hshapes complement hm
    · split at hm
      · exact hshapes complement hm
      · split at hm
        · simp at hm
        · obtain ⟨rebound, hrebound, hm⟩ := Option.map_eq_some_iff.mp hm
          split at hm
          · exact hm ▸ describes_unknown v
          · exact hnull complement (hm ▸ hrebound)
    · simp at hm

end UnionGuardViews

namespace IfStatement

variable (c : IfStatement) (ends : Ends)

/-- The state is the condition's own view of the binding. -/
def GuardView (n : String) (st : BindingState) : Prop :=
  n ∈ c.narrowed ∧ st.markers.narrowed = true

instance (n : String) (st : BindingState) : Decidable (c.GuardView n st) := by
  unfold GuardView
  infer_instance

/-- An arm's type is a change, or what the name had. -/
theorem changedType_of_not_guardView {n : String} {st : BindingState} (hview : ¬ c.GuardView n st)
    {a : RType} (ha : st.ty = some a) (base : Option RType) :
    c.changedType n base st.view = some a ∨
      c.changedType n base st.view = none ∧ ∃ o, base = some o ∧ o.eq a = true := by
  have hty : st.view.ty = some a := ha
  unfold changedType
  rw [if_neg (by exact hview), hty]
  cases base with
  | none => exact .inl rfl
  | some o =>
    cases heq : o.eq a with
    | false => exact .inl (by simp [Option.filter, heq])
    | true => exact .inr ⟨by simp [Option.filter, heq], o, rfl, heq⟩

/-- The arm's type describes the value; and where it is the condition's own view, so does
the type before the `if`, which is not `NULL` alone. -/
structure ViewCovers (n : String) (b st : BindingState) (v : RValue) : Prop where
  covers : Covers st.ty v
  guard : c.GuardView n st → Covers b.ty v ∧ ∀ ty ∈ b.ty, ty.mode ≠ .null

/-- An arm's type is covered by its change, or by what the name had. -/
theorem covers_changedType {n : String} {b st : BindingState} {v : RValue}
    (h : c.ViewCovers n b st v) :
    Covers (c.changedType n b.ty st.view) v ∨
      c.changedType n b.ty st.view = none ∧ Covers b.ty v := by
  by_cases hview : c.GuardView n st
  · exact .inr ⟨if_pos hview, (h.guard hview).1⟩
  · obtain ⟨a, ha, hv⟩ := h.covers
    rcases c.changedType_of_not_guardView hview ha b.ty with hsome | ⟨hnone, o, ho, heq⟩
    · exact .inl (hsome ▸ covers_some hv)
    · exact .inr ⟨hnone, ho ▸ covers_some (describes_of_eq heq hv)⟩

/-- Joining the arms' types loses neither, and a name one arm left alone keeps its own. -/
theorem covers_mergedType {n : String} {v : RValue} {original thenTy elseTy : Option RType}
    (hbase : ∀ ty ∈ original, ty.PlainUnion) (hthen : ∀ ty ∈ thenTy, ty.PlainUnion)
    (helse : ∀ ty ∈ elseTy, ty.PlainUnion)
    (h : Covers thenTy v ∨ Covers elseTy v ∨
      ((thenTy = none ∨ elseTy = none) ∧ Covers original v)) :
    Covers ((c.mergedType n original thenTy elseTy).or original) v := by
  match thenTy, elseTy with
  | none, none =>
    rcases h with h | h | h
    · exact absurd h (not_covers_none v)
    · exact absurd h (not_covers_none v)
    · exact h.2
  | some a, some b =>
    have hjoin : (a.join b).describes v = true := by
      rcases h with h | h | h
      · exact RType.describes_join_left (hthen a rfl) b h.describes
      · exact RType.describes_join_right a (helse b rfl) h.describes
      · simp at h
    cases original with
    | none => exact covers_some hjoin
    | some parent =>
      simp only [mergedType]
      split
      · exact covers_some hjoin
      · exact covers_some
          (RType.describes_join_right parent ((hthen a rfl).join (helse b rfl)) hjoin)
  | some a, none =>
    cases original with
    | none => exact covers_some (describes_unknown v)
    | some parent =>
      rcases h with h | h | h
      · exact covers_some (RType.describes_join_right parent (hthen a rfl) h.describes)
      · exact absurd h (not_covers_none v)
      · exact covers_some (RType.describes_join_left (hbase parent rfl) a h.2.describes)
  | none, some b =>
    cases original with
    | none => exact covers_some (describes_unknown v)
    | some parent =>
      rcases h with h | h | h
      · exact absurd h (not_covers_none v)
      · exact covers_some (RType.describes_join_right parent (helse b rfl) h.describes)
      · exact covers_some (RType.describes_join_left (hbase parent rfl) b h.2.describes)

/-! ## One arm -/

/-- The arm reaches the code after the `if`, as far as the walker can tell. -/
def Continues (returns : Bool × Bool) : NarrowingBranch → Prop
  | .thenBranch =>
    ends.thenUnreachable = false ∧ c.thenLeaves ends = false ∧ returns.1 = false
  | .elseBranch =>
    ends.elseUnreachable = false ∧ c.elseLeaves ends = false ∧ returns.2 = false

/-- The types the merge joins for a name have no class of their own on a union. -/
structure PlainTypes (b t e : BindingState) : Prop where
  base : ∀ ty ∈ b.ty, ty.PlainUnion
  thenTy : ∀ ty ∈ t.ty, ty.PlainUnion
  elseTy : ∀ ty ∈ e.ty, ty.PlainUnion

theorem mem_changedType {n : String} {base : Option RType} {st : BindingState} {ty : RType}
    (h : ty ∈ c.changedType n base st.view) : ty ∈ st.ty := by
  unfold changedType at h
  split at h
  · simp at h
  · exact (Option.mem_filter_iff.mp h).1

/-- The type the merge writes. -/
theorem map_mergeWrite (b t e : BindingState) (n : String) :
    (c.mergeWrite ends b t e n).map Prod.fst =
      if ends.inLoop && !thenReaches ends && !c.hasElse then none
      else if c.hasElse && thenReaches ends != c.elseReaches ends then
        c.changedType n b.ty (if thenReaches ends then t.view else e.view)
      else c.mergedType n b.ty (c.changedType n b.ty t.view)
        (if c.hasElse then c.changedType n b.ty e.view else none) := by
  simp only [mergeWrite, mergeViews]
  split
  · rfl
  · split <;> simp [Option.map_map, Function.comp_def]

section Arm

variable {b t e : BindingState} {n : String} {v : RValue}

theorem covers_or_of_changed {base changed : Option RType}
    (h : Covers changed v ∨ changed = none ∧ Covers base v) : Covers (changed.or base) v := by
  rcases h with h | ⟨rfl, h⟩
  · obtain ⟨ty, rfl, hv⟩ := h
    exact covers_some hv
  · exact h

/-- What the then arm leaves is covered by what the merge writes, or by what it leaves. -/
theorem covers_mergeWrite_then (hplain : PlainTypes b t e) (hreach : ends.thenUnreachable = false)
    (h : c.ViewCovers n b t v) : Covers (((c.mergeWrite ends b t e n).map Prod.fst).or b.ty) v := by
  have hreaches : thenReaches ends = true := by simp [thenReaches, hreach]
  have hchanged := c.covers_changedType h
  rw [map_mergeWrite, hreaches]
  simp only [Bool.not_true, Bool.and_false, Bool.false_and, Bool.false_eq_true, if_false, if_true]
  split
  · exact covers_or_of_changed hchanged
  · refine c.covers_mergedType hplain.base (fun ty h => hplain.thenTy ty (c.mem_changedType h))
      (fun ty h => ?_) ?_
    · split at h
      · exact hplain.elseTy ty (c.mem_changedType h)
      · simp at h
    · rcases hchanged with h | ⟨hnone, h⟩
      · exact .inl h
      · exact .inr (.inr ⟨.inl hnone, h⟩)

/-- The same of the else arm; without an `else`, the false path has only the condition's
own views. -/
theorem covers_mergeWrite_else (hplain : PlainTypes b t e) (hreach : ends.elseUnreachable = false)
    (hbare : c.hasElse = false → c.GuardView n e ∨ e.ty = b.ty) (h : c.ViewCovers n b e v) :
    Covers (((c.mergeWrite ends b t e n).map Prod.fst).or b.ty) v := by
  rw [map_mergeWrite]
  cases hElse : c.hasElse with
  | false =>
    have hb : Covers b.ty v := by
      rcases hbare hElse with hview | hsame
      · exact (h.guard hview).1
      · exact hsame ▸ h.covers
    simp only [Bool.not_false, Bool.and_true, Bool.false_and, Bool.false_eq_true, if_false]
    split
    · exact hb
    · exact c.covers_mergedType hplain.base (fun ty h => hplain.thenTy ty (c.mem_changedType h))
        (by simp) (.inr (.inr ⟨.inr rfl, hb⟩))
  | true =>
    have hreaches : c.elseReaches ends = true := by simp [elseReaches, hElse, hreach]
    have hchanged := c.covers_changedType h
    simp only [hreaches, Bool.not_true, Bool.and_false, Bool.false_eq_true, if_false, if_true,
      Bool.true_and]
    split
    · rename_i hone
      have hthen : thenReaches ends = false := by simpa using hone
      simpa [hthen] using covers_or_of_changed hchanged
    · refine c.covers_mergedType hplain.base (fun ty h => hplain.thenTy ty (c.mem_changedType h))
        (fun ty h => hplain.elseTy ty (c.mem_changedType h)) ?_
      rcases hchanged with h | ⟨hnone, h⟩
      · exact .inr (.inl h)
      · exact .inr (.inr ⟨.inr hnone, h⟩)

theorem continuationFact_then (hleaves : c.thenLeaves ends = false) :
    c.continuationFact ends t e n = (none, false) ∨
      c.continuationFact ends t e n = (t.ty, t.markers.defaultParameter) := by
  unfold continuationFact
  split
  · unfold continuationArm
    rw [hleaves]
    cases c.hasElse <;> cases c.elseLeaves ends <;> simp
  · exact .inl rfl

theorem continuationFact_else (hleaves : c.elseLeaves ends = false) :
    c.continuationFact ends t e n = (none, false) ∨
      c.continuationFact ends t e n = (e.ty, e.markers.defaultParameter) := by
  unfold continuationFact
  split
  · unfold continuationArm
    rw [hleaves]
    cases c.thenLeaves ends <;> cases c.hasElse <;> simp
  · exact .inl rfl

/-- A fact that is the arm's own type, if anything, covers what the arm's does. -/
theorem covers_fact {fact : Option RType × Bool} {arm base : Option RType} {default : Bool}
    (hfact : fact = (none, false) ∨ fact = (arm, default)) (harm : Covers arm v)
    (hbase : Covers base v) : Covers (fact.1.or base) v := by
  rcases hfact with rfl | rfl
  · exact hbase
  · obtain ⟨ty, rfl, hv⟩ := harm
    exact covers_some hv

theorem covers_unionGuardFact_then {returns : Bool × Bool} (hplain : PlainTypes b t e)
    (hreturn : returns.1 = false) (h : c.ViewCovers n b t v) {base : Option RType}
    (hbase : Covers base v) : Covers ((c.unionGuardFact ends b t e returns n).or base) v := by
  cases hfact : c.unionGuardFact ends b t e returns n with
  | none => exact hbase
  | some m =>
    unfold unionGuardFact at hfact
    split at hfact
    swap
    · simp at hfact
    rename_i hn
    obtain ⟨original, horiginal, hm⟩ := Option.bind_eq_some_iff.mp hfact
    obtain ⟨r, r'⟩ := returns
    obtain rfl : r = false := hreturn
    have hsurviving : ∀ view, UnionGuardViews.surviving
        ⟨original, t.view.guard, e.view.guard, b.markers.defaultParameter, false, r',
          thenReaches ends, c.elseReaches ends, c.hasElse⟩ = some view → view = t.view.guard := by
      intro view hs
      cases r' <;> simp_all [UnionGuardViews.surviving]
    cases hmark : t.markers.narrowed with
    | false =>
      exact covers_some (UnionGuardViews.describes_continuationRefinement
        (fun view hs => hsurviving view hs ▸ hmark)
        (fun _ => UnionGuardViews.describes_refinementShapes_then hmark rfl hplain.thenTy h.covers)
        (fun _ => UnionGuardViews.describes_nullRebind_then hmark h.covers) hm)
    | true =>
      have hguard := h.guard ⟨hn, hmark⟩
      exact covers_some (UnionGuardViews.describes_of_guardView hsurviving
        (hplain.base original horiginal) (hguard.2 original horiginal) h.covers
        (fun _ => UnionGuardViews.describes_refinementShapes_of_guard_then hmark rfl h.covers) hm)

theorem covers_unionGuardFact_else {returns : Bool × Bool} (hplain : PlainTypes b t e)
    (hreturn : returns.2 = false) (h : c.ViewCovers n b e v) {base : Option RType}
    (hbase : Covers base v) : Covers ((c.unionGuardFact ends b t e returns n).or base) v := by
  cases hfact : c.unionGuardFact ends b t e returns n with
  | none => exact hbase
  | some m =>
    unfold unionGuardFact at hfact
    split at hfact
    swap
    · simp at hfact
    rename_i hn
    obtain ⟨original, horiginal, hm⟩ := Option.bind_eq_some_iff.mp hfact
    obtain ⟨r, r'⟩ := returns
    obtain rfl : r' = false := hreturn
    have hsurviving : ∀ view, UnionGuardViews.surviving
        ⟨original, t.view.guard, e.view.guard, b.markers.defaultParameter, r, false,
          thenReaches ends, c.elseReaches ends, c.hasElse⟩ = some view → view = e.view.guard := by
      intro view hs
      cases r <;> simp_all [UnionGuardViews.surviving]
    cases hmark : e.markers.narrowed with
    | false =>
      exact covers_some (UnionGuardViews.describes_continuationRefinement
        (fun view hs => hsurviving view hs ▸ hmark)
        (fun _ => UnionGuardViews.describes_refinementShapes_else hmark rfl hplain.elseTy h.covers)
        (fun _ => UnionGuardViews.describes_nullRebind_else hmark h.covers) hm)
    | true =>
      have hguard := h.guard ⟨hn, hmark⟩
      exact covers_some (UnionGuardViews.describes_of_guardView hsurviving
        (hplain.base original horiginal) (hguard.2 original horiginal) h.covers
        (fun _ => UnionGuardViews.describes_refinementShapes_of_guard_else hmark rfl h.covers) hm)

/-- The type the merge leaves a name covers what a value written, or kept, covers. -/
theorem covers_mergeState {journaling : Bool} {returns : Bool × Bool}
    (hwrite : Covers (((c.mergeWrite ends b t e n).map Prod.fst).or b.ty) v)
    (hfact : ∀ {base}, Covers base v → Covers ((c.continuationFact ends t e n).1.or base) v)
    (hguard : ∀ {base}, Covers base v → Covers ((c.unionGuardFact ends b t e returns n).or base) v) :
    Covers (c.mergeState ends b t e journaling returns n).ty v := by
  have hmerged : Covers ((c.settled ends b t e).afterMerged journaling
      (c.mergeWrite ends b t e n)).ty v := BindingState.covers_afterMerged journaling hwrite
  have hcontinued := BindingState.covers_afterFact journaling (hfact hmerged)
  have hguarded := BindingState.covers_afterGuard (hguard hcontinued)
  unfold mergeState
  cases joinBoxes (c.boxPathObjects ends b t e) with
  | none => exact hguarded
  | some object =>
    simp only [Option.elim_some, BindingState.ty_withBoxObject]
    exact hguarded

/-- Whatever a continuing arm leaves a name to be, the merge records. -/
theorem covers_of_continues {journaling : Bool} {returns : Bool × Bool}
    (hplain : PlainTypes b t e) (hbare : c.hasElse = false → c.GuardView n e ∨ e.ty = b.ty)
    (branch : NarrowingBranch) (hcontinues : c.Continues ends returns branch)
    (h : c.ViewCovers n b (branch.pick t e) v) :
    Covers (c.mergeState ends b t e journaling returns n).ty v := by
  cases branch with
  | thenBranch =>
    obtain ⟨hreach, hleaves, hreturn⟩ := hcontinues
    exact c.covers_mergeState ends (c.covers_mergeWrite_then ends hplain hreach h)
      (covers_fact (c.continuationFact_then ends hleaves) h.covers)
      (c.covers_unionGuardFact_then ends hplain hreturn h)
  | elseBranch =>
    obtain ⟨hreach, hleaves, hreturn⟩ := hcontinues
    exact c.covers_mergeState ends (c.covers_mergeWrite_else ends hplain hreach hbare h)
      (covers_fact (c.continuationFact_else ends hleaves) h.covers)
      (c.covers_unionGuardFact_else ends hplain hreturn h)

/-- A name that was unbound, and is bound on one of two continuing arms, gets the unknown
type: it may be missing. -/
theorem mergeState_of_one_arm {journaling : Bool} {returns : Bool × Bool} (hbase : b.ty = none)
    (hthen : c.Continues ends returns .thenBranch) (helse : c.Continues ends returns .elseBranch)
    (hone : c.mergedType n none (c.changedType n none t.view)
      (if c.hasElse then c.changedType n none e.view else none) = some RType.unknown) :
    (c.mergeState ends b t e journaling returns n).ty = some RType.unknown := by
  obtain ⟨hreach, hleaves, -⟩ := hthen
  obtain ⟨hreach', hleaves', -⟩ := helse
  have hwrite : (c.mergeWrite ends b t e n).map Prod.fst = some RType.unknown := by
    rw [map_mergeWrite, hbase, hone]
    simp [thenReaches, elseReaches, hreach, hreach']
  have hfact : c.continuationFact ends t e n = (none, false) := by
    unfold continuationFact continuationArm
    rw [hleaves, hleaves']
    cases c.hasElse <;> simp
  have hguard : c.unionGuardFact ends b t e returns n = none := by
    simp [unionGuardFact, guardFact, hbase]
  obtain ⟨⟨ty, listOrigin⟩, hw, hty⟩ := Option.map_eq_some_iff.mp hwrite
  obtain rfl : ty = RType.unknown := hty
  have hmerged : ((c.settled ends b t e).afterMerged journaling (some (RType.unknown, listOrigin))).ty
      = some RType.unknown := by
    have hkeeps : (c.settled ends b t e).keepsType RType.unknown = false := by
      simp [BindingState.keepsType, settled, hbase]
    cases listOrigin <;> simp [BindingState.afterMerged, BindingState.afterInsert, hkeeps]
  unfold mergeState
  rw [hw, hfact, hguard]
  cases joinBoxes (c.boxPathObjects ends b t e) with
  | none => exact hmerged
  | some object =>
    simp only [Option.elim_some, BindingState.ty_withBoxObject]
    exact hmerged

end Arm

end IfStatement

namespace IfRun

variable (r : IfRun)

theorem capture_applyFailedNamespaceBranch (s : Scope) (guard : Option (String × Bool))
    (branch : NarrowingBranch) (n : String) :
    (s.applyFailedNamespaceBranch guard branch).capture n = s.capture n := by
  unfold Scope.applyFailedNamespaceBranch
  split
  · rfl
  · split <;> rfl

/-- Without an `else`, the false path has only the condition's own views. -/
theorem view_elseEnd_of_bare (hbare : r.header.hasElse = false) (n : String) :
    (r.elseEnd.facts n).view = (r.start.capture n).view ∨
      ∃ ty, (r.elseEnd.facts n).view =
          { (r.start.capture n).view with ty := some ty, narrowed := true } ∧
        (n ∈ r.statement.narrowed ∨ r.start.get n = some ty) := by
  have hwalk : r.header.elseWalk r.elseArm.run = id := by
    rw [IfHeader.elseWalk, hbare]
    rfl
  have hbase := Scope.walkArm_base r.thenArm.journaled r.start r.header .thenBranch
  generalize hopened : (r.start.walkArm r.header .thenBranch r.thenArm.run).base.beginSnapshot.1
    = opened
  have hpos : 0 < opened.journal.depth := by
    rw [← hopened]
    exact Nat.succ_pos _
  have hstart : opened.capture n = r.start.capture n := by
    rw [← hopened, hbase]
    rfl
  have hend : (r.elseEnd).capture n =
      (opened.applyNarrowingBranch r.header.narrowing .elseBranch).1.capture n := by
    rw [elseEnd, Scope.elseEnd, Scope.armEnd, hwalk, hopened]
    exact capture_applyFailedNamespaceBranch _ _ _ n
  have hview : (r.elseEnd.facts n).view =
      ((opened.applyNarrowingBranch r.header.narrowing .elseBranch).1.capture n).view :=
    (show (r.elseEnd.facts n).view = (r.elseEnd.capture n).view from rfl).trans
      (congrArg BindingState.view hend)
  have honly := Scope.onlyNarrows_run
    (Scope.narrowRun_applyNarrowingBranch r.header.narrowing .elseBranch opened) hpos
  rw [hview, ← hstart]
  refine (honly.view n).imp_right ?_
  rintro ⟨ty, hty, hreported⟩
  refine ⟨ty, hty, hreported.imp ?_ ?_⟩
  · intro hmem
    have hnames : (walkArms r.header r.thenArm.run r.elseArm.run r.start).2.2.narrowed =
        (r.start.walkArm r.header .thenBranch r.thenArm.run).narrowed.toFinset ∪
          (opened.applyNarrowingBranch r.header.narrowing .elseBranch).2.toFinset := by
      rw [← hopened]
      rfl
    rw [statement, walked, hnames]
    exact Finset.mem_union_right _ (List.mem_toFinset.mpr hmem)
  · exact fun hget => (congrArg BindingState.ty hstart).symm.trans hget

theorem elseEnd_of_bare (hbare : r.header.hasElse = false) (n : String) :
    r.statement.GuardView n (r.elseEnd.facts n) ∨
      (r.elseEnd.facts n).ty = (r.start.capture n).ty := by
  rcases r.view_elseEnd_of_bare hbare n with hsame | ⟨ty, hview, hmem | hget⟩
  · exact .inr (congrArg BindingView.ty hsame)
  · exact .inl ⟨hmem, congrArg BindingView.narrowed hview⟩
  · exact .inr ((congrArg BindingView.ty hview).trans hget.symm)

/-- Where an arm ends. -/
def branchEnd : NarrowingBranch → Scope
  | .thenBranch => r.thenEnd
  | .elseBranch => r.elseEnd

/-- The arm reaches the code after the `if`. -/
def Continues (branch : NarrowingBranch) : Prop :=
  r.statement.Continues r.ends r.returns branch

/-- The arm's type for the name is the condition's own view of the binding. -/
def GuardView (branch : NarrowingBranch) (n : String) : Prop :=
  n ∈ r.statement.narrowed ∧ marked (r.branchEnd branch).narrowedBindings n = true

/-- No type the merge sees of the name is a union with a class of its own. -/
def PlainTypes (n : String) : Prop :=
  IfStatement.PlainTypes (r.start.capture n) (r.thenEnd.facts n) (r.elseEnd.facts n)

theorem capture_after (n : String) : r.after.capture n = r.stateAfter n := by
  obtain ⟨_, -, hholds⟩ := r.holds_after
  exact hholds.capture n

theorem get_after (n : String) : r.after.get n = (r.stateAfter n).ty :=
  congrArg BindingState.ty (r.capture_after n)

/-- Every value that a continuing arm's type of a name describes is described after the
`if`, unless the type is the condition's own view. -/
theorem covers_after (n : String) (hplain : r.PlainTypes n) (branch : NarrowingBranch)
    (hcontinues : r.Continues branch) {v : RValue} (h : Covers ((r.branchEnd branch).get n) v)
    (hview : r.GuardView branch n →
      Covers (r.start.get n) v ∧ ∀ ty ∈ r.start.get n, ty.mode ≠ .null) :
    Covers (r.after.get n) v := by
  rw [get_after]
  refine r.statement.covers_of_continues r.ends hplain (fun h => r.elseEnd_of_bare h n) branch
    hcontinues ?_
  cases branch <;> exact ⟨h, hview⟩

theorem changedType_none_left (c : IfStatement) {n : String} {st : BindingState}
    (h : st.ty = none) : c.changedType n none st.view = none := by
  have hty : st.view.ty = none := h
  unfold IfStatement.changedType
  rw [hty]
  split <;> rfl

/-- The other branch. -/
def other : NarrowingBranch → NarrowingBranch
  | .thenBranch => .elseBranch
  | .elseBranch => .thenBranch

/-- A name that was unbound, and is bound on one of two continuing arms, gets the unknown
type. -/
theorem get_after_of_one_arm (n : String) (hstart : r.start.get n = none)
    (hcontinues : ∀ branch, r.Continues branch) (branch : NarrowingBranch)
    (hbound : ((r.branchEnd branch).get n).isSome = true) (hview : ¬ r.GuardView branch n)
    (hother : (r.branchEnd (other branch)).get n = none) :
    r.after.get n = some RType.unknown := by
  rw [get_after]
  refine r.statement.mergeState_of_one_arm r.ends hstart (hcontinues _) (hcontinues _) ?_
  obtain ⟨a, ha⟩ := Option.isSome_iff_exists.mp hbound
  cases branch with
  | thenBranch =>
    have hthen := r.statement.changedType_of_not_guardView
      (show ¬ r.statement.GuardView n (r.thenEnd.facts n) from hview) ha none
    have helse := changedType_none_left r.statement (n := n)
      (show (r.elseEnd.facts n).ty = none from hother)
    rcases hthen with h | ⟨-, o, ho, -⟩
    · rw [h, helse, ite_self]
      rfl
    · simp at ho
  | elseBranch =>
    have helse := r.statement.changedType_of_not_guardView
      (show ¬ r.statement.GuardView n (r.elseEnd.facts n) from hview) ha none
    have hthen := changedType_none_left r.statement (n := n)
      (show (r.thenEnd.facts n).ty = none from hother)
    cases hElse : r.statement.hasElse with
    | false =>
      have hsame : r.elseEnd.get n = r.start.get n := (r.elseEnd_of_bare hElse n).resolve_left hview
      have hsome : r.elseEnd.get n = some a := ha
      rw [hsome, hstart] at hsame
      simp at hsame
    | true =>
      rcases helse with h | ⟨-, o, ho, -⟩
      · rw [h, hthen]
        rfl
      · simp at ho

end IfRun

/-! ## Runs -/

/-- An `if` neither of whose arms leaves. -/
def plainIf (narrowing : Narrowing) (hasElse : Bool) : IfHeader where
  narrowing := narrowing
  failedNamespace := none
  hasElse := hasElse
  literalCond := none
  thenExits := false
  elseExits := false
  thenDiverges := false
  elseDiverges := false
  thenAssigned := ∅
  elseAssigned := ∅
  returnShadowed := false

theorem returns_of_not_diverges (r : IfRun) (hthen : r.header.thenDiverges = false)
    (helse : r.header.elseDiverges = false) : r.returns = (false, false) := by
  have hthen' : r.statement.thenDiverges = false := hthen
  have helse' : r.statement.elseDiverges = false := helse
  simp [IfRun.returns, Deltas.returnDiverges, hthen', helse']

/-- `if (flag) z <- 1L` -/
noncomputable def assignRun : IfRun where
  order := .sorted
  header := plainIf .none false
  thenArm := .step .sorted (.insert "z" (.scalar .integer)) .done
  elseArm := .done
  start := .default

theorem assignRun_then :
    Scope.Rewrites Scope.default.beginSnapshot.1 assignRun.thenEnd "z"
      { BindingState.default with ty := some (.scalar .integer) } false :=
  Scope.rewrites_insert (s := Scope.default.beginSnapshot.1) rfl .sorted "z" (.scalar .integer)

theorem assignRun_thenEnd : assignRun.thenEnd.get "z" = some (.scalar .integer) :=
  congrArg BindingState.ty assignRun_then.self

theorem assignRun_elseEnd : assignRun.elseEnd.get "z" = none :=
  (assignRun.elseEnd_of_bare rfl "z").resolve_left fun h => absurd h.1 (by decide)

theorem assignRun_continues (branch : NarrowingBranch) : assignRun.Continues branch := by
  have hreturns := returns_of_not_diverges assignRun rfl rfl
  have hthen : assignRun.thenEnd.unreachable = false :=
    congrArg Scope.unreachable assignRun_then.rest
  have helse : assignRun.elseEnd.unreachable = false :=
    congrArg Scope.unreachable (Scope.walkArm_base assignRun.thenArm.journaled assignRun.start
      assignRun.header .thenBranch)
  have hloop : assignRun.ends.inLoop = false := rfl
  cases branch with
  | thenBranch =>
    refine ⟨hthen, ?_, congrArg Prod.fst hreturns⟩
    simp [IfStatement.thenLeaves, hloop]
    rfl
  | elseBranch =>
    refine ⟨helse, ?_, congrArg Prod.snd hreturns⟩
    simp [IfStatement.elseLeaves, hloop]
    exact fun _ => rfl

def characterScope : Scope :=
  { Scope.default with bindings := Bindings.empty.insert "y" (.scalar .character) }

/-- `if (is.character(y)) {} else {}` -/
noncomputable def characterRun : IfRun where
  order := .sorted
  header := plainIf (.positive "y" (.scalar .character)) true
  thenArm := .done
  elseArm := .done
  start := characterScope

/-- At the end of the else arm `y` may be anything, and after the `if` it is the
character it was. -/
theorem characterRun_narrows :
    characterRun.elseEnd.get "y" = some RType.unknown ∧
      characterRun.after.get "y" = some (.scalar .character) := by
  refine ⟨rfl, ?_⟩
  rw [IfRun.get_after, IfRun.stateAfter, returns_of_not_diverges characterRun rfl rfl]
  rfl

end Ry
