import Ry.Core.Arith
import Ry.Core.Element
import Ry.Infer.Guard

/-! # The unions a run builds

Inference builds types from literals by joins, elements, arithmetic, comparisons and null
guards.  The unions of such a run are well formed as long as no join in it merges two unions
so that members become equal (`Reachable.unionShape`); two `if`s over integer constants and a
string do just that (`merged_members_equal`).
-/

namespace Ry

open RType

/-- An operation of inference and the types it is applied to. -/
inductive TypeStep
  | join (self other : RType)
  | element (t : RType)
  | arith (self rhs : RType) (op : BinOpKind)
  | compare (self rhs : RType)
  | narrowAwayFromNull (t : RType)

namespace TypeStep

def operands : TypeStep → List RType
  | join a b | arith a b _ | compare a b => [a, b]
  | element t | narrowAwayFromNull t => [t]

/-- `none` where the operation fails, or narrows nothing. -/
def result : TypeStep → Option RType
  | join a b => some (a.join b)
  | element t => some t.element
  | arith a b op => a.arithFor b op
  | compare a b => a.compare b
  | narrowAwayFromNull t => t.narrowAwayFromNull

/-- No join the operation makes merges two members of a union into equal ones. -/
def Apart : TypeStep → Prop
  | join a b => JoinsApart a b
  | element t => t.ElementApart
  | arith .. | compare .. | narrowAwayFromNull _ => True

end TypeStep

/-- The types of a run whose steps satisfy `ok`. -/
inductive Reachable (ok : TypeStep → Prop) : RType → Prop
  | base {t : RType} (hmode : t.mode ≠ .union) (h : t.WellFormed) : Reachable ok t
  | step {s : TypeStep} {t : RType} (hs : ∀ u ∈ s.operands, Reachable ok u) (hok : ok s)
      (h : s.result = some t) : Reachable ok t

namespace RType

theorem Single.wellFormed {t : RType} (h : t.Single) : t.WellFormed :=
  wellFormed_of_plain h.mode h.members h.columns

/-- Joining a type that is no union merges no members. -/
theorem Single.joinsApart {t u : RType} (hu : u.Single) : JoinsApart t u := by
  intro _ _ hcollides
  cases hcollides with
  | members _ hns _ => simp [hu.members] at hns
  | inMember _ hns _ _ => simp [hu.members] at hns
  | inColumn _ hs _ _ => simp [hu.columns] at hs

theorem wellFormed_foldl_single {t : RType} {us : List RType} (ht : t.WellFormed)
    (hus : ∀ u ∈ us, u.Single) : (us.foldl join t).WellFormed := by
  induction us generalizing t with
  | nil => exact ht
  | cons u us ih =>
    rw [List.forall_mem_cons] at hus
    exact ih ((wellFormed_join_iff ht hus.1.wellFormed).mpr hus.1.joinsApart) hus.2

/-- What distribution joins is never a union, whatever the operands are. -/
theorem wellFormed_distribute {op : RType → RType → Option RType}
    (hop : ∀ l r out, op l r = some out → out.Single) {lhs rhs t : RType}
    (h : distribute op lhs rhs = some t) : t.WellFormed := by
  have hsingle : ∀ u ∈ lhs.operands.flatMap fun l => rhs.operands.filterMap (op l), u.Single := by
    intro u hu
    obtain ⟨l, -, hu⟩ := List.mem_flatMap.mp hu
    obtain ⟨r, -, hu⟩ := List.mem_filterMap.mp hu
    exact hop l r u hu
  unfold distribute at h
  split at h
  · cases h
  · rename_i u us hus
    rw [hus, List.forall_mem_cons] at hsingle
    obtain rfl := Option.some.inj h
    exact wellFormed_foldl_single hsingle.1.wellFormed hsingle.2

theorem wellFormed_apply {o : Operator} {lhs rhs t : RType} (h : o.apply lhs rhs = some t) :
    t.WellFormed :=
  wellFormed_distribute (fun _ _ _ => o.single_atomic) (o.apply_eq lhs rhs ▸ h)

/-- Taking `NULL` out of a union leaves different members. -/
theorem wellFormed_narrowAwayFromNull {t u : RType} (ht : t.WellFormed)
    (h : t.narrowAwayFromNull = some u) : u.WellFormed := by
  unfold narrowAwayFromNull at h
  split at h
  · obtain rfl := Option.some.inj h
    exact single_unknown.wellFormed
  · split at h
    · cases h
    · rename_i ms hms
      split at h
      · obtain rfl := Option.some.inj h
        have hsub : (ms.filter (·.mode != .null)).Sublist ms := List.filter_sublist
        refine wellFormed_ofMembers (hsub.length_le.trans (ht.shape.size ms hms).2) ?_
          ((ht.shape.distinct ms hms).sublist (hsub.map kind))
        intro m hm
        exact ⟨ht.member hms m (hsub.subset hm), ht.shape.flat ms hms m (hsub.subset hm)⟩
      · cases h
  · cases h

end RType

/-- One operation keeps unions well formed. -/
theorem TypeStep.wellFormed {s : TypeStep} {t : RType} (hs : ∀ u ∈ s.operands, u.WellFormed)
    (hapart : s.Apart) (h : s.result = some t) : t.WellFormed := by
  cases s with
  | join a b =>
    obtain rfl := Option.some.inj h
    exact (wellFormed_join_iff (hs a (by simp [operands])) (hs b (by simp [operands]))).mpr hapart
  | element u =>
    obtain rfl := Option.some.inj h
    exact wellFormed_element (hs u (by simp [operands])) hapart
  | arith a b op =>
    change a.arithFor b op = some t at h
    cases hop : op.isArithmetic with
    | false => simp [arithFor, hop] at h
    | true => exact wellFormed_apply (o := .arith op hop) h
  | compare a b => exact wellFormed_apply (o := .comparison) h
  | narrowAwayFromNull u => exact wellFormed_narrowAwayFromNull (hs u (by simp [operands])) h

theorem Reachable.wellFormed {t : RType} (h : Reachable TypeStep.Apart t) : t.WellFormed := by
  induction h with
  | base _ h => exact h
  | step _ hapart h ih => exact TypeStep.wellFormed ih hapart h

/-- Every union of such a run has two to four different members, none a union or unknown. -/
theorem Reachable.unionShape {t : RType} (h : Reachable TypeStep.Apart t) : t.UnionShape :=
  h.wellFormed.shape

theorem reachable_scalar {ok : TypeStep → Prop} {t : RType} (h : t.Single) : Reachable ok t :=
  .base h.mode h.wellFormed

theorem Reachable.join {ok : TypeStep → Prop} {a b : RType} (ha : Reachable ok a)
    (hb : Reachable ok b) (hok : ok (.join a b)) : Reachable ok (a.join b) :=
  .step (s := .join a b) (by simp [TypeStep.operands, ha, hb]) hok rfl

/-- The value of an `if` between `1L` and a string. -/
theorem unionShape_integer_or_string :
    ((integerLiteral 0x3FF0000000000000).join (scalar .character)).UnionShape :=
  Reachable.unionShape (.step (s := .join _ _)
    (List.forall_mem_cons.mpr ⟨reachable_scalar ⟨by decide, rfl, rfl, rfl⟩,
      List.forall_mem_singleton.mpr (reachable_scalar ⟨by decide, rfl, rfl, rfl⟩)⟩)
    (fun _ h => absurd h (by decide)) rfl)

/-- `1L`, a string or `2L` in one place, `3L`, a string or `4L` in another: their join merges
the unions member by member, and both integer members lose their value. -/
theorem merged_members_equal :
    ∃ t, Reachable (fun _ => True) t ∧ ¬ t.UnionShape := by
  have hliteral : ∀ bits, Reachable (fun _ => True) (integerLiteral bits) := fun bits =>
    reachable_scalar ⟨by simp [integerLiteral, scalar, new], rfl, rfl, rfl⟩
  have hstring : Reachable (fun _ => True) (scalar .character) :=
    reachable_scalar ⟨by decide, rfl, rfl, rfl⟩
  have hunion : ∀ a b, Reachable (fun _ => True)
      (((integerLiteral a).join (scalar .character)).join (integerLiteral b)) := fun a b =>
    ((hliteral a).join hstring trivial).join (hliteral b) trivial
  refine ⟨_, (hunion 0x3FF0000000000000 0x4000000000000000).join
    (hunion 0x4008000000000000 0x4010000000000000) trivial, ?_⟩
  generalize ht : RType.join _ _ = t
  intro h
  obtain ⟨a, b, c, hms, heq⟩ : ∃ a b c, t.members = some [a, b, c] ∧ a.eq c = true :=
    ht ▸ ⟨_, _, _, rfl, by decide⟩
  have hdistinct := h.distinct _ hms
  simp [kind_eq_iff.mpr heq] at hdistinct

end Ry
