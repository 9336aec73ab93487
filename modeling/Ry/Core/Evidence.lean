import Ry.Core.JoinSound
import Ry.Lib.Bracketing

/-! # Joining types of one shape

Two types of one shape differ in the value evidence at some places inside them.  The join
merges it place by place (`factsAt_mergeSameShape`), and what it does at each place is
commutative and associative: types of one shape join to one type in every order.
-/

namespace Ry

namespace Length

theorem minPossible_lowerBound (n : Nat) : (lowerBound n).minPossible = n := by
  match n with
  | 0 | 1 | n + 2 => rfl

theorem exact_lowerBound (n : Nat) : (lowerBound n).exact = none := by
  match n with
  | 0 | 1 | n + 2 => rfl

theorem minPossible_of_exact {l : Length} {n : Nat} (h : l.exact = some n) :
    l.minPossible = n := by
  cases l <;> simp_all [exact, minPossible]

theorem minPossible_join (a b : Length) :
    (a.join b).minPossible = min a.minPossible b.minPossible := by
  unfold join
  split
  · rename_i h
    simp [h]
  · split
    · rename_i h
      simp only [Bool.and_eq_true, Option.isSome_iff_exists, beq_iff_eq] at h
      obtain ⟨⟨n, hn⟩, hab⟩ := h
      rw [minPossible_of_exact hn, minPossible_of_exact (hab ▸ hn), Nat.min_self]
    · exact minPossible_lowerBound _

theorem exact_join (a b : Length) :
    (a.join b).exact = if a.exact = b.exact then a.exact else none := by
  unfold join
  split
  · rename_i h
    simp [h]
  · split
    · rename_i h
      simp only [Bool.and_eq_true, beq_iff_eq] at h
      rw [if_pos h.2]
    · rename_i h
      rw [exact_lowerBound]
      split
      · rename_i hab
        cases ha : a.exact with
        | none => rfl
        | some n => simp [ha, ← hab] at h
      · rfl

end Length

namespace NewNaProvenance

theorem join_comm (a b : NewNaProvenance) : a.join b = b.join a := by
  cases a <;> cases b <;> rfl

theorem join_assoc (a b c : NewNaProvenance) : (a.join b).join c = a.join (b.join c) := by
  cases a <;> cases b <;> cases c <;> rfl

@[simp] theorem join_self (a : NewNaProvenance) : a.join a = a := by
  simp [join]

end NewNaProvenance

namespace ValueFacts

theorem ext_iff (a b : ValueFacts) : a = b ↔ a.numericBounds = b.numericBounds ∧
    a.allValuesKnown = b.allValuesKnown ∧ a.priorNa = b.priorNa ∧ a.newNa = b.newNa := by
  cases a
  cases b
  simp

theorem allValuesKnown_join (a b : ValueFacts) :
    (a.join b).allValuesKnown = true ↔ a = b ∧ a.allValuesKnown = true := by
  simp only [join, Bool.and_eq_true, decide_eq_true_eq, beq_iff_eq, ext_iff]
  grind

@[simp] theorem join_self (a : ValueFacts) : a.join a = a := by
  simp [join]

theorem join_comm (a b : ValueFacts) : a.join b = b.join a := by
  have hknown : (a.join b).allValuesKnown = (b.join a).allValuesKnown := by
    rw [Bool.eq_iff_iff, allValuesKnown_join, allValuesKnown_join]
    grind
  refine (ext_iff _ _).mpr ⟨?_, hknown, Bool.or_comm _ _, a.newNa.join_comm _⟩
  simp only [join]
  grind

theorem join_assoc (a b c : ValueFacts) : (a.join b).join c = a.join (b.join c) := by
  have hknown : ((a.join b).join c).allValuesKnown = (a.join (b.join c)).allValuesKnown := by
    rw [Bool.eq_iff_iff, allValuesKnown_join, allValuesKnown_join, allValuesKnown_join]
    constructor
    · rintro ⟨rfl, rfl, h⟩
      simpa using h
    · rintro ⟨h, ha⟩
      have hbc : (b.join c).allValuesKnown = true := h ▸ ha
      obtain ⟨rfl, hb⟩ := (allValuesKnown_join b c).mp hbc
      rw [join_self] at h
      exact ⟨by rw [h, join_self], h, ha⟩
  refine (ext_iff _ _).mpr ⟨?_, hknown, Bool.or_assoc _ _ _, a.newNa.join_assoc _ _⟩
  simp only [join]
  grind

instance : Std.Commutative join := ⟨join_comm⟩

instance : Std.Associative join := ⟨join_assoc⟩

end ValueFacts

namespace RType

/-! ## Types of one shape -/

/-- The value evidence at a place inside a type: the indices of the parts on the way. -/
def factsAt (t : RType) : List Nat → Option ValueFacts
  | [] => some t.valueFacts
  | i :: path => t.parts[i]?.bind fun p => p.factsAt path

theorem forall₂_append_left {A B : Type} {R : A → B → Prop} {as as' : List A} {bs bs' : List B}
    (hlen : as.length = bs.length) :
    List.Forall₂ R (as ++ as') (bs ++ bs') ↔ List.Forall₂ R as bs ∧ List.Forall₂ R as' bs' := by
  induction as generalizing bs with
  | nil =>
    obtain rfl := List.length_eq_zero_iff.mp hlen.symm
    simp
  | cons a as ih =>
    cases bs with
    | nil => simp at hlen
    | cons b bs => simp [ih (by simpa using hlen), and_assoc]

theorem forall₂_and {A B : Type} {R S : A → B → Prop} {as : List A} {bs : List B}
    (h : List.Forall₂ R as bs) (h' : List.Forall₂ S as bs) :
    List.Forall₂ (fun a b => R a b ∧ S a b) as bs := by
  induction h with
  | nil => exact .nil
  | cons hab _ ih =>
    cases h' with
    | cons hab' hrest => exact .cons ⟨hab, hab'⟩ (ih hrest)

theorem forall₂_parts {facts : Bool} {a b : RType} (h : agree facts a b = true) :
    List.Forall₂ (fun p q => agree facts p q = true) a.parts b.parts := by
  obtain ⟨-, -, -, hcolumns, hsig, hmembers, -⟩ := (agree_iff facts a b).mp h
  refine List.rel_append (List.rel_append ?_ ?_) ?_
  · rcases hs : a.columns with _ | s <;> rcases hs' : b.columns with _ | s' <;>
      simp_all [List.forall₂_map_left_iff, List.forall₂_map_right_iff]
    exact hcolumns.1.imp fun _ _ h => h.2
  · rcases hs : a.fnSig with _ | s <;> rcases hs' : b.fnSig with _ | s' <;> simp_all
  · rcases hs : a.members with _ | s <;> rcases hs' : b.members with _ | s' <;> simp_all

theorem length_columnParts {a b : RType} (h : a.sameShape b = true) :
    (a.columns.elim [] fun s => s.columns.map Prod.snd).length =
      (b.columns.elim [] fun s => s.columns.map Prod.snd).length := by
  have hcolumns := ((agree_iff false a b).mp h).2.2.2.1
  rcases hs : a.columns with _ | s <;> rcases hs' : b.columns with _ | s' <;> simp_all
  exact hcolumns.1.length_eq

theorem length_sigParts {a b : RType} (h : a.sameShape b = true) :
    (a.fnSig.elim [] fun s => s.returnType :: s.params).length =
      (b.fnSig.elim [] fun s => s.returnType :: s.params).length := by
  have hsig := ((agree_iff false a b).mp h).2.2.2.2.1
  rcases hs : a.fnSig with _ | s <;> rcases hs' : b.fnSig with _ | s' <;> simp_all
  exact hsig.1.length_eq

/-- Types of one shape are equal once their own evidence and their parts are. -/
theorem eq_of_parts {a b : RType} (h : a.sameShape b = true) (hfacts : a.valueFacts = b.valueFacts)
    (hparts : List.Forall₂ (fun p q => p.eq q = true) a.parts b.parts) : a.eq b = true := by
  obtain ⟨hmode, hlength, hcls, hcolumns, hsig, hmembers, -⟩ := (agree_iff false a b).mp h
  rw [parts, parts, forall₂_append_left (by simp [length_columnParts h, length_sigParts h]),
    forall₂_append_left (length_columnParts h)] at hparts
  obtain ⟨⟨hcolumnParts, hsigParts⟩, hmemberParts⟩ := hparts
  refine (agree_iff true a b).mpr ⟨hmode, hlength, hcls, ?_, ?_, ?_, fun _ => hfacts⟩
  · rcases hs : a.columns with _ | s <;> rcases hs' : b.columns with _ | s' <;>
      simp_all [List.forall₂_map_left_iff, List.forall₂_map_right_iff]
    exact (forall₂_and hcolumns.1 hcolumnParts).imp fun _ _ h => ⟨h.1.1, h.2⟩
  · rcases hs : a.fnSig with _ | s <;> rcases hs' : b.fnSig with _ | s' <;> simp_all [eq]
  · rcases hs : a.members with _ | s <;> rcases hs' : b.members with _ | s' <;> simp_all [eq]

theorem factsAt_of_eq {a b : RType} (h : a.eq b = true) (path : List Nat) :
    a.factsAt path = b.factsAt path := by
  induction path generalizing a b with
  | nil => exact congrArg some (((agree_iff true a b).mp h).2.2.2.2.2.2 rfl)
  | cons i path ih =>
    have hparts := forall₂_parts h
    simp only [factsAt]
    by_cases hi : i < a.parts.length
    · have hi' : i < b.parts.length := hparts.length_eq ▸ hi
      rw [List.getElem?_eq_getElem hi, List.getElem?_eq_getElem hi']
      exact ih (hparts.get hi hi')
    · rw [List.getElem?_eq_none (Nat.le_of_not_lt hi),
        List.getElem?_eq_none (by rw [← hparts.length_eq]; exact Nat.le_of_not_lt hi)]

/-- Types of one shape differ in the evidence at some place or not at all. -/
theorem eq_of_factsAt {a b : RType} (h : a.sameShape b = true)
    (hfacts : ∀ path, a.factsAt path = b.factsAt path) : a.eq b = true := by
  induction a using RType.induction generalizing b with
  | h a ih =>
    refine eq_of_parts h (Option.some.inj (hfacts [])) ?_
    have hparts := forall₂_parts h
    refine List.forall₂_iff_get.mpr ⟨hparts.length_eq, fun i hi hi' => ?_⟩
    refine ih _ (List.get_mem _ _) (hparts.get hi hi') fun path => ?_
    have hpath := hfacts (i :: path)
    rwa [factsAt, factsAt, List.getElem?_eq_getElem hi, List.getElem?_eq_getElem hi'] at hpath

theorem mergeList_eq_zipWith {as bs : List RType} (h : as.length = bs.length) :
    mergeList as bs = List.zipWith mergeSameShape as bs := by
  induction as generalizing bs with
  | nil => cases bs <;> simp [mergeList]
  | cons a as ih =>
    cases bs with
    | nil => simp at h
    | cons b bs => simp [mergeList, ih (by simpa using h)]

theorem mergeColumns_eq_zipWith {as bs : List (String × RType)} (h : as.length = bs.length) :
    (mergeColumns as bs).map Prod.snd =
      List.zipWith mergeSameShape (as.map Prod.snd) (bs.map Prod.snd) := by
  induction as generalizing bs with
  | nil => cases bs <;> simp [mergeColumns]
  | cons a as ih =>
    obtain ⟨name, t⟩ := a
    cases bs with
    | nil => simp at h
    | cons b bs => simp [mergeColumns, mergeColumn, ih (by simpa using h)]

/-- What merging does to two types of one shape that differ. -/
theorem mergeSameShape_of_ne {a b : RType} (h : a.sameShape b = true) (hne : a.eq b = false) :
    (a.mergeSameShape b).valueFacts = a.valueFacts.join b.valueFacts ∧
      (a.mergeSameShape b).parts = List.zipWith mergeSameShape a.parts b.parts := by
  obtain ⟨-, -, -, hcolumns, hsig, hmembers, -⟩ := (agree_iff false a b).mp h
  have hcolumnsLength := length_columnParts h
  have hsigLength := length_sigParts h
  obtain ⟨mode, length, cls, columns, fnSig, members, facts⟩ := a
  simp only [mergeSameShape, hne, Bool.false_eq_true, if_false, parts, true_and]
  have hcolumnParts : ((mergeSchema? columns b.columns).elim [] fun s => s.columns.map Prod.snd) =
      List.zipWith mergeSameShape (columns.elim [] fun s => s.columns.map Prod.snd)
        (b.columns.elim [] fun s => s.columns.map Prod.snd) := by
    rcases columns with _ | ⟨cs, complete, local_⟩ <;> rcases hs' : b.columns with _ | s'
    · rfl
    · simp [hs'] at hcolumns
    · simp [hs'] at hcolumns
    · simp only [hs', rel_some_some] at hcolumns
      exact mergeColumns_eq_zipWith hcolumns.1.length_eq
  have hsigParts : ((mergeSig? fnSig b.fnSig).elim [] fun s => s.returnType :: s.params) =
      List.zipWith mergeSameShape (fnSig.elim [] fun s => s.returnType :: s.params)
        (b.fnSig.elim [] fun s => s.returnType :: s.params) := by
    rcases fnSig with _ | ⟨params, returnType⟩ <;> rcases hs' : b.fnSig with _ | s'
    · rfl
    · simp [hs'] at hsig
    · simp [hs'] at hsig
    · simp only [hs', rel_some_some] at hsig
      exact congrArg (_ :: ·) (mergeList_eq_zipWith hsig.1.length_eq)
  have hmemberParts : (mergeMembers? members b.members).getD [] =
      List.zipWith mergeSameShape (members.getD []) (b.members.getD []) := by
    rcases members with _ | ms <;> rcases hs' : b.members with _ | ms'
    · rfl
    · simp [hs'] at hmembers
    · simp [hs'] at hmembers
    · simp only [hs', rel_some_some] at hmembers
      exact mergeList_eq_zipWith hmembers.length_eq
  rw [hcolumnParts, hsigParts, hmemberParts,
    List.zipWith_append (by simp only [List.length_append, hcolumnsLength, hsigLength]),
    List.zipWith_append hcolumnsLength]

theorem mergeSameShape_of_eq {a b : RType} (h : a.eq b = true) : a.mergeSameShape b = a := by
  cases a
  simp [mergeSameShape, h]

theorem merge_self (f : Option ValueFacts) : Option.merge ValueFacts.join f f = f := by
  cases f <;> simp

/-- Merging joins the evidence place by place. -/
theorem factsAt_mergeSameShape {a b : RType} (h : a.sameShape b = true) (path : List Nat) :
    (a.mergeSameShape b).factsAt path =
      Option.merge ValueFacts.join (a.factsAt path) (b.factsAt path) := by
  have hequal : ∀ {a b : RType}, a.eq b = true → ∀ path, (a.mergeSameShape b).factsAt path =
      Option.merge ValueFacts.join (a.factsAt path) (b.factsAt path) := by
    intro a b heq path
    rw [mergeSameShape_of_eq heq, ← factsAt_of_eq heq, merge_self]
  induction path generalizing a b with
  | nil =>
    cases hne : a.eq b with
    | true => exact hequal hne _
    | false => simp [factsAt, (mergeSameShape_of_ne h hne).1]
  | cons i path ih =>
    cases hne : a.eq b with
    | true => exact hequal hne _
    | false =>
      have hparts := forall₂_parts h
      simp only [factsAt, (mergeSameShape_of_ne h hne).2, List.getElem?_zipWith]
      by_cases hi : i < a.parts.length
      · have hi' : i < b.parts.length := hparts.length_eq ▸ hi
        rw [List.getElem?_eq_getElem hi, List.getElem?_eq_getElem hi']
        exact ih (hparts.get hi hi')
      · rw [List.getElem?_eq_none (Nat.le_of_not_lt hi),
          List.getElem?_eq_none (by rw [← hparts.length_eq]; exact Nat.le_of_not_lt hi)]
        rfl

theorem eq_proxy (t : RType) (proxy : Bool) :
    eq { t with cls := { t.cls with storageProxy := proxy } } t = true := by
  have h := (agree_iff true t t).mp (eq_refl t)
  exact (agree_iff true _ _).mpr ⟨rfl, rfl, by simp, h.2.2.2⟩

/-- The join of types of one shape is their merge, the export marker apart. -/
theorem join_of_sameShape {a b : RType} (ha : a.mode.isUnknown = false)
    (h : a.sameShape b = true) : (a.join b).eq (a.mergeSameShape b) = true := by
  have hb : b.mode.isUnknown = false := ((agree_iff false a b).mp h).1 ▸ ha
  simp only [join, ha, hb, Bool.or_self, h, Bool.false_eq_true, if_false, if_true]
  split
  · rename_i heq
    rw [mergeSameShape_of_eq heq]
    exact eq_proxy a _
  · exact eq_proxy _ _

/-- The types are known and differ in value evidence at most. -/
def OneShape (ts : List RType) : Prop :=
  ∀ t ∈ ts, t.mode.isUnknown = false ∧ ∀ u ∈ ts, t.sameShape u = true

theorem OneShape.mono {ts us : List RType} (h : OneShape us) (hsub : ts ⊆ us) : OneShape ts :=
  fun t ht => ⟨(h t (hsub ht)).1, fun u hu => (h t (hsub ht)).2 u (hsub hu)⟩

/-- Joined in any order, types of one shape keep it, and the evidence at each place is
joined in that order. -/
theorem factsAt_eval (t : Bracketing RType) (h : OneShape t.leaves) :
    (∀ x ∈ t.leaves, (t.eval join).sameShape x = true) ∧
      ∀ path, (t.eval join).factsAt path =
        (t.map (factsAt · path)).eval (Option.merge ValueFacts.join) := by
  induction t with
  | leaf a =>
    refine ⟨fun x hx => ?_, fun path => rfl⟩
    rw [List.mem_singleton.mp hx]
    exact sameShape_refl a
  | node l r ihl ihr =>
    obtain ⟨hshapeL, hfactsL⟩ := ihl (h.mono (List.subset_append_left _ _))
    obtain ⟨hshapeR, hfactsR⟩ := ihr (h.mono (List.subset_append_right _ _))
    obtain ⟨x, hx⟩ := List.exists_mem_of_ne_nil _ l.leaves_ne_nil
    obtain ⟨y, hy⟩ := List.exists_mem_of_ne_nil _ r.leaves_ne_nil
    have hxIn : x ∈ l.leaves ++ r.leaves := List.mem_append_left _ hx
    have hknown : (l.eval join).mode.isUnknown = false :=
      ((agree_iff false _ _).mp (hshapeL x hx)).1 ▸ (h x hxIn).1
    have hshape : (l.eval join).sameShape (r.eval join) = true :=
      agree_trans (hshapeL x hx) (agree_trans ((h x hxIn).2 y (List.mem_append_right _ hy))
        (agree_symm (hshapeR y hy)))
    have hmerge := join_of_sameShape hknown hshape
    refine ⟨fun z hz => ?_, fun path => ?_⟩
    · have hz' := agree_trans (hshapeL x hx) ((h x hxIn).2 z hz)
      exact agree_trans (sameShape_of_eq hmerge)
        (agree_trans (sameShape_mergeSameShape _ _ hshape) hz')
    · change ((l.eval join).join (r.eval join)).factsAt path = _
      rw [factsAt_of_eq hmerge, factsAt_mergeSameShape hshape, hfactsL, hfactsR]
      rfl

/-- Types of one shape join to one type, whatever the order. -/
theorem eval_eq_of_oneShape {t t' : Bracketing RType} (hperm : t.leaves.Perm t'.leaves)
    (h : OneShape t.leaves) : (t.eval join).eq (t'.eval join) = true := by
  obtain ⟨hshape, hfacts⟩ := factsAt_eval t h
  obtain ⟨hshape', hfacts'⟩ := factsAt_eval t' (h.mono hperm.symm.subset)
  obtain ⟨x, hx⟩ := List.exists_mem_of_ne_nil _ t.leaves_ne_nil
  refine eq_of_factsAt (agree_trans (hshape x hx)
    (agree_symm (hshape' x (hperm.subset hx)))) fun path => ?_
  rw [hfacts, hfacts']
  exact Bracketing.eval_perm _ (by simpa using hperm.map _)

end RType
end Ry
