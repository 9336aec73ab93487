import Ry.Core.JoinOrder
import Ry.Core.WellFormed

/-! # The type of an element

What a loop over a value sees.  A list's element is the merge of its columns where they have
one shape, and a union's is the join of its members' elements, so both may merge unions.
-/

namespace Ry

/-- The facts that still hold for an element or a subset of a value. -/
def ValueFacts.forSubset (f : ValueFacts) : ValueFacts :=
  { default with
    priorNa := f.priorNa
    newNa := match f.newNa with
      | .provenOnly => .provenOnly
      | .provenContains | .possible => .possible
      | .none => .none }

namespace ColumnSchema

/-- Merge the columns that follow into the type common to those before. -/
def mergeCommon (common : RType) (columns : List (String × RType)) : Option RType :=
  columns.foldlM (fun common c =>
    if common.sameShape c.2 then some (common.mergeSameShape c.2) else none) common

/-- The type common to all columns; `none` where two shapes differ or there are no columns. -/
def homogeneousElementType (s : ColumnSchema RType) : Option RType :=
  match s.columns with
  | [] => none
  | c :: cs => mergeCommon c.2 cs

end ColumnSchema

namespace RType

mutual
/-- Factors have integer storage, and `structure()` converts a double to it. -/
def mayBeFactorStorage : RType → Bool
  | ⟨.integer, _, _, _, _, _, _⟩ | ⟨.double, _, _, _, _, _, _⟩ => true
  | ⟨.union, _, _, _, _, members, _⟩ => mayBeFactorStorage? members
  | _ => false
termination_by structural t => t
def mayBeFactorStorage? : Option (List RType) → Bool
  | none => true
  | some ms => anyFactorStorage ms
termination_by structural o => o
def anyFactorStorage : List RType → Bool
  | [] => false
  | m :: ms => mayBeFactorStorage m || anyFactorStorage ms
termination_by structural l => l
end

/-- An element of an atomic vector. -/
def vectorElement (mode : Mode) (length : Length) (facts : ValueFacts) : RType :=
  let element := { new mode .one with valueFacts := facts.forSubset }
  -- the only element of a fully known scalar, `NA` included
  if (length = .one || length = .known 1) && facts.allValuesKnown then
    { element with valueFacts :=
      { element.valueFacts with numericBounds := facts.numericBounds, allValuesKnown := true } }
  else element

mutual
/-- The type of one element, as `for` iterates. -/
def element : RType → RType
  | ⟨mode, length, cls, columns, fnSig, members, valueFacts⟩ =>
    if mode = .null then new .null .zero
    else if mode.isUnknownOrNonVector then unknown
    else if mode = .list then (columns.bind ColumnSchema.homogeneousElementType).getD unknown
    -- a class on the union itself applies to every member
    else if cls.contains "factor" then scalar .character
    else if (!cls.known || cls.guarded)
        && mayBeFactorStorage ⟨mode, length, cls, columns, fnSig, members, valueFacts⟩ then unknown
    else if mode = .union then joinAll (elements? members)
    else vectorElement mode length valueFacts
termination_by structural t => t
def elements? : Option (List RType) → List RType
  | none => []
  | some ms => elements ms
termination_by structural o => o
def elements : List RType → List RType
  | [] => []
  | m :: ms => element m :: elements ms
termination_by structural l => l
end

/-- The class on the union lets each member speak for itself. -/
def Distributes (t : RType) : Prop :=
  t.mode = .union ∧ t.cls.contains "factor" = false ∧
    ((!t.cls.known || t.cls.guarded) && mayBeFactorStorage t) = false

theorem elements_eq_map (ms : List RType) : elements ms = ms.map element := by
  induction ms with
  | nil => rfl
  | cons m ms ih => rw [elements, ih, List.map_cons]

/-- All that an element can be. -/
theorem element_cases (t : RType) :
    (t.element.mode ≠ .union ∧ t.element.members = none ∧ t.element.columns = none) ∨
    (t.mode = .list ∧ ∃ s c, t.columns = some s ∧ s.homogeneousElementType = some c ∧
      t.element = c) ∨
    (t.Distributes ∧ t.element = joinAll (elements? t.members)) := by
  obtain ⟨mode, length, cls, columns, fnSig, members, valueFacts⟩ := t
  simp only [element]
  split
  · exact .inl ⟨by decide, rfl, rfl⟩
  · split
    · exact .inl ⟨by decide, rfl, rfl⟩
    · split
      · rename_i hlist
        rcases hc : columns.bind ColumnSchema.homogeneousElementType with _ | c
        · exact .inl ⟨by decide, rfl, rfl⟩
        · obtain ⟨s, hs, hc⟩ := Option.bind_eq_some_iff.mp hc
          exact .inr (.inl ⟨hlist, s, c, hs, hc, rfl⟩)
      · split
        · exact .inl ⟨by decide, rfl, rfl⟩
        · split
          · exact .inl ⟨by decide, rfl, rfl⟩
          · split
            · rename_i hfactor hstorage hunion
              exact .inr (.inr ⟨⟨hunion, by simpa using hfactor, by simpa using hstorage⟩, rfl⟩)
            · rename_i hunion
              refine .inl ?_
              unfold vectorElement
              split <;> exact ⟨hunion, rfl, rfl⟩

/-! ## Elements of well-formed types -/

/-- No merge of the columns makes two members of a union equal. -/
def MergesApart : RType → List (String × RType) → Prop
  | _, [] => True
  | t, c :: cs => t.sameShape c.2 = true → ¬ Collides t c.2 ∧ MergesApart (t.mergeSameShape c.2) cs

/-- No join of the fold makes two members of a union equal. -/
def JoinsAllApart : RType → List RType → Prop
  | _, [] => True
  | t, u :: us => JoinsApart t u ∧ JoinsAllApart (t.join u) us

/-- A list's columns merge without making members equal. -/
def ColumnsApart (t : RType) : Prop :=
  t.mode = .list → ∀ s c cs, t.columns = some s → s.columns = c :: cs → MergesApart c.2 cs

/-- Neither the merges of columns nor the joins of the members' elements make members equal. -/
def ElementApart (t : RType) : Prop :=
  t.ColumnsApart ∧ (t.Distributes → ∀ ms, t.members = some ms →
    (∀ m ∈ ms, m.ColumnsApart) ∧
      ∀ e es, elements ms = e :: es → JoinsAllApart e es)

theorem wellFormed_mergeCommon {t c : RType} {cs : List (String × RType)} (ht : t.WellFormed)
    (hcs : ∀ c ∈ cs, c.2.WellFormed) (hapart : MergesApart t cs)
    (h : ColumnSchema.mergeCommon t cs = some c) : c.WellFormed := by
  induction cs generalizing t with
  | nil =>
    obtain rfl := Option.some.inj h
    exact ht
  | cons d cs ih =>
    rw [List.forall_mem_cons] at hcs
    unfold ColumnSchema.mergeCommon at h
    rw [List.foldlM_cons] at h
    obtain ⟨u, hu, h⟩ := Option.bind_eq_some_iff.mp h
    split at hu
    · rename_i hshape
      obtain ⟨hcollides, hrest⟩ := hapart hshape
      obtain rfl := Option.some.inj hu
      exact ih ((wellFormed_mergeSameShape_iff ht hshape).mpr hcollides) hcs.2 hrest h
    · cases hu

theorem wellFormed_foldl_join {t : RType} {us : List RType} (ht : t.WellFormed)
    (hus : ∀ u ∈ us, u.WellFormed) (hapart : JoinsAllApart t us) :
    (us.foldl join t).WellFormed := by
  induction us generalizing t with
  | nil => exact ht
  | cons u us ih =>
    rw [List.forall_mem_cons] at hus
    exact ih ((wellFormed_join_iff ht hus.1).mpr hapart.1) hus.2 hapart.2

/-- An element of a type that is no union. -/
theorem wellFormed_element_of_not_union {t : RType} (ht : t.WellFormed) (hmode : t.mode ≠ .union)
    (hapart : t.ColumnsApart) : t.element.WellFormed := by
  rcases t.element_cases with ⟨h, hms, hs⟩ | ⟨hlist, s, c, hs, hc, h⟩ | ⟨h, -⟩
  · exact wellFormed_of_plain h hms hs
  · rw [h]
    rcases hcolumns : s.columns with _ | ⟨d, ds⟩
    · simp [ColumnSchema.homogeneousElementType, hcolumns] at hc
    · have hwf := ht.column hs
      rw [hcolumns, List.forall_mem_cons] at hwf
      simp only [ColumnSchema.homogeneousElementType, hcolumns] at hc
      exact wellFormed_mergeCommon hwf.1 hwf.2 (hapart hlist s d ds hs hcolumns) hc
  · exact (hmode h.1).elim

theorem wellFormed_element {t : RType} (ht : t.WellFormed) (hapart : t.ElementApart) :
    t.element.WellFormed := by
  rcases t.element_cases with ⟨h, hms, hs⟩ | ⟨hlist, -⟩ | ⟨h, helement⟩
  · exact wellFormed_of_plain h hms hs
  · exact wellFormed_element_of_not_union ht (by simp [hlist]) hapart.1
  · obtain ⟨ms, hms⟩ := Option.isSome_iff_exists.mp (ht.shape.mode.mpr h.1)
    obtain ⟨hcolumns, hjoins⟩ := hapart.2 h ms hms
    have helements : ∀ e ∈ elements ms, e.WellFormed := by
      rw [elements_eq_map, List.forall_mem_map]
      exact fun m hm => wellFormed_element_of_not_union (ht.member hms m hm)
        (ht.shape.flat ms hms m hm).1 (hcolumns m hm)
    rw [helement, hms]
    change (joinAll (elements ms)).WellFormed
    rcases he : elements ms with _ | ⟨e, es⟩
    · exact wellFormed_unknown _
    · rw [he, List.forall_mem_cons] at helements
      exact wellFormed_foldl_join helements.1 helements.2 (hjoins e es he)

end RType
end Ry
