import Ry.Core.JoinKinds
import Ry.Core.JoinSound

/-! # Well-formed unions

Consumers of a union count on two to four different members, none of them a union or
unknown.  Every way to build a union keeps that (`wellFormed_unionOf`) but one: the join of
two unions of one shape merges them member by member, and two members of one shape may get
equal evidence.  `wellFormed_join_iff` says that nothing else goes wrong.
-/

namespace Ry

namespace RType

/-- What a union's consumers rely on. -/
structure UnionShape (t : RType) : Prop where
  mode : t.members.isSome = true ↔ t.mode = .union
  size : ∀ ms, t.members = some ms → 2 ≤ ms.length ∧ ms.length ≤ maxUnionMembers
  flat : ∀ ms, t.members = some ms → ∀ m ∈ ms, m.mode ≠ .union ∧ m.mode.isUnknown = false
  distinct : ∀ ms, t.members = some ms → (ms.map kind).Nodup

/-- A type whose unions are well formed, down to its members and its columns. -/
inductive WellFormed : RType → Prop
  | mk {t : RType} (shape : UnionShape t) (members : ∀ ms, t.members = some ms → ∀ m ∈ ms, WellFormed m)
      (columns : ∀ s, t.columns = some s → ∀ c ∈ s.columns, WellFormed c.2) : WellFormed t

theorem WellFormed.shape {t : RType} : WellFormed t → t.UnionShape
  | mk h _ _ => h

theorem WellFormed.member {t : RType} : WellFormed t →
    ∀ {ms}, t.members = some ms → ∀ m ∈ ms, WellFormed m
  | mk _ h _, _, hms => h _ hms

theorem WellFormed.column {t : RType} : WellFormed t →
    ∀ {s}, t.columns = some s → ∀ c ∈ s.columns, WellFormed c.2
  | mk _ _ h, _, hs => h _ hs

/-- Two pairs of types of one shape whose merged evidence is equal everywhere. -/
def MergeEqual (p q : RType × RType) : Prop :=
  p.1.sameShape q.1 = true ∧
    ∀ path, Option.merge ValueFacts.join (p.1.factsAt path) (p.2.factsAt path) =
      Option.merge ValueFacts.join (q.1.factsAt path) (q.2.factsAt path)

/-- Merging the types gives two members of a union equal evidence, somewhere inside them. -/
inductive Collides : RType → RType → Prop
  | members {a b : RType} {ms ns : List RType} (hms : a.members = some ms)
      (hns : b.members = some ns) (h : ¬ (ms.zip ns).Pairwise fun p q => ¬ MergeEqual p q) :
      Collides a b
  | inMember {a b : RType} {ms ns : List RType} {p : RType × RType} (hms : a.members = some ms)
      (hns : b.members = some ns) (hp : p ∈ ms.zip ns) (h : Collides p.1 p.2) : Collides a b
  | inColumn {a b : RType} {s s' : ColumnSchema RType} {p : RType × RType}
      (hs : a.columns = some s) (hs' : b.columns = some s')
      (hp : p ∈ (s.columns.map Prod.snd).zip (s'.columns.map Prod.snd))
      (h : Collides p.1 p.2) : Collides a b

theorem mergeEqual_iff {p q : RType × RType} (hp : p.1.sameShape p.2 = true)
    (hq : q.1.sameShape q.2 = true) :
    MergeEqual p q ↔ (p.1.mergeSameShape p.2).eq (q.1.mergeSameShape q.2) = true := by
  have hpm := sameShape_mergeSameShape p.1 p.2 hp
  have hqm := sameShape_mergeSameShape q.1 q.2 hq
  constructor
  · rintro ⟨hshape, hfacts⟩
    refine eq_of_factsAt (agree_trans hpm (agree_trans hshape (agree_symm hqm))) fun path => ?_
    rw [factsAt_mergeSameShape hp, factsAt_mergeSameShape hq, hfacts]
  · intro h
    refine ⟨agree_trans (agree_symm hpm) (agree_trans (sameShape_of_eq h) hqm), fun path => ?_⟩
    rw [← factsAt_mergeSameShape hp, ← factsAt_mergeSameShape hq, factsAt_of_eq h]

/-! ## The parts of a merged type -/

theorem zipWith_of_eq {as bs : List RType} (h : List.Forall₂ (fun a b => a.eq b = true) as bs) :
    List.zipWith mergeSameShape as bs = as := by
  induction h with
  | nil => rfl
  | cons hab _ ih => rw [List.zipWith_cons_cons, ih, mergeSameShape_of_eq hab]

theorem members_mergeSameShape {a b : RType} (h : a.sameShape b = true) {ms ns : List RType}
    (hms : a.members = some ms) (hns : b.members = some ns) :
    (a.mergeSameShape b).members = some (List.zipWith mergeSameShape ms ns) := by
  cases heq : a.eq b with
  | true =>
    have hmembers := ((agree_iff true a b).mp heq).2.2.2.2.2.1
    rw [hms, hns, rel_some_some] at hmembers
    rw [mergeSameShape_of_eq heq, hms, zipWith_of_eq hmembers]
  | false =>
    have hmembers := ((agree_iff false a b).mp h).2.2.2.2.2.1
    rw [hms, hns, rel_some_some] at hmembers
    cases a
    subst hms
    simp only [mergeSameShape, heq, Bool.false_eq_true, if_false]
    rw [hns]
    exact congrArg some (mergeList_eq_zipWith hmembers.length_eq)

theorem columns_mergeSameShape {a b : RType} (h : a.sameShape b = true)
    {s s' : ColumnSchema RType} (hs : a.columns = some s) (hs' : b.columns = some s') :
    ∃ s'', (a.mergeSameShape b).columns = some s'' ∧ s''.columns.map Prod.snd =
      List.zipWith mergeSameShape (s.columns.map Prod.snd) (s'.columns.map Prod.snd) := by
  cases heq : a.eq b with
  | true =>
    have hcolumns := ((agree_iff true a b).mp heq).2.2.2.1
    rw [hs, hs', rel_some_some] at hcolumns
    refine ⟨s, by rw [mergeSameShape_of_eq heq, hs], (zipWith_of_eq ?_).symm⟩
    rw [List.forall₂_map_left_iff, List.forall₂_map_right_iff]
    exact hcolumns.1.imp fun _ _ hc => hc.2
  | false =>
    have hcolumns := ((agree_iff false a b).mp h).2.2.2.1
    rw [hs, hs', rel_some_some] at hcolumns
    cases a
    subst hs
    simp only [mergeSameShape, heq, Bool.false_eq_true, if_false]
    rw [hs']
    obtain ⟨cs, complete, local_⟩ := s
    exact ⟨_, rfl, mergeColumns_eq_zipWith hcolumns.1.length_eq⟩

theorem isSome_mergeSameShape {a b : RType} (h : a.sameShape b = true) :
    (a.mergeSameShape b).members.isSome = a.members.isSome ∧
      (a.mergeSameShape b).columns.isSome = a.columns.isSome := by
  have hshape := (agree_iff false _ _).mp (sameShape_mergeSameShape a b h)
  obtain ⟨-, -, -, hcolumns, -, hmembers, -⟩ := hshape
  constructor
  · rcases hm : (a.mergeSameShape b).members with _ | ms <;>
      rcases ha : a.members with _ | ns <;> simp_all
  · rcases hm : (a.mergeSameShape b).columns with _ | s <;>
      rcases ha : a.columns with _ | s' <;> simp_all

theorem zipWith_eq_map_zip (as bs : List RType) : List.zipWith mergeSameShape as bs =
    (as.zip bs).map fun p => p.1.mergeSameShape p.2 := by
  induction as generalizing bs with
  | nil => simp
  | cons a as ih => cases bs <;> simp [ih]

/-- Whether the members of two merged unions stay different. -/
theorem nodup_merged {ms ns : List RType} (h : List.Forall₂ (fun m n => m.sameShape n = true) ms ns) :
    ((List.zipWith mergeSameShape ms ns).map kind).Nodup ↔
      (ms.zip ns).Pairwise fun p q => ¬ MergeEqual p q := by
  have hshape : ∀ p ∈ ms.zip ns, p.1.sameShape p.2 = true := fun p hp => List.forall₂_zip h hp
  rw [zipWith_eq_map_zip, List.Nodup, List.pairwise_map, List.pairwise_map]
  refine List.Pairwise.iff_of_mem fun hp hq => not_congr ?_
  rw [kind_eq_iff, mergeEqual_iff (hshape _ hp) (hshape _ hq)]

theorem forall_merged {P : RType → Prop} {as bs : List RType} :
    (∀ t ∈ List.zipWith mergeSameShape as bs, P t) ↔
      ∀ p ∈ as.zip bs, P (p.1.mergeSameShape p.2) := by
  rw [zipWith_eq_map_zip, List.forall_mem_map]

theorem exists_members {a b : RType} (h : a.sameShape b = true) {ms : List RType}
    (hms : a.members = some ms) : ∃ ns, b.members = some ns ∧
      List.Forall₂ (fun m n => m.sameShape n = true) ms ns := by
  have hmembers := ((agree_iff false a b).mp h).2.2.2.2.2.1
  rw [hms] at hmembers
  rcases hns : b.members with _ | ns
  · simp [hns] at hmembers
  · rw [hns, rel_some_some] at hmembers
    exact ⟨ns, rfl, hmembers⟩

theorem exists_columns {a b : RType} (h : a.sameShape b = true) {s : ColumnSchema RType}
    (hs : a.columns = some s) : ∃ s', b.columns = some s' ∧
      List.Forall₂ (fun c d => c.sameShape d = true) (s.columns.map Prod.snd)
        (s'.columns.map Prod.snd) := by
  have hcolumns := ((agree_iff false a b).mp h).2.2.2.1
  rw [hs] at hcolumns
  rcases hs' : b.columns with _ | s'
  · simp [hs'] at hcolumns
  · rw [hs', rel_some_some] at hcolumns
    refine ⟨s', rfl, ?_⟩
    rw [List.forall₂_map_left_iff, List.forall₂_map_right_iff]
    exact hcolumns.1.imp fun _ _ hc => hc.2

/-- The merge of two unions keeps all that makes a union well formed but distinctness. -/
theorem unionShape_merged {a b : RType} (ha : a.UnionShape) (h : a.sameShape b = true)
    (hapart : ∀ ms ns, a.members = some ms → b.members = some ns →
      (ms.zip ns).Pairwise fun p q => ¬ MergeEqual p q) : (a.mergeSameShape b).UnionShape := by
  have hsome := (isSome_mergeSameShape h).1
  have hmembers : ∀ ks, (a.mergeSameShape b).members = some ks → ∃ ms ns, a.members = some ms ∧
      b.members = some ns ∧ List.Forall₂ (fun m n => m.sameShape n = true) ms ns ∧
      ks = List.zipWith mergeSameShape ms ns := by
    intro ks hks
    obtain ⟨ms, hms⟩ := Option.isSome_iff_exists.mp (hsome ▸ Option.isSome_iff_exists.mpr ⟨ks, hks⟩)
    obtain ⟨ns, hns, hshape⟩ := exists_members h hms
    refine ⟨ms, ns, hms, hns, hshape, ?_⟩
    rw [members_mergeSameShape h hms hns] at hks
    exact (Option.some.inj hks).symm
  constructor
  · rw [hsome, mode_mergeSameShape]
    exact ha.mode
  · intro ks hks
    obtain ⟨ms, ns, hms, -, hshape, rfl⟩ := hmembers ks hks
    rw [List.length_zipWith, ← hshape.length_eq, Nat.min_self]
    exact ha.size ms hms
  · intro ks hks
    obtain ⟨ms, ns, hms, -, -, rfl⟩ := hmembers ks hks
    rw [forall_merged]
    intro p hp
    rw [mode_mergeSameShape]
    exact ha.flat ms hms p.1 (List.of_mem_zip hp).1
  · intro ks hks
    obtain ⟨ms, ns, hms, hns, hshape, rfl⟩ := hmembers ks hks
    exact (nodup_merged hshape).mpr (hapart ms ns hms hns)

/-- Merging two types of one shape keeps the first one's unions well formed when no two
members collide, and only then. -/
theorem wellFormed_mergeSameShape_iff {a b : RType} (ha : a.WellFormed)
    (h : a.sameShape b = true) : (a.mergeSameShape b).WellFormed ↔ ¬ Collides a b := by
  induction a using RType.induction generalizing b with
  | h a ih =>
    constructor
    · intro hmerged hcollides
      cases hcollides with
      | members hms hns hcollides =>
        obtain ⟨ns, hns', hshape⟩ := exists_members h hms
        obtain rfl := Option.some.inj (hns.symm.trans hns')
        exact hcollides ((nodup_merged hshape).mp
          (hmerged.shape.distinct _ (members_mergeSameShape h hms hns)))
      | @inMember _ _ ms ns p hms hns hp hcollides =>
        obtain ⟨ns, hns', hshape⟩ := exists_members h hms
        obtain rfl := Option.some.inj (hns.symm.trans hns')
        have hm := (List.of_mem_zip hp).1
        have hwf := forall_merged.mp (hmerged.member (members_mergeSameShape h hms hns)) p hp
        exact (ih p.1 (mem_parts_member hms hm) (ha.member hms _ hm)
          (List.forall₂_zip hshape hp)).mp hwf hcollides
      | @inColumn _ _ s s' p hs hs' hp hcollides =>
        obtain ⟨s', hs'', hshape⟩ := exists_columns h hs
        obtain rfl := Option.some.inj (hs'.symm.trans hs'')
        obtain ⟨s'', hcolumns, hzip⟩ := columns_mergeSameShape h hs hs'
        obtain ⟨c, hc, hcp⟩ := List.mem_map.mp (List.of_mem_zip hp).1
        have hall : ∀ t ∈ s''.columns.map Prod.snd, t.WellFormed :=
          List.forall_mem_map.mpr (hmerged.column hcolumns)
        rw [hzip, forall_merged] at hall
        exact (ih p.1 (hcp ▸ mem_parts_column hs hc) (hcp ▸ ha.column hs c hc)
          (List.forall₂_zip hshape hp)).mp (hall p hp) hcollides
    · intro hapart
      refine .mk (unionShape_merged ha.shape h fun ms ns hms hns => ?_) ?_ ?_
      · by_contra hcollides
        exact hapart (.members hms hns hcollides)
      · intro ks hks
        have hsome := (isSome_mergeSameShape h).1
        obtain ⟨ms, hms⟩ :=
          Option.isSome_iff_exists.mp (hsome ▸ Option.isSome_iff_exists.mpr ⟨ks, hks⟩)
        obtain ⟨ns, hns, hshape⟩ := exists_members h hms
        rw [members_mergeSameShape h hms hns] at hks
        obtain rfl := Option.some.inj hks
        rw [forall_merged]
        intro p hp
        have hm := (List.of_mem_zip hp).1
        exact (ih p.1 (mem_parts_member hms hm) (ha.member hms _ hm)
          (List.forall₂_zip hshape hp)).mpr fun hc => hapart (.inMember hms hns hp hc)
      · intro ks hks
        have hsome := (isSome_mergeSameShape h).2
        obtain ⟨s, hs⟩ :=
          Option.isSome_iff_exists.mp (hsome ▸ Option.isSome_iff_exists.mpr ⟨ks, hks⟩)
        obtain ⟨s', hs', hshape⟩ := exists_columns h hs
        obtain ⟨s'', hcolumns, hzip⟩ := columns_mergeSameShape h hs hs'
        obtain rfl := Option.some.inj (hks.symm.trans hcolumns)
        have hall : ∀ t ∈ ks.columns.map Prod.snd, t.WellFormed := by
          rw [hzip, forall_merged]
          intro p hp
          obtain ⟨c, hc, hcp⟩ := List.mem_map.mp (List.of_mem_zip hp).1
          exact (ih p.1 (hcp ▸ mem_parts_column hs hc) (hcp ▸ ha.column hs c hc)
            (List.forall₂_zip hshape hp)).mpr fun hc => hapart (.inColumn hs hs' hp hc)
        exact List.forall_mem_map.mp hall

/-! ## Building unions -/

theorem wellFormed_proxy {t : RType} (proxy : Bool) :
    WellFormed { t with cls := { t.cls with storageProxy := proxy } } ↔ t.WellFormed :=
  ⟨fun h => .mk ⟨h.shape.mode, h.shape.size, h.shape.flat, h.shape.distinct⟩
      (fun _ hms => h.member hms) fun _ hs => h.column hs,
    fun h => .mk ⟨h.shape.mode, h.shape.size, h.shape.flat, h.shape.distinct⟩
      (fun _ hms => h.member hms) fun _ hs => h.column hs⟩

/-- A type without members or columns is well formed unless it is a union. -/
theorem wellFormed_of_plain {t : RType} (hmode : t.mode ≠ .union) (hms : t.members = none)
    (hs : t.columns = none) : t.WellFormed :=
  .mk ⟨by simp [hms, hmode], by simp [hms], by simp [hms], by simp [hms]⟩ (by simp [hms])
    (by simp [hs])

theorem wellFormed_unknown (l : Length) : WellFormed { unknown with length := l } :=
  wellFormed_of_plain (by simp [unknown]) rfl rfl

/-- A member of a union: well formed, known, and no union itself. -/
def Alone (m : RType) : Prop := m.WellFormed ∧ m.mode ≠ .union ∧ m.mode.isUnknown = false

theorem wellFormed_ofMembers {ms : List RType} (hsize : ms.length ≤ maxUnionMembers)
    (hms : ∀ m ∈ ms, m.Alone) (hdistinct : (ms.map kind).Nodup) : (ofMembers ms).WellFormed := by
  match ms with
  | [] => exact wellFormed_unknown _
  | [m] => exact (hms m List.mem_cons_self).1
  | m :: n :: ms =>
    refine .mk ⟨by simp [ofMembers, new], ?_, ?_, ?_⟩ ?_ (by simp [ofMembers, new])
    · rintro _ ⟨⟩
      exact ⟨by simp, hsize⟩
    · rintro _ ⟨⟩
      exact fun k hk => (hms k hk).2
    · rintro _ ⟨⟩
      exact hdistinct
    · rintro _ ⟨⟩
      exact fun k hk => (hms k hk).1

theorem alone_alternatives {t : RType} (h : t.WellFormed) (hknown : t.mode.isUnknown = false) :
    ∀ m ∈ alternatives t, m.Alone := by
  by_cases hu : t.mode = .union
  · obtain ⟨ms, hms⟩ := Option.isSome_iff_exists.mp (h.shape.mode.mpr hu)
    rw [alternatives_of_union hu hms]
    exact fun m hm => ⟨h.member hms m hm, h.shape.flat ms hms m hm⟩
  · rw [alternatives_of_not_union hu]
    exact List.forall_mem_singleton.mpr ⟨h, hu, hknown⟩

theorem alone_pushDedup {ms : List RType} {t : RType} (hms : ∀ m ∈ ms, m.Alone) (ht : t.Alone) :
    ∀ m ∈ pushDedup ms t, m.Alone := by
  induction ms with
  | nil => simpa [pushDedup] using ht
  | cons a ms ih =>
    rw [List.forall_mem_cons] at hms
    simp only [pushDedup]
    split
    · exact List.forall_mem_cons.mpr ⟨⟨(wellFormed_proxy _).mpr hms.1.1, hms.1.2⟩, hms.2⟩
    · exact List.forall_mem_cons.mpr ⟨hms.1, ih hms.2⟩

theorem alone_foldl_pushDedup {ts ms : List RType} (ht : ∀ t ∈ ts, t.Alone)
    (hms : ∀ m ∈ ms, m.Alone) : ∀ m ∈ ts.foldl pushDedup ms, m.Alone := by
  induction ts generalizing ms with
  | nil => exact hms
  | cons t ts ih =>
    rw [List.forall_mem_cons] at ht
    exact ih ht.2 (alone_pushDedup hms ht.1)

theorem wellFormed_unionOf {a b : RType} (ha : a.WellFormed) (hb : b.WellFormed)
    (hka : a.mode.isUnknown = false) (hkb : b.mode.isUnknown = false) :
    (unionOf a b).WellFormed := by
  rcases Nat.lt_or_ge maxUnionMembers (distinctAlternatives a b).length with hmany | hfew
  · rw [unionOf_eq_unknown hmany]
    exact wellFormed_unknown _
  · rw [unionOf_eq_ofMembers hfew]
    refine wellFormed_ofMembers hfew (alone_foldl_pushDedup ?_ (by simp)) (nodup_distinct _)
    exact List.forall_mem_append.mpr ⟨alone_alternatives ha hka, alone_alternatives hb hkb⟩

/-- The join does not merge two members into equal ones. -/
def JoinsApart (a b : RType) : Prop :=
  a.mode.isUnknown = false → a.sameShape b = true → ¬ Collides a b

/-- Joining two well-formed types goes wrong exactly where it merges unions whose members
collide. -/
theorem wellFormed_join_iff {a b : RType} (ha : a.WellFormed) (hb : b.WellFormed) :
    (a.join b).WellFormed ↔ JoinsApart a b := by
  by_cases hunknown : a.mode.isUnknown = true ∨ b.mode.isUnknown = true
  · have hor : (a.mode.isUnknown || b.mode.isUnknown) = true := by simpa using hunknown
    have hjoin : (a.join b).WellFormed := by
      simp only [join, hor, if_true]
      exact wellFormed_unknown _
    refine ⟨fun _ hka hs => ?_, fun _ => hjoin⟩
    have hmode := ((agree_iff false a b).mp hs).1
    simp [← hmode, hka] at hunknown
  · obtain ⟨hka, hkb⟩ := not_or.mp hunknown
    rw [Bool.not_eq_true] at hka hkb
    cases hs : a.sameShape b with
    | false =>
      rw [join_of_not_sameShape hka hkb hs]
      exact ⟨fun _ _ hs' => by simp [hs] at hs', fun _ => wellFormed_unionOf ha hb hka hkb⟩
    | true =>
      have hmerge : (a.join b).WellFormed ↔ (a.mergeSameShape b).WellFormed := by
        simp only [join, hka, hkb, Bool.or_self, hs, Bool.false_eq_true, if_false, if_true]
        split
        · rename_i heq
          rw [mergeSameShape_of_eq heq]
          exact wellFormed_proxy _
        · exact wellFormed_proxy _
      rw [hmerge, wellFormed_mergeSameShape_iff ha hs]
      exact ⟨fun h _ _ => h, fun h => h hka hs⟩

end RType
end Ry
