import Ry.Core.JoinKinds

/-! # The join and the order of a list

`join_all` folds the join over a list; the analyses reach one list of types in the order of
their branches and files.  Types of one shape may be joined in any order, and so may types of
several shapes as long as no two alternatives share a shape without being equal.  An unknown
type absorbs the rest but for a length above one that all of them prove.

Where two alternatives share a shape, the order decides whether the join merges them or lists
both (`order_decides_members`).
-/

namespace Ry

namespace RType

/-- `join_all` -/
def joinAll : List RType → RType
  | [] => unknown
  | t :: ts => ts.foldl join t

theorem joinAll_cons (t : RType) (ts : List RType) :
    joinAll (t :: ts) = (Bracketing.comb t ts).eval join :=
  (Bracketing.eval_comb join t ts).symm

/-! ## With an unknown type -/

theorem join_of_unknown {a b : RType} (h : a.mode.isUnknown = true ∨ b.mode.isUnknown = true) :
    a.join b = { unknown with length :=
      if (a.length.join b.length).provenAboveOne then a.length.join b.length else .unknown } := by
  have hor : (a.mode.isUnknown || b.mode.isUnknown) = true := by simpa using h
  simp only [join, hor, if_true]

theorem join_sameShape {a b : RType} (ha : a.mode.isUnknown = false)
    (h : a.sameShape b = true) : (a.join b).sameShape a = true :=
  agree_trans (sameShape_of_eq (join_of_sameShape ha h)) (sameShape_mergeSameShape a b h)

/-- The lengths in `r` are spelled as the constructors do, and a union is above one when all
its alternatives are. -/
structure Measured (r : RType) : Prop where
  canonical : r.length.Canonical
  flat : ∀ m ∈ alternatives r, m.mode ≠ .union ∧ m.length.Canonical
  kept : (∀ m ∈ alternatives r, 2 ≤ m.length.minPossible) → 2 ≤ r.length.minPossible

theorem measured_of_not_union {r : RType} (hr : r.mode ≠ .union) (h : r.length.Canonical) :
    r.Measured := by
  refine ⟨h, ?_, ?_⟩
  · rw [alternatives_of_not_union hr]
    exact List.forall_mem_singleton.mpr ⟨hr, h⟩
  · rw [alternatives_of_not_union hr]
    exact List.forall_mem_singleton.mp

theorem Regular.measured {t : RType} (h : t.Regular) : t.Measured := by
  refine ⟨h.canonical, ?_, fun hlong => (h.joinOf.2 2).mpr (List.forall_mem_map.mpr hlong)⟩
  by_cases ht : t.mode = .union
  · obtain ⟨ms, hms, -, -, hflat, -⟩ := h.members ht
    rwa [alternatives_of_union ht hms]
  · exact (measured_of_not_union ht h.canonical).flat

/-- Two types of one shape have alternatives of the same modes and lengths. -/
theorem exists_alternative {a b : RType} (h : a.sameShape b = true) :
    ∀ m ∈ alternatives a, ∃ n ∈ alternatives b, m.mode = n.mode ∧ m.length = n.length := by
  intro m hm
  have halts := forall₂_alternatives h
  obtain ⟨i, hi, rfl⟩ := List.mem_iff_getElem.mp hm
  have hi' : i < (alternatives b).length := halts.length_eq ▸ hi
  have hshape := (agree_iff false _ _).mp (halts.get hi hi')
  exact ⟨_, List.getElem_mem hi', hshape.1, hshape.2.1⟩

theorem Measured.congr {a b : RType} (ha : a.Measured) (h : a.sameShape b = true) :
    b.Measured := by
  have hlength := ((agree_iff false a b).mp h).2.1
  refine ⟨hlength ▸ ha.canonical, fun n hn => ?_, fun hlong => ?_⟩
  · obtain ⟨m, hm, hmode, hl⟩ := exists_alternative (agree_symm h) n hn
    exact ⟨hmode ▸ (ha.flat m hm).1, hl ▸ (ha.flat m hm).2⟩
  · rw [← hlength]
    refine ha.kept fun m hm => ?_
    obtain ⟨n, hn, -, hl⟩ := exists_alternative h m hm
    exact hl ▸ hlong n hn

/-- The lengths of the alternatives a union is built over are those it is built from. -/
theorem ofMembers_spec {ms : List RType}
    (hflat : ∀ m ∈ ms, m.mode ≠ .union ∧ m.length.Canonical) :
    (ofMembers ms).Measured ∧
      (2 ≤ (ofMembers ms).length.minPossible → ∀ m ∈ ms, 2 ≤ m.length.minPossible) := by
  match ms with
  | [] => exact ⟨measured_of_not_union (by decide) nofun, nofun⟩
  | [m] =>
    obtain ⟨hm, hl⟩ := List.forall_mem_singleton.mp hflat
    exact ⟨measured_of_not_union hm hl, fun h => List.forall_mem_singleton.mpr h⟩
  | m :: n :: ms =>
    have hjoin : (ofMembers (m :: n :: ms)).length.JoinOf ((m :: n :: ms).map length) :=
      Length.joinOf_foldl _ _
    refine ⟨⟨?_, hflat, fun hlong => (hjoin.2 2).mpr (List.forall_mem_map.mpr hlong)⟩,
      fun h m hm => (hjoin.2 2).mp h _ (List.mem_map_of_mem hm)⟩
    have hcanonical : ∀ (ls : List Length) {l : Length}, l.Canonical →
        (ls.foldl Length.join l).Canonical := by
      intro ls
      induction ls with
      | nil => exact fun h => h
      | cons k ks ih => exact fun h => ih (h.join k)
    exact hcanonical _ (hflat m List.mem_cons_self).2

theorem unionOf_measured {a b : RType} (ha : a.Measured) (hb : b.Measured) :
    (unionOf a b).Measured ∧ (2 ≤ (unionOf a b).length.minPossible →
      2 ≤ a.length.minPossible ∧ 2 ≤ b.length.minPossible) := by
  rcases Nat.lt_or_ge maxUnionMembers (distinctAlternatives a b).length with hmany | hfew
  · rw [unionOf_eq_unknown hmany]
    exact ⟨measured_of_not_union (by decide) nofun, nofun⟩
  have hkinds : kinds (distinctAlternatives a b) = kinds (alternatives a ++ alternatives b) :=
    kinds_distinct _
  have hflat : ∀ m ∈ distinctAlternatives a b, m.mode ≠ .union ∧ m.length.Canonical := by
    intro m hm
    obtain ⟨n, hn, hmn⟩ := exists_eq_of_kinds hkinds m hm
    have hn' : n.mode ≠ .union ∧ n.length.Canonical :=
      (List.mem_append.mp hn).elim (ha.flat n) (hb.flat n)
    obtain ⟨hmode, hlength, -⟩ := (agree_iff true m n).mp hmn
    exact ⟨hmode ▸ hn'.1, hlength ▸ hn'.2⟩
  rw [unionOf_eq_ofMembers hfew]
  obtain ⟨hmeasured, hlong⟩ := ofMembers_spec hflat
  refine ⟨hmeasured, fun h => ?_⟩
  have halts : ∀ n ∈ alternatives a ++ alternatives b, 2 ≤ n.length.minPossible := by
    intro n hn
    obtain ⟨m, hm, hnm⟩ := exists_eq_of_kinds hkinds.symm n hn
    have hlength := ((agree_iff true n m).mp hnm).2.1
    exact hlength ▸ hlong h m hm
  obtain ⟨hl, hr⟩ := List.forall_mem_append.mp halts
  exact ⟨ha.kept hl, hb.kept hr⟩

/-- A join is above one only where both types are. -/
theorem Measured.join {a b : RType} (ha : a.Measured) (hb : b.Measured) :
    (a.join b).Measured ∧ (2 ≤ (a.join b).length.minPossible →
      2 ≤ a.length.minPossible ∧ 2 ≤ b.length.minPossible) := by
  by_cases hunknown : a.mode.isUnknown = true ∨ b.mode.isUnknown = true
  · rw [join_of_unknown hunknown]
    dsimp only
    split
    · refine ⟨measured_of_not_union (by simp [unknown]) (ha.canonical.join _), fun h => ?_⟩
      rwa [Length.minPossible_join, le_min_iff] at h
    · refine ⟨measured_of_not_union (by decide) (by decide), fun h => ?_⟩
      exact absurd h (by decide)
  obtain ⟨hka, hkb⟩ := not_or.mp hunknown
  rw [Bool.not_eq_true] at hka hkb
  cases hs : a.sameShape b with
  | true =>
    have hshape := join_sameShape hka hs
    refine ⟨ha.congr (agree_symm hshape), fun h => ?_⟩
    have hla := ((agree_iff false _ _).mp hshape).2.1
    have hlb := ((agree_iff false _ _).mp hs).2.1
    rw [hla] at h
    exact ⟨h, hlb ▸ h⟩
  | false =>
    rw [join_of_not_sameShape hka hkb hs]
    exact unionOf_measured ha hb

/-- Joining types with an unknown one among them. -/
def ShortSpec (ts : List RType) (r : RType) : Prop :=
  r.Measured ∧ (2 ≤ r.length.minPossible → ∀ t ∈ ts, 2 ≤ t.length.minPossible) ∧
    (¬ Known ts → r.mode.isUnknown = true ∧ (2 ≤ ts.length →
      r = { unknown with length := r.length } ∧
        (r.length.provenAboveOne = true ∨ r.length = .unknown)))

theorem not_known_append {ts us : List RType} (h : ¬ Known (ts ++ us)) :
    ¬ Known ts ∨ ¬ Known us := by
  by_contra hn
  rw [not_or, not_not, not_not] at hn
  exact h (List.forall_mem_append.mpr hn)

theorem ShortSpec.join {ts us : List RType} {a b : RType} (ha : ShortSpec ts a)
    (hb : ShortSpec us b) : ShortSpec (ts ++ us) (a.join b) := by
  obtain ⟨hma, hla, hua⟩ := ha
  obtain ⟨hmb, hlb, hub⟩ := hb
  obtain ⟨hmeasured, hlong⟩ := hma.join hmb
  refine ⟨hmeasured, fun h => ?_, fun hn => ?_⟩
  · obtain ⟨h1, h2⟩ := hlong h
    exact List.forall_mem_append.mpr ⟨hla h1, hlb h2⟩
  · have hunknown : a.mode.isUnknown = true ∨ b.mode.isUnknown = true :=
      (not_known_append hn).imp (fun h => (hua h).1) fun h => (hub h).1
    rw [join_of_unknown hunknown]
    refine ⟨rfl, fun _ => ⟨rfl, ?_⟩⟩
    dsimp only
    split
    · rename_i h
      exact .inl h
    · exact .inr rfl

/-- Joining types whose lengths are all above one, an unknown one among them. -/
def LongSpec (ts : List RType) (r : RType) : Prop :=
  (Known ts → JoinSpec ts r) ∧
    (¬ Known ts → r.mode.isUnknown = true ∧ r.length.JoinOf (ts.map length) ∧
      (2 ≤ ts.length → r = { unknown with length := r.length }))

theorem joinOf_alternativesOf {l : Length} {ts : List RType} (hreg : ∀ t ∈ ts, t.Regular) :
    l.JoinOf ((alternativesOf ts).map length) ↔ l.JoinOf (ts.map length) := by
  have hexact : ∀ n, (∀ k ∈ (alternativesOf ts).map length, k.exact = some n) ↔
      ∀ k ∈ ts.map length, k.exact = some n := by
    intro n
    simp only [List.forall_mem_map]
    constructor
    · intro h t ht
      refine ((hreg t ht).joinOf.1 n).mpr (List.forall_mem_map.mpr fun m hm => ?_)
      exact h m (mem_alternativesOf.mpr ⟨t, ht, hm⟩)
    · intro h m hm
      obtain ⟨t, ht, hmt⟩ := mem_alternativesOf.mp hm
      exact List.forall_mem_map.mp (((hreg t ht).joinOf.1 n).mp (h t ht)) m hmt
  have hleast : ∀ n, (∀ k ∈ (alternativesOf ts).map length, n ≤ k.minPossible) ↔
      ∀ k ∈ ts.map length, n ≤ k.minPossible := by
    intro n
    simp only [List.forall_mem_map]
    constructor
    · intro h t ht
      refine ((hreg t ht).joinOf.2 n).mpr (List.forall_mem_map.mpr fun m hm => ?_)
      exact h m (mem_alternativesOf.mpr ⟨t, ht, hm⟩)
    · intro h m hm
      obtain ⟨t, ht, hmt⟩ := mem_alternativesOf.mp hm
      exact List.forall_mem_map.mp (((hreg t ht).joinOf.2 n).mp (h t ht)) m hmt
  simp only [Length.JoinOf, hexact, hleast]

theorem JoinSpec.joinOf {ts : List RType} {r : RType} (h : JoinSpec ts r) (hne : ts ≠ [])
    (hreg : ∀ t ∈ ts, t.Regular) (hfew : (kinds (alternativesOf ts)).card ≤ maxUnionMembers) :
    r.length.JoinOf (ts.map length) := by
  rcases h with heq | ⟨-, ⟨ms, hms, hk, -⟩ | ⟨hmany, -⟩⟩
  · refine (Length.joinOf_singleton r.length).of_mem_iff fun k => ?_
    have hlength : ∀ t ∈ ts, t.length = r.length := fun t ht =>
      ((agree_iff true r t).mp (heq t ht)).2.1.symm
    obtain ⟨t, ht⟩ := List.exists_mem_of_ne_nil _ hne
    simp only [List.mem_singleton, List.mem_map]
    constructor
    · rintro rfl
      exact ⟨t, ht, hlength t ht⟩
    · rintro ⟨u, hu, rfl⟩
      exact hlength u hu
  · exact (joinOf_alternativesOf hreg).mp (joinOf_of_kinds hk hms.length)
  · omega

/-- The known types of a list. -/
def knownOf (ts : List RType) : List RType := ts.filter fun t => !t.mode.isUnknown

theorem subset_knownOf {ts us : List RType} (hsub : ts ⊆ us) (h : Known ts) :
    ts ⊆ knownOf us := by
  intro t ht
  exact List.mem_filter.mpr ⟨hsub ht, by simp [h t ht]⟩

theorem LongSpec.joinOf {ts vs : List RType} {r : RType} (h : LongSpec ts r) (hne : ts ≠ [])
    (hsub : ts ⊆ vs) (hreg : ∀ t ∈ vs, t.Regular)
    (hfew : (kinds (alternativesOf (knownOf vs))).card ≤ maxUnionMembers) :
    r.length.JoinOf (ts.map length) := by
  by_cases hk : Known ts
  · refine (h.1 hk).joinOf hne (fun t ht => hreg t (hsub ht)) ((Finset.card_le_card ?_).trans hfew)
    exact kinds_subset (alternativesOf_subset (subset_knownOf hsub hk))
  · exact (h.2 hk).2.1

theorem LongSpec.join {ts us vs : List RType} {a b : RType} (hts : ts ≠ []) (hus : us ≠ [])
    (hsub : ts ++ us ⊆ vs) (hreg : ∀ t ∈ vs, t.Regular)
    (hlong : ∀ t ∈ vs, 2 ≤ t.length.minPossible) (hsep : Separate (knownOf vs))
    (hfew : (kinds (alternativesOf (knownOf vs))).card ≤ maxUnionMembers)
    (ha : LongSpec ts a) (hb : LongSpec us b) : LongSpec (ts ++ us) (a.join b) := by
  have hleft : ts ⊆ vs := fun t ht => hsub (List.mem_append_left _ ht)
  have hright : us ⊆ vs := fun t ht => hsub (List.mem_append_right _ ht)
  refine ⟨fun hk => ?_, fun hn => ?_⟩
  · obtain ⟨hkt, hku⟩ := List.forall_mem_append.mp hk
    exact (ha.1 hkt).join hts hus (fun t ht => hreg t (hsub ht)) hk
      (hsep.mono (subset_knownOf hsub hk)) (hb.1 hku)
  · have hunknown : a.mode.isUnknown = true ∨ b.mode.isUnknown = true :=
      (not_known_append hn).imp (fun h => (ha.2 h).1) fun h => (hb.2 h).1
    have hjoin : (a.length.join b.length).JoinOf ((ts ++ us).map length) := by
      rw [List.map_append]
      exact (ha.joinOf hts hleft hreg hfew).join (hb.joinOf hus hright hreg hfew)
    have hproven : (a.length.join b.length).provenAboveOne = true := by
      refine Length.provenAboveOne_of_minPossible ((hjoin.2 2).mpr ?_)
      exact List.forall_mem_map.mpr fun t ht => hlong t (hsub ht)
    rw [join_of_unknown hunknown, if_pos hproven]
    exact ⟨rfl, hjoin, fun _ => rfl⟩

/-! ## Any order -/

/-- One type but for the order of its alternatives. -/
structure Alike (a b : RType) : Prop where
  mode : a.mode = b.mode
  length : a.length.Alike b.length
  cls : a.cls.eq b.cls = true
  columns : agreeSchema? true a.columns b.columns = true
  fnSig : agreeSig? true a.fnSig b.fnSig = true
  valueFacts : a.valueFacts = b.valueFacts
  members : Option.Rel (fun ms ns => kinds ms = kinds ns) a.members b.members

theorem alike_of_eq {a b : RType} (h : a.eq b = true) : a.Alike b := by
  have hmembers : Option.Rel (fun ms ns => kinds ms = kinds ns) a.members b.members := by
    have hrel := ((agree_iff true a b).mp h).2.2.2.2.2.1
    rcases hms : a.members with _ | ms <;> rcases hns : b.members with _ | ns <;>
      simp only [hms, hns, rel_some_some, rel_none_none, not_rel_some_none,
        not_rel_none_some] at hrel ⊢
    exact congrArg List.toFinset (map_kind_of_forall₂ hrel)
  cases a
  simp only [eq, agree, Bool.and_eq_true, decide_eq_true_eq, Bool.not_true, Bool.false_or] at h
  obtain ⟨⟨⟨⟨⟨⟨hmode, hlength⟩, hcls⟩, hcolumns⟩, hsig⟩, -⟩, hfacts⟩ := h
  refine ⟨hmode, hlength ▸ ⟨rfl, rfl⟩, hcls, hcolumns, hsig, hfacts, ?_⟩
  exact hmembers

theorem FreshUnion.alike {a b : RType} {ms ns : List RType} (ha : FreshUnion a ms)
    (hb : FreshUnion b ns) (h : kinds ms = kinds ns) : a.Alike b := by
  obtain ⟨hc, hs, hf⟩ := ha.plain
  obtain ⟨hc', hs', hf'⟩ := hb.plain
  refine ⟨ha.mode.trans hb.mode.symm, (joinOf_of_kinds h ha.length).alike hb.length, ?_,
    by simp [hc, hc', agreeSchema?], by simp [hs, hs', agreeSig?], hf.trans hf'.symm, ?_⟩
  · have hclsA := (ClassVector.eq_iff _ _).mp ha.cls
    have hclsB := (ClassVector.eq_iff _ _).mp hb.cls
    exact (ClassVector.eq_iff _ _).mpr ⟨hclsA.1.trans hclsB.1.symm,
      hclsA.2.1.trans hclsB.2.1.symm, hclsA.2.2.trans hclsB.2.2.symm⟩
  · rw [ha.members, hb.members]
    exact .some h

theorem JoinSpec.alike {ts us : List RType} {a b : RType} (ha : JoinSpec ts a)
    (hb : JoinSpec us b) (hne : ts ≠ []) (hperm : ts.Perm us) : a.Alike b := by
  have huniform : ∀ {ts : List RType} {r : RType}, (∀ t ∈ ts, r.eq t = true) → Uniform ts :=
    fun h t ht u hu => eq_trans (eq_symm (h t ht)) (h u hu)
  have hkinds : kinds (alternativesOf ts) = kinds (alternativesOf us) :=
    Finset.Subset.antisymm (kinds_subset (alternativesOf_subset hperm.subset))
      (kinds_subset (alternativesOf_subset hperm.symm.subset))
  rcases ha with haeq | ⟨hmixed, ha⟩ <;> rcases hb with hbeq | ⟨hmixed', hb⟩
  · obtain ⟨t, ht⟩ := List.exists_mem_of_ne_nil _ hne
    exact alike_of_eq (eq_trans (haeq t ht) (eq_symm (hbeq t (hperm.subset ht))))
  · exact absurd ((huniform haeq).mono hperm.symm.subset) hmixed'
  · exact absurd ((huniform hbeq).mono hperm.subset) hmixed
  · rcases ha with ⟨ms, hms, hk, hfew⟩ | ⟨hmany, rfl⟩ <;>
      rcases hb with ⟨ns, hns, hk', hfew'⟩ | ⟨hmany', rfl⟩
    · exact hms.alike hns (hk.trans (hkinds.trans hk'.symm))
    · rw [hkinds] at hfew
      omega
    · rw [hkinds] at hmany
      omega
    · exact alike_of_eq (eq_refl _)

/-- The order of joining `ts` does not matter: they have one shape; or they are known, and no
two of their alternatives share a shape without being equal; or some are unknown, and some
length is not above one or the known ones fit into a union. -/
def OrderFree (ts : List RType) : Prop :=
  OneShape ts ∨ Known ts ∧ Separate ts ∨
    ¬ Known ts ∧ ((∃ t ∈ ts, t.length.provenAboveOne = false) ∨
      Separate (knownOf ts) ∧ (distinct (alternativesOf (knownOf ts))).length ≤ maxUnionMembers)

theorem joinSpec_eval (t : Bracketing RType) (hreg : ∀ x ∈ t.leaves, x.Regular)
    (hknown : Known t.leaves) (hsep : Separate t.leaves) : JoinSpec t.leaves (t.eval join) := by
  induction t with
  | leaf a => exact .inl (List.forall_mem_singleton.mpr (eq_refl a))
  | node l r ihl ihr =>
    obtain ⟨hregL, hregR⟩ := List.forall_mem_append.mp hreg
    obtain ⟨hknownL, hknownR⟩ := List.forall_mem_append.mp hknown
    have hspecL := ihl hregL hknownL (hsep.mono (List.subset_append_left _ _))
    have hspecR := ihr hregR hknownR (hsep.mono (List.subset_append_right _ _))
    exact hspecL.join l.leaves_ne_nil r.leaves_ne_nil hreg hknown hsep hspecR

theorem shortSpec_eval (t : Bracketing RType) (hreg : ∀ x ∈ t.leaves, x.Regular) :
    ShortSpec t.leaves (t.eval join) := by
  induction t with
  | leaf a =>
    refine ⟨(hreg a List.mem_cons_self).measured, fun h => List.forall_mem_singleton.mpr h,
      fun hn => ⟨?_, fun htwo => ?_⟩⟩
    · rw [← Bool.not_eq_false]
      exact fun h => hn (List.forall_mem_singleton.mpr h)
    · simp [Bracketing.leaves] at htwo
  | node l r ihl ihr =>
    obtain ⟨hregL, hregR⟩ := List.forall_mem_append.mp hreg
    exact (ihl hregL).join (ihr hregR)

theorem longSpec_eval (t : Bracketing RType) {vs : List RType} (hsub : t.leaves ⊆ vs)
    (hreg : ∀ x ∈ vs, x.Regular) (hlong : ∀ x ∈ vs, 2 ≤ x.length.minPossible)
    (hsep : Separate (knownOf vs))
    (hfew : (kinds (alternativesOf (knownOf vs))).card ≤ maxUnionMembers) :
    LongSpec t.leaves (t.eval join) := by
  induction t with
  | leaf a =>
    refine ⟨fun _ => .inl (List.forall_mem_singleton.mpr (eq_refl a)),
      fun hn => ⟨?_, Length.joinOf_singleton _, fun htwo => ?_⟩⟩
    · rw [← Bool.not_eq_false]
      exact fun h => hn (List.forall_mem_singleton.mpr h)
    · simp [Bracketing.leaves] at htwo
  | node l r ihl ihr =>
    obtain ⟨hsubL, hsubR⟩ := List.append_subset.mp hsub
    exact (ihl hsubL).join l.leaves_ne_nil r.leaves_ne_nil hsub hreg hlong hsep hfew (ihr hsubR)

theorem alike_of_unknown {a b : RType} (ha : a = { unknown with length := a.length })
    (hb : b = { unknown with length := b.length }) (h : a.length.Alike b.length) : a.Alike b := by
  rw [ha, hb]
  exact ⟨rfl, h, rfl, rfl, rfl, rfl, .none⟩

theorem join_order {t t' : Bracketing RType} (hperm : t.leaves.Perm t'.leaves)
    (hreg : ∀ x ∈ t.leaves, x.Regular) (hfree : OrderFree t.leaves) :
    (t.eval join).Alike (t'.eval join) := by
  have hback := hperm.symm.subset
  have hreg' : ∀ x ∈ t'.leaves, x.Regular := fun x hx => hreg x (hback hx)
  rcases hfree with hone | ⟨hknown, hsep⟩ | ⟨hn, hfree⟩
  · exact alike_of_eq (eval_eq_of_oneShape hperm hone)
  · exact (joinSpec_eval t hreg hknown hsep).alike
      (joinSpec_eval t' hreg' (fun x hx => hknown x (hback hx)) (hsep.mono hback))
      t.leaves_ne_nil hperm
  have hn' : ¬ Known t'.leaves := fun h => hn fun x hx => h x (hperm.subset hx)
  rcases Nat.lt_or_ge t.leaves.length 2 with hlt | htwo
  · -- a single type
    obtain ⟨x, hx⟩ : ∃ x, t.leaves = [x] := by
      have hpos := List.length_pos_iff.mpr t.leaves_ne_nil
      exact List.length_eq_one_iff.mp (by omega)
    have hx' : t'.leaves = [x] := List.perm_singleton.mp (hx ▸ hperm).symm
    rw [Bracketing.eval_of_leaves join hx, Bracketing.eval_of_leaves join hx']
    exact alike_of_eq (eq_refl x)
  have htwo' : 2 ≤ t'.leaves.length := hperm.length_eq ▸ htwo
  by_cases hshort : ∃ x ∈ t.leaves, x.length.provenAboveOne = false
  · -- no order keeps a length
    have hunknown : ∀ {s : Bracketing RType}, (∀ x ∈ s.leaves, x.Regular) → 2 ≤ s.leaves.length →
        ¬ Known s.leaves → (∃ x ∈ s.leaves, x.length.provenAboveOne = false) →
        s.eval join = { unknown with length := (s.eval join).length } ∧
          (s.eval join).length = .unknown := by
      rintro s hs htwo hn ⟨x, hx, hlow⟩
      obtain ⟨hmeasured, hlong, hspec⟩ := shortSpec_eval s hs
      obtain ⟨heq, hlength⟩ := (hspec hn).2 htwo
      refine ⟨heq, hlength.resolve_left fun h => ?_⟩
      have hx' := Length.provenAboveOne_of_minPossible (hlong (hmeasured.canonical.minPossible h) x hx)
      simp [hlow] at hx'
    obtain ⟨heq, hl⟩ := hunknown hreg htwo hn hshort
    obtain ⟨heq', hl'⟩ := hunknown hreg' htwo' hn'
      (hshort.imp fun x hx => ⟨hperm.subset hx.1, hx.2⟩)
    exact alike_of_unknown heq heq' (by rw [hl, hl']; exact ⟨rfl, rfl⟩)
  · obtain ⟨hsep, hfew⟩ := hfree.resolve_left hshort
    have hlong : ∀ x ∈ t.leaves, 2 ≤ x.length.minPossible := by
      intro x hx
      refine (hreg x hx).canonical.minPossible ?_
      rw [← Bool.not_eq_false]
      exact fun h => hshort ⟨x, hx, h⟩
    rw [length_distinct] at hfew
    have hspec := (longSpec_eval t (List.Subset.refl _) hreg hlong hsep hfew).2 hn
    have hspec' := (longSpec_eval t' hback hreg hlong hsep hfew).2 hn'
    refine alike_of_unknown (hspec.2.2 htwo) (hspec'.2.2 htwo') ?_
    have hmem : ∀ k, k ∈ t.leaves.map length ↔ k ∈ t'.leaves.map length := fun k =>
      (hperm.map length).mem_iff
    exact (hspec.2.1.of_mem_iff hmem).alike hspec'.2.1

theorem regular_of_not_union {t : RType} (hmode : t.mode ≠ .union) (hlength : t.length.Canonical) :
    t.Regular :=
  ⟨hlength, fun h => absurd h hmode, fun h => absurd h hmode⟩

/-- `if (p) "a" else if (q) NULL else 1.5`, and the same branches the other way round. -/
theorem join_order_of_branches :
    ((Bracketing.node (.leaf (scalar .character))
        (.node (.leaf (new .null .zero)) (.leaf (scalar .double)))).eval join).Alike
      ((Bracketing.node (.node (.leaf (scalar .double)) (.leaf (new .null .zero)))
        (.leaf (scalar .character))).eval join) := by
  refine join_order ?_ ?_ (.inr (.inl ⟨?_, ?_⟩))
  · exact List.reverse_perm [scalar .double, new .null .zero, scalar .character]
  · intro x hx
    simp only [Bracketing.leaves, List.cons_append, List.nil_append, List.mem_cons,
      List.not_mem_nil, or_false] at hx
    rcases hx with rfl | rfl | rfl
    · exact regular_of_not_union (by decide) (by decide)
    · exact regular_of_not_union (by decide) (by decide)
    · exact regular_of_not_union (by decide) (by decide)
  · unfold Known
    decide
  · unfold Separate
    decide

theorem Alike.kinds_members {a b : RType} (h : a.Alike b) :
    kinds (a.members.getD []) = kinds (b.members.getD []) := by
  have hmembers := h.members
  rcases hms : a.members with _ | ms <;> rcases hns : b.members with _ | ns <;>
    simp only [hms, hns, rel_some_some, not_rel_some_none, not_rel_none_some] at hmembers
  · rfl
  · exact hmembers

/-- An integer literal whose value is the `f64` with these bits. -/
def integerLiteral (bits : UInt64) : RType :=
  { scalar .integer with valueFacts := ⟨some (bits, bits), true, false, .none⟩ }

/-- `1L`, `2L` and a string: `1L` and `2L` are merged into one alternative when they meet
first and listed as two when the string comes between. -/
theorem order_decides_members :
    ¬ ∀ t t' : Bracketing RType, (∀ x ∈ t.leaves, x.Regular) → t.leaves.Perm t'.leaves →
      (t.eval join).Alike (t'.eval join) := by
  intro h
  have hregular : ∀ bits, (integerLiteral bits).Regular := fun bits =>
    regular_of_not_union (by simp [integerLiteral, scalar, new]) (by simp [integerLiteral, scalar,
      new, Length.Canonical])
  have halike := h
    (.node (.node (.leaf (integerLiteral 0x3FF0000000000000))
      (.leaf (integerLiteral 0x4000000000000000))) (.leaf (scalar .character)))
    (.node (.node (.leaf (integerLiteral 0x3FF0000000000000)) (.leaf (scalar .character)))
      (.leaf (integerLiteral 0x4000000000000000))) ?_ (.cons _ (.swap _ _ _))
  · have hone : integerLiteral 0x3FF0000000000000 ∈
        ((((integerLiteral 0x3FF0000000000000).join (scalar .character)).join
          (integerLiteral 0x4000000000000000)).members.getD []) := List.mem_cons_self
    obtain ⟨m, hm, heq⟩ := exists_eq_of_kinds halike.kinds_members.symm _ hone
    have hnone : ∀ m ∈ (((integerLiteral 0x3FF0000000000000).join
        (integerLiteral 0x4000000000000000)).join (scalar .character)).members.getD [],
        (integerLiteral 0x3FF0000000000000).eq m = false := by decide
    simp [hnone m hm] at heq
  · intro x hx
    simp only [Bracketing.leaves, List.cons_append, List.nil_append, List.mem_cons,
      List.not_mem_nil, or_false] at hx
    rcases hx with rfl | rfl | rfl
    · exact hregular _
    · exact hregular _
    · exact regular_of_not_union (by decide) (by decide)

end RType
end Ry
