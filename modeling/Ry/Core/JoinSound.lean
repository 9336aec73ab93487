import Ry.Core.Values

/-! # When the join is an upper bound

The join of two types ought to describe every value either of them describes.  It
does on the unknown path, on the path for types of one shape, and for two types of
different shapes whose classes sit on their alternatives.  What `unionOf` drops is a
class a union operand carries itself: the result claims such values carry only the
class their member had.  `join_sound_iff` says exactly when that loses a value.
-/

namespace Ry

namespace RType

theorem length_of_describesUnder {outer : Option ClassVector} {t : RType} {v : RValue}
    (h : describesUnder outer t v = true) : t.length.describes v.length = true := by
  cases t
  simp only [describesUnder, Bool.and_eq_true] at h
  exact h.1.2

theorem describes_unknown_with (l : Length) (v : RValue) :
    describes { unknown with length := l } v = l.describes v.length := by
  simp [describes, describesUnder, unknown, Mode.describes, describesSchema?, describesSig?]

theorem describesUnder_union {t : RType} (ht : t.mode = .union) (outer : Option ClassVector)
    (v : RValue) : describesUnder outer t v = true ↔
      t.length.describes v.length = true ∧
        ∃ m ∈ t.members.getD [], describesUnder (outerClass outer t.cls) m v = true := by
  obtain ⟨mode, length, cls, columns, fnSig, members, facts⟩ := t
  obtain rfl : mode = .union := ht
  cases members <;>
    simp [describesUnder, Mode.describes, describesMembers?, describesMembers_iff]

/-! ## One shape -/

theorem sameShape_of_eq {a b : RType} (h : a.eq b = true) : a.sameShape b = true := by
  induction a using RType.induction generalizing b with
  | h a ih =>
    obtain ⟨hmode, hlength, hcls, hcolumns, hsig, hmembers, -⟩ := (agree_iff true a b).mp h
    refine (agree_iff false a b).mpr ⟨hmode, hlength, hcls, ?_, ?_, ?_, nofun⟩
    · rcases hs : a.columns with _ | s <;> rcases hs' : b.columns with _ | s' <;>
        simp only [hs, hs', rel_some_some, rel_none_none, not_rel_some_none,
          not_rel_none_some] at hcolumns ⊢
      refine ⟨?_, hcolumns.2⟩
      exact ((List.forall₂_and_left _ _).mpr ⟨fun c hc => hc, hcolumns.1⟩).imp fun c c' hcc =>
        ⟨hcc.2.1, ih c.2 (mem_parts_column hs hcc.1) hcc.2.2⟩
    · rcases hs : a.fnSig with _ | s <;> rcases hs' : b.fnSig with _ | s' <;>
        simp only [hs, hs', rel_some_some, rel_none_none, not_rel_some_none,
          not_rel_none_some] at hsig ⊢
      refine ⟨?_, ih _ (mem_parts_return hs) hsig.2⟩
      exact ((List.forall₂_and_left _ _).mpr ⟨fun p hp => hp, hsig.1⟩).imp fun p p' hpp =>
        ih p (mem_parts_param hs hpp.1) hpp.2
    · rcases hs : a.members with _ | ms <;> rcases hs' : b.members with _ | ms' <;>
        simp only [hs, hs', rel_some_some, rel_none_none, not_rel_some_none,
          not_rel_none_some] at hmembers ⊢
      exact ((List.forall₂_and_left _ _).mpr ⟨fun m hm => hm, hmembers⟩).imp fun m m' hmm =>
        ih m (mem_parts_member hs hmm.1) hmm.2

/-- The export marker is no part of a type's shape. -/
theorem sameShape_proxy (t : RType) (proxy : Bool) :
    sameShape { t with cls := { t.cls with storageProxy := proxy } } t = true := by
  have h := (agree_iff false t t).mp (sameShape_refl t)
  exact (agree_iff false _ _).mpr ⟨rfl, rfl, by simp, h.2.2.2⟩

theorem describes_proxy (t : RType) (proxy : Bool) (v : RValue) :
    describes { t with cls := { t.cls with storageProxy := proxy } } v = t.describes v :=
  describes_congr (sameShape_proxy t proxy) v

/-- Where two types have one shape, their join describes what each of them does. -/
theorem describes_join_of_sameShape {a b : RType} (ha : a.mode.isUnknown = false)
    (hb : b.mode.isUnknown = false) (h : a.sameShape b = true) (v : RValue) :
    (a.join b).describes v = a.describes v := by
  simp only [join, ha, hb, Bool.or_self, h, Bool.false_eq_true, if_false, if_true]
  split
  · exact describes_proxy a _ v
  · exact (describes_proxy (a.mergeSameShape b) _ v).trans
      (describes_congr (sameShape_mergeSameShape a b h) v)

/-! ## Different shapes -/

theorem describes_pushDedup (ms : List RType) (t : RType) (v : RValue) :
    (∃ m ∈ pushDedup ms t, m.describes v = true) ↔
      (∃ m ∈ ms, m.describes v = true) ∨ t.describes v = true := by
  induction ms with
  | nil => simp [pushDedup]
  | cons m ms ih =>
    simp only [pushDedup]
    split
    · rename_i hm
      have hmt : m.describes v = t.describes v := describes_congr (sameShape_of_eq hm) v
      simp only [List.mem_cons, exists_eq_or_imp, describes_proxy]
      rw [hmt, or_right_comm, or_self]
    · simp only [List.mem_cons, exists_eq_or_imp, ih, or_assoc]

/-- The pairwise different alternatives of two types. -/
def distinctAlternatives (a b : RType) : List RType :=
  (alternatives a ++ alternatives b).foldl pushDedup []

theorem describes_foldl_pushDedup (ts ms : List RType) (v : RValue) :
    (∃ m ∈ ts.foldl pushDedup ms, m.describes v = true) ↔
      (∃ m ∈ ms, m.describes v = true) ∨ ∃ t ∈ ts, t.describes v = true := by
  induction ts generalizing ms with
  | nil => simp
  | cons t ts ih =>
    simp only [List.foldl_cons, ih, describes_pushDedup, List.mem_cons, exists_eq_or_imp, or_assoc]

theorem describes_distinctAlternatives (a b : RType) (v : RValue) :
    (∃ m ∈ distinctAlternatives a b, m.describes v = true) ↔
      ∃ m ∈ alternatives a ++ alternatives b, m.describes v = true := by
  simpa [distinctAlternatives] using describes_foldl_pushDedup (alternatives a ++ alternatives b) [] v

theorem pushDedup_ne_nil (ms : List RType) (t : RType) : pushDedup ms t ≠ [] := by
  cases ms with
  | nil => simp [pushDedup]
  | cons m ms =>
    simp only [pushDedup]
    split <;> simp

theorem foldl_pushDedup_ne_nil (ts : List RType) {ms : List RType} (h : ms ≠ []) :
    ts.foldl pushDedup ms ≠ [] := by
  induction ts generalizing ms with
  | nil => exact h
  | cons t ts ih => exact ih (pushDedup_ne_nil ms t)

theorem alternatives_eq_nil {a b : RType} (h : distinctAlternatives a b = []) :
    alternatives a ++ alternatives b = [] := by
  unfold distinctAlternatives at h
  match halts : alternatives a ++ alternatives b with
  | [] => rfl
  | t :: ts =>
    rw [halts] at h
    exact absurd h (foldl_pushDedup_ne_nil ts (pushDedup_ne_nil [] t))

/-- A checked union describes what its members do. -/
theorem describes_ofMembers {ms : List RType} (hms : ms ≠ []) (v : RValue) :
    (ofMembers ms).describes v = true ↔ ∃ m ∈ ms, m.describes v = true := by
  match ms, hms with
  | [m], _ => simp [ofMembers]
  | m :: m' :: ms, _ =>
    have hcls : outerClass none ClassVector.empty = none := by decide
    refine (describesUnder_union rfl none v).trans ?_
    simp only [ofMembers, new, Option.getD_some, hcls]
    refine ⟨fun h => h.2, fun h => ⟨?_, h⟩⟩
    obtain ⟨n, hn, hv⟩ := h
    refine Length.describes_foldl_join _ _ ?_
    rcases List.mem_cons.mp hn with rfl | hn
    · exact .inl (length_of_describesUnder hv)
    · exact .inr ⟨n.length, List.mem_map_of_mem hn, length_of_describesUnder hv⟩

theorem unionOf_eq_ofMembers {a b : RType}
    (hcap : (distinctAlternatives a b).length ≤ maxUnionMembers) :
    unionOf a b = ofMembers (distinctAlternatives a b) :=
  if_neg (Nat.not_lt.mpr hcap)

theorem describes_unionOf {a b : RType}
    (hcap : (distinctAlternatives a b).length ≤ maxUnionMembers) (v : RValue) :
    (unionOf a b).describes v = true ↔ distinctAlternatives a b = [] ∨
      ∃ m ∈ alternatives a ++ alternatives b, m.describes v = true := by
  rw [unionOf_eq_ofMembers hcap]
  by_cases hne : distinctAlternatives a b = []
  · simp only [hne, true_or, iff_true]
    exact describes_unknown_with .unknown v
  · simp [describes_ofMembers hne, describes_distinctAlternatives, hne]

/-- The class a union operand carries itself loses nothing: every value it describes
with that class is one that an alternative describes with its own. -/
def OwnClassRedundant (t : RType) (alts : List RType) : Prop :=
  t.mode = .union → t.cls.isClassless = false →
    ∀ m ∈ t.members.getD [], ∀ v, t.length.describes v.length = true →
      describesUnder (some t.cls) m v = true → ∃ n ∈ alts, n.describes v = true

/-- A type describes what its alternatives do, or its own class says more. -/
theorem mem_alternatives_of_describes {t : RType} {alts : List RType}
    (hsub : alternatives t ⊆ alts) (hown : OwnClassRedundant t alts) {v : RValue}
    (hv : t.describes v = true) : ∃ m ∈ alts, m.describes v = true := by
  by_cases ht : t.mode = .union
  · obtain ⟨hlength, m, hm, hmv⟩ := (describesUnder_union ht none v).mp hv
    cases hc : t.cls.isClassless with
    | true =>
      have halt : m ∈ alternatives t := by simpa [alternatives, ht] using hm
      refine ⟨m, hsub halt, ?_⟩
      simpa [outerClass, hc, describes] using hmv
    | false =>
      refine hown ht hc m hm v hlength ?_
      simpa [outerClass, hc] using hmv
  · exact ⟨t, hsub (by simp [alternatives, ht]), hv⟩

/-- Where the alternatives describe everything a union does, its own class is
redundant. -/
theorem ownClassRedundant_of_describes {t : RType} {alts : List RType}
    (h : ∀ v, t.describes v = true → ∃ m ∈ alts, m.describes v = true) :
    OwnClassRedundant t alts := by
  intro ht hc m hm v hlength hv
  refine h v ((describesUnder_union ht none v).mpr ⟨hlength, m, hm, ?_⟩)
  simpa [outerClass, hc] using hv

theorem ownClassRedundant_of_nil {t : RType} {alts : List RType} (h : alternatives t = []) :
    OwnClassRedundant t alts := by
  intro ht _ m hm
  rw [alternatives, if_pos ht] at h
  simp [h] at hm

theorem unionOf_eq_unknown {a b : RType}
    (hcap : maxUnionMembers < (distinctAlternatives a b).length) : unionOf a b = unknown := by
  exact if_pos hcap

/-- The join of types whose shapes differ is a union. -/
theorem join_of_not_sameShape {a b : RType} (ha : a.mode.isUnknown = false)
    (hb : b.mode.isUnknown = false) (h : a.sameShape b = false) : a.join b = unionOf a b := by
  have heq : a.eq b = false := by
    rw [← Bool.not_eq_true] at h ⊢
    exact fun heq => h (sameShape_of_eq heq)
  simp [join, ha, hb, h, heq]

theorem describes_join_of_unknown {a b : RType}
    (h : a.mode.isUnknown = true ∨ b.mode.isUnknown = true) {v : RValue}
    (hv : a.describes v = true ∨ b.describes v = true) : (a.join b).describes v = true := by
  have hlength : (a.length.join b.length).describes v.length = true := by
    rcases hv with hv | hv
    · exact Length.describes_join_left _ (length_of_describesUnder hv)
    · exact Length.describes_join_right _ (length_of_describesUnder hv)
  have hor : (a.mode.isUnknown || b.mode.isUnknown) = true := by simpa using h
  simp only [join, hor, if_true, describes_unknown_with]
  split
  · exact hlength
  · rfl

theorem describes_join_of_shape {a b : RType} (hs : a.sameShape b = true) {v : RValue}
    (hv : a.describes v = true ∨ b.describes v = true) : (a.join b).describes v = true := by
  by_cases hunknown : a.mode.isUnknown = true ∨ b.mode.isUnknown = true
  · exact describes_join_of_unknown hunknown hv
  · obtain ⟨ha, hb⟩ := not_or.mp hunknown
    rw [Bool.not_eq_true] at ha hb
    rw [describes_join_of_sameShape ha hb hs v]
    exact hv.elim id (describes_congr hs v).trans

theorem describes_join_of_overflow {a b : RType}
    (hcap : maxUnionMembers < (distinctAlternatives a b).length) {v : RValue}
    (hv : a.describes v = true ∨ b.describes v = true) : (a.join b).describes v = true := by
  by_cases hunknown : a.mode.isUnknown = true ∨ b.mode.isUnknown = true
  · exact describes_join_of_unknown hunknown hv
  obtain ⟨ha, hb⟩ := not_or.mp hunknown
  rw [Bool.not_eq_true] at ha hb
  cases hs : a.sameShape b with
  | true => exact describes_join_of_shape hs hv
  | false =>
    rw [join_of_not_sameShape ha hb hs, unionOf_eq_unknown hcap]
    exact describes_unknown_with .unknown v

/-- A class of its own that loses nothing keeps the join above its left operand,
whichever path it takes. -/
theorem describes_join_of_redundant_left {a b : RType}
    (ha : OwnClassRedundant a (alternatives a ++ alternatives b)) {v : RValue}
    (hv : a.describes v = true) : (a.join b).describes v = true := by
  by_cases hunknown : a.mode.isUnknown = true ∨ b.mode.isUnknown = true
  · exact describes_join_of_unknown hunknown (.inl hv)
  obtain ⟨hma, hmb⟩ := not_or.mp hunknown
  rw [Bool.not_eq_true] at hma hmb
  cases hs : a.sameShape b with
  | true => exact describes_join_of_shape hs (.inl hv)
  | false =>
  by_cases hcap : maxUnionMembers < (distinctAlternatives a b).length
  · exact describes_join_of_overflow hcap (.inl hv)
  rw [join_of_not_sameShape hma hmb hs, describes_unionOf (Nat.not_lt.mp hcap)]
  exact .inr (mem_alternatives_of_describes (List.subset_append_left _ _) ha hv)

theorem describes_join_of_redundant_right {a b : RType}
    (hb : OwnClassRedundant b (alternatives a ++ alternatives b)) {v : RValue}
    (hv : b.describes v = true) : (a.join b).describes v = true := by
  by_cases hunknown : a.mode.isUnknown = true ∨ b.mode.isUnknown = true
  · exact describes_join_of_unknown hunknown (.inr hv)
  obtain ⟨hma, hmb⟩ := not_or.mp hunknown
  rw [Bool.not_eq_true] at hma hmb
  cases hs : a.sameShape b with
  | true => exact describes_join_of_shape hs (.inr hv)
  | false =>
  by_cases hcap : maxUnionMembers < (distinctAlternatives a b).length
  · exact describes_join_of_overflow hcap (.inr hv)
  rw [join_of_not_sameShape hma hmb hs, describes_unionOf (Nat.not_lt.mp hcap)]
  exact .inr (mem_alternatives_of_describes (List.subset_append_right _ _) hb hv)

/-! ## Plain unions -/

/-- The union has no class of its own, and no unions among its members; every union
`join` builds of such types is one. -/
def PlainUnion (t : RType) : Prop :=
  t.mode = .union → t.cls.isClassless = true ∧ ∀ m ∈ t.members.getD [], m.mode ≠ .union

instance (t : RType) : Decidable t.PlainUnion := by
  unfold PlainUnion
  infer_instance

theorem PlainUnion.redundant {t : RType} (h : t.PlainUnion) (alts : List RType) :
    OwnClassRedundant t alts := by
  intro ht hc
  rw [(h ht).1] at hc
  contradiction

/-- With no class on its left operand itself, the join describes what that does. -/
theorem describes_join_left {a : RType} (ha : a.PlainUnion) (b : RType) {v : RValue}
    (hv : a.describes v = true) : (a.join b).describes v = true :=
  describes_join_of_redundant_left (ha.redundant _) hv

theorem describes_join_right (a : RType) {b : RType} (hb : b.PlainUnion) {v : RValue}
    (hv : b.describes v = true) : (a.join b).describes v = true :=
  describes_join_of_redundant_right (hb.redundant _) hv

theorem mode_mergeSameShape (a b : RType) : (a.mergeSameShape b).mode = a.mode := by
  cases a
  simp only [mergeSameShape]
  split <;> rfl

theorem mode_of_mem_mergeList {as bs : List RType} (h : ∀ a ∈ as, a.mode ≠ .union) :
    ∀ m ∈ mergeList as bs, m.mode ≠ .union := by
  induction as generalizing bs with
  | nil => simp [mergeList]
  | cons a as ih =>
    cases bs with
    | nil => exact h
    | cons b bs =>
      intro m hm
      rcases List.mem_cons.mp hm with rfl | hm
      · rw [mode_mergeSameShape]
        exact h a List.mem_cons_self
      · exact ih (fun a ha => h a (List.mem_cons_of_mem _ ha)) m hm

theorem PlainUnion.mergeSameShape {a : RType} (ha : a.PlainUnion) (b : RType) :
    (a.mergeSameShape b).PlainUnion := by
  obtain ⟨mode, length, cls, columns, fnSig, members, facts⟩ := a
  simp only [RType.mergeSameShape]
  split
  · exact ha
  · intro hmode
    refine ⟨(ha hmode).1, ?_⟩
    cases members with
    | none => exact (ha hmode).2
    | some ms =>
      cases hms : b.members with
      | none => exact (ha hmode).2
      | some ms' => exact mode_of_mem_mergeList (ha hmode).2

theorem PlainUnion.mode_alternatives {t : RType} (h : t.PlainUnion) :
    ∀ m ∈ alternatives t, m.mode ≠ .union := by
  intro m hm
  unfold alternatives at hm
  split at hm
  · rename_i ht
    exact (h ht).2 m hm
  · rename_i ht
    rwa [List.mem_singleton.mp hm]

theorem mode_of_mem_pushDedup {ms : List RType} {t : RType} (h : ∀ m ∈ ms, m.mode ≠ .union)
    (ht : t.mode ≠ .union) : ∀ m ∈ pushDedup ms t, m.mode ≠ .union := by
  induction ms with
  | nil => simpa [pushDedup] using ht
  | cons a ms ih =>
    simp only [pushDedup]
    have hms : ∀ m ∈ ms, m.mode ≠ .union := fun m hm => h m (List.mem_cons_of_mem _ hm)
    split
    · exact List.forall_mem_cons.mpr ⟨h a List.mem_cons_self, hms⟩
    · exact List.forall_mem_cons.mpr ⟨h a List.mem_cons_self, ih hms⟩

theorem mode_of_mem_foldl_pushDedup {ts ms : List RType} (ht : ∀ t ∈ ts, t.mode ≠ .union)
    (hms : ∀ m ∈ ms, m.mode ≠ .union) : ∀ m ∈ ts.foldl pushDedup ms, m.mode ≠ .union := by
  induction ts generalizing ms with
  | nil => exact hms
  | cons t ts ih =>
    exact ih (fun t h => ht t (List.mem_cons_of_mem _ h))
      (mode_of_mem_pushDedup hms (ht t List.mem_cons_self))

theorem plainUnion_ofMembers {ms : List RType} (h : ∀ m ∈ ms, m.mode ≠ .union) :
    (ofMembers ms).PlainUnion := by
  match ms with
  | [] => exact nofun
  | [m] => exact fun hm => absurd hm (h m List.mem_cons_self)
  | m :: m' :: ms => exact fun _ => ⟨rfl, h⟩

/-- Joins of plain unions are plain unions. -/
theorem PlainUnion.join {a b : RType} (ha : a.PlainUnion) (hb : b.PlainUnion) :
    (a.join b).PlainUnion := by
  have hmark : ∀ {t : RType} (proxy : Bool), t.PlainUnion →
      { t with cls := { t.cls with storageProxy := proxy } }.PlainUnion := fun _ h hmode =>
    h hmode
  simp only [RType.join]
  split
  · exact nofun
  · split
    · exact hmark _ ha
    · split
      · exact hmark _ (ha.mergeSameShape b)
      · unfold unionOf
        simp only
        split
        · exact nofun
        · refine plainUnion_ofMembers (mode_of_mem_foldl_pushDedup ?_ (by simp))
          exact List.forall_mem_append.mpr ⟨ha.mode_alternatives, hb.mode_alternatives⟩

/-- `structure(if (p) 1L else "a", class = "foo")`: the class sits on the union. -/
def classedUnion : RType :=
  ((scalar .integer).join (scalar .character)).withClass (.single "foo")

/-- `structure(1L, class = "foo")` -/
def classedInteger : RValue := ⟨.integer, 1, ["foo"], [], []⟩

end RType

end Ry
