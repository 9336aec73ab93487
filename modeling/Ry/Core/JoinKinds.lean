import Ry.Core.Evidence
import Mathlib.Data.Finset.Card

/-! # Joining types of several shapes

As long as no two alternatives of the joined types share a shape without being equal, the
join lists their kinds (`JoinSpec`): the equal types themselves, else the union with one
alternative of each kind, else the unknown type where the kinds are too many.  Nothing of it
depends on the order.  `JoinSpec.join` is what one join preserves of it.
-/

namespace Ry

namespace Length

/-- The spelling the constructors use: `AtLeast` starts at two. -/
def Canonical (l : Length) : Prop := ∀ n, l = atLeast n → 2 ≤ n

instance (l : Length) : Decidable l.Canonical :=
  match l with
  | atLeast n => decidable_of_iff (2 ≤ n) ⟨fun h _ hm => by cases hm; exact h, fun h => h n rfl⟩
  | zero | one | known _ | unknown | nonempty => isTrue nofun

theorem canonical_lowerBound (n : Nat) : (lowerBound n).Canonical := by
  match n with
  | 0 | 1 => exact nofun
  | n + 2 =>
    intro k hk
    cases hk
    omega

theorem Canonical.join {a : Length} (ha : a.Canonical) (b : Length) : (a.join b).Canonical := by
  unfold Length.join
  split
  · exact ha
  · split
    · exact ha
    · exact canonical_lowerBound _

theorem provenAboveOne_of_minPossible {l : Length} (h : 2 ≤ l.minPossible) :
    l.provenAboveOne = true := by
  cases l <;> simp_all [minPossible, provenAboveOne]
  omega

theorem Canonical.minPossible {l : Length} (hl : l.Canonical) (h : l.provenAboveOne = true) :
    2 ≤ l.minPossible := by
  cases l with
  | known n =>
    have hn : 1 < n := by simpa [provenAboveOne] using h
    exact hn
  | atLeast n => exact hl n rfl
  | zero | one | unknown | nonempty => simp [provenAboveOne] at h

/-- Two spellings of one claim: `One` and `Known(1)` allow the same lengths. -/
def Alike (a b : Length) : Prop := a.exact = b.exact ∧ a.minPossible = b.minPossible

instance (a b : Length) : Decidable (a.Alike b) := by
  unfold Alike
  infer_instance

/-- `l` claims of a value what all of `ls` claim, and no more. -/
def JoinOf (l : Length) (ls : List Length) : Prop :=
  (∀ n, l.exact = some n ↔ ∀ k ∈ ls, k.exact = some n) ∧
    ∀ n, n ≤ l.minPossible ↔ ∀ k ∈ ls, n ≤ k.minPossible

theorem joinOf_singleton (l : Length) : l.JoinOf [l] := by
  simp [JoinOf]

theorem JoinOf.join {a b : Length} {as bs : List Length} (ha : a.JoinOf as) (hb : b.JoinOf bs) :
    (a.join b).JoinOf (as ++ bs) := by
  refine ⟨fun n => ?_, fun n => ?_⟩
  · rw [exact_join, List.forall_mem_append, ← ha.1, ← hb.1]
    split
    · rename_i h
      simp [← h]
    · rename_i h
      refine ⟨nofun, fun hn => absurd (hn.1.trans hn.2.symm) h⟩
  · rw [minPossible_join, List.forall_mem_append, ← ha.2, ← hb.2, le_min_iff]

theorem joinOf_foldl (l : Length) (ls : List Length) : (ls.foldl Length.join l).JoinOf (l :: ls) := by
  have h : ∀ (ls : List Length) {a : Length} {as : List Length}, a.JoinOf as →
      (ls.foldl Length.join a).JoinOf (as ++ ls) := by
    intro ls
    induction ls with
    | nil =>
      intro a as ha
      simpa using ha
    | cons b bs ih =>
      intro a as ha
      have hrest := ih (ha.join (joinOf_singleton b))
      rwa [List.append_assoc] at hrest
  exact h ls (joinOf_singleton l)

theorem JoinOf.of_mem_iff {l : Length} {ks ls : List Length} (h : l.JoinOf ks)
    (hmem : ∀ k, k ∈ ks ↔ k ∈ ls) : l.JoinOf ls := by
  simpa only [JoinOf, hmem] using h

theorem JoinOf.alike {a b : Length} {ls : List Length} (ha : a.JoinOf ls) (hb : b.JoinOf ls) :
    a.Alike b := by
  refine ⟨Option.ext fun n => (ha.1 n).trans (hb.1 n).symm, ?_⟩
  have hab := (hb.2 a.minPossible).mpr ((ha.2 _).mp le_rfl)
  have hba := (ha.2 b.minPossible).mpr ((hb.2 _).mp le_rfl)
  omega

end Length

namespace RType

/-! ## Kinds -/

/-- Types up to the source's `==`. -/
def eqSetoid : Setoid RType := ⟨fun a b => a.eq b = true, eq_refl, eq_symm, eq_trans⟩

def Kind : Type := Quotient eqSetoid

instance : DecidableEq Kind :=
  @Quotient.decidableEq _ eqSetoid fun a b => inferInstanceAs (Decidable (a.eq b = true))

def kind (t : RType) : Kind := Quotient.mk eqSetoid t

theorem kind_eq_iff {a b : RType} : a.kind = b.kind ↔ a.eq b = true :=
  ⟨Quotient.exact (s := eqSetoid), Quotient.sound (s := eqSetoid)⟩

def kinds (ts : List RType) : Finset Kind := (ts.map kind).toFinset

theorem mem_kinds {k : Kind} {ts : List RType} : k ∈ kinds ts ↔ ∃ t ∈ ts, t.kind = k := by
  simp [kinds]

theorem kinds_append (ts us : List RType) : kinds (ts ++ us) = kinds ts ∪ kinds us := by
  simp [kinds]

theorem exists_eq_of_kinds {ts us : List RType} (h : kinds ts = kinds us) :
    ∀ t ∈ ts, ∃ u ∈ us, t.eq u = true := by
  intro t ht
  obtain ⟨u, hu, hk⟩ := mem_kinds.mp (h ▸ mem_kinds.mpr ⟨t, ht, rfl⟩)
  exact ⟨u, hu, kind_eq_iff.mp hk.symm⟩

theorem map_kind_of_forall₂ {ts us : List RType}
    (h : List.Forall₂ (fun t u => t.eq u = true) ts us) : ts.map kind = us.map kind := by
  induction h with
  | nil => rfl
  | cons htu _ ih => rw [List.map_cons, List.map_cons, ih, kind_eq_iff.mpr htu]

/-- Pushing adds a kind, or nothing. -/
theorem map_kind_pushDedup (ms : List RType) (t : RType) :
    (pushDedup ms t).map kind =
      if t.kind ∈ ms.map kind then ms.map kind else ms.map kind ++ [t.kind] := by
  induction ms with
  | nil => rfl
  | cons m ms ih =>
    simp only [pushDedup]
    split
    · rename_i hm
      rw [if_pos (by simp [kind_eq_iff.mpr hm])]
      exact congrArg (· :: _) (kind_eq_iff.mpr (eq_proxy m _))
    · rename_i hm
      have hne : t.kind ≠ m.kind := fun h => hm (kind_eq_iff.mp h.symm)
      rw [List.map_cons, ih, List.map_cons]
      by_cases hmem : t.kind ∈ ms.map kind
      · rw [if_pos hmem, if_pos (List.mem_cons_of_mem _ hmem)]
      · rw [if_neg hmem, if_neg (by simpa [hne] using hmem)]
        rfl

theorem kinds_pushDedup (ms : List RType) (t : RType) :
    kinds (pushDedup ms t) = insert t.kind (kinds ms) := by
  unfold kinds
  rw [map_kind_pushDedup]
  split
  · rename_i h
    rw [Finset.insert_eq_of_mem (List.mem_toFinset.mpr h)]
  · ext k
    simp

theorem nodup_pushDedup {ms : List RType} (h : (ms.map kind).Nodup) (t : RType) :
    ((pushDedup ms t).map kind).Nodup := by
  rw [map_kind_pushDedup]
  split
  · exact h
  · rename_i ht
    exact List.nodup_append.mpr ⟨h, by simp, by simpa using fun m hm hk => ht (by simp_all)⟩

/-- The alternatives without repetition. -/
def distinct (ts : List RType) : List RType := ts.foldl pushDedup []

theorem foldl_pushDedup_spec (ts ms : List RType) (h : (ms.map kind).Nodup) :
    kinds (ts.foldl pushDedup ms) = kinds ms ∪ kinds ts ∧
      ((ts.foldl pushDedup ms).map kind).Nodup := by
  induction ts generalizing ms with
  | nil => exact ⟨by simp [kinds], h⟩
  | cons t ts ih =>
    obtain ⟨hkinds, hnodup⟩ := ih (pushDedup ms t) (nodup_pushDedup h t)
    refine ⟨?_, hnodup⟩
    rw [List.foldl_cons, hkinds, kinds_pushDedup]
    ext k
    simp [kinds]

theorem kinds_distinct (ts : List RType) : kinds (distinct ts) = kinds ts := by
  simpa [distinct, kinds] using (foldl_pushDedup_spec ts [] .nil).1

theorem nodup_distinct (ts : List RType) : ((distinct ts).map kind).Nodup :=
  (foldl_pushDedup_spec ts [] .nil).2

theorem length_distinct (ts : List RType) : (distinct ts).length = (kinds ts).card := by
  rw [← kinds_distinct, kinds, List.toFinset_card_of_nodup (nodup_distinct ts), List.length_map]

theorem joinOf_of_kinds {l : Length} {ts us : List RType} (h : kinds ts = kinds us)
    (hl : l.JoinOf (ts.map length)) : l.JoinOf (us.map length) := by
  have hlength : ∀ {ts us : List RType}, kinds ts = kinds us →
      ∀ k ∈ ts.map length, k ∈ us.map length := by
    intro ts us h k hk
    obtain ⟨t, ht, rfl⟩ := List.mem_map.mp hk
    obtain ⟨u, hu, htu⟩ := exists_eq_of_kinds h t ht
    exact List.mem_map.mpr ⟨u, hu, ((agree_iff true t u).mp htu).2.1.symm⟩
  exact hl.of_mem_iff fun k => ⟨hlength h k, hlength h.symm k⟩

/-! ## The types the checker builds -/

/-- A union is built over two or more different members and claims nothing beside them:
its length is what theirs join to, and it has no schema, signature or evidence of its own.
Its class may be any. -/
structure Regular (t : RType) : Prop where
  canonical : t.length.Canonical
  members : t.mode = .union → ∃ ms, t.members = some ms ∧ 2 ≤ ms.length ∧ (ms.map kind).Nodup ∧
    (∀ m ∈ ms, m.mode ≠ .union ∧ m.length.Canonical) ∧ t.length.JoinOf (ms.map length)
  plain : t.mode = .union → t.columns = none ∧ t.fnSig = none ∧ t.valueFacts = .default

theorem alternatives_of_union {t : RType} {ms : List RType} (ht : t.mode = .union)
    (hms : t.members = some ms) : alternatives t = ms := by
  simp [alternatives, ht, hms]

theorem alternatives_of_not_union {t : RType} (ht : t.mode ≠ .union) : alternatives t = [t] :=
  if_neg ht

/-- A type's length is what its alternatives' lengths join to. -/
theorem Regular.joinOf {t : RType} (h : t.Regular) :
    t.length.JoinOf ((alternatives t).map length) := by
  by_cases ht : t.mode = .union
  · obtain ⟨ms, hms, -, -, -, hlength⟩ := h.members ht
    rwa [alternatives_of_union ht hms]
  · rw [alternatives_of_not_union ht]
    exact Length.joinOf_singleton _

/-- A union has alternatives of two kinds. -/
theorem Regular.not_union {t : RType} (h : t.Regular)
    (hone : (kinds (alternatives t)).card ≤ 1) : t.mode ≠ .union := by
  intro ht
  obtain ⟨ms, hms, htwo, hnodup, -⟩ := h.members ht
  rw [alternatives_of_union ht hms, kinds, List.toFinset_card_of_nodup hnodup,
    List.length_map] at hone
  omega

theorem forall₂_alternatives {facts : Bool} {a b : RType} (h : agree facts a b = true) :
    List.Forall₂ (fun m n => agree facts m n = true) (alternatives a) (alternatives b) := by
  obtain ⟨hmode, -, -, -, -, hmembers, -⟩ := (agree_iff facts a b).mp h
  unfold alternatives
  by_cases ha : a.mode = .union
  · rw [if_pos ha, if_pos (hmode ▸ ha)]
    rcases hs : a.members with _ | ms <;> rcases hs' : b.members with _ | ms' <;> simp_all
  · rw [if_neg ha, if_neg (hmode ▸ ha)]
    exact .cons h .nil

theorem kinds_alternatives_of_eq {a b : RType} (h : a.eq b = true) :
    kinds (alternatives a) = kinds (alternatives b) := by
  unfold kinds
  rw [map_kind_of_forall₂ (forall₂_alternatives h)]

/-- The union of `ms` as the checked constructor builds it. -/
structure FreshUnion (r : RType) (ms : List RType) : Prop where
  mode : r.mode = .union
  length : r.length.JoinOf (ms.map RType.length)
  cls : r.cls.eq .empty = true
  plain : r.columns = none ∧ r.fnSig = none ∧ r.valueFacts = .default
  members : r.members = some ms
  distinct : (ms.map kind).Nodup

theorem freshUnion_ofMembers {ms : List RType} (htwo : 2 ≤ ms.length)
    (hnodup : (ms.map kind).Nodup) : FreshUnion (ofMembers ms) ms := by
  match ms, htwo with
  | m :: n :: ms, _ =>
    exact ⟨rfl, Length.joinOf_foldl _ _, rfl, ⟨rfl, rfl, rfl⟩, rfl, hnodup⟩

theorem FreshUnion.congr {r r' : RType} {ms : List RType} (h : FreshUnion r ms)
    (hr : r.eq r' = true) : ∃ ms', FreshUnion r' ms' ∧ kinds ms' = kinds ms := by
  obtain ⟨hmode, hlength, hcls, hcolumns, hsig, hmembers, hfacts⟩ := (agree_iff true r r').mp hr
  rw [h.members] at hmembers
  rw [h.plain.1] at hcolumns
  rw [h.plain.2.1] at hsig
  cases hms : r'.members with
  | none => simp [hms] at hmembers
  | some ms' =>
    rw [hms, rel_some_some] at hmembers
    have hkinds : ms.map kind = ms'.map kind := map_kind_of_forall₂ hmembers
    have hset : kinds ms = kinds ms' := congrArg List.toFinset hkinds
    refine ⟨ms', ⟨hmode ▸ h.mode, ?_, ?_, ⟨?_, ?_, ?_⟩, hms, hkinds ▸ h.distinct⟩, hset.symm⟩
    · exact hlength ▸ joinOf_of_kinds hset h.length
    · rw [ClassVector.eq_iff] at hcls ⊢
      have hempty := (ClassVector.eq_iff _ _).mp h.cls
      exact ⟨hcls.1.symm.trans hempty.1, hcls.2.1.symm.trans hempty.2.1,
        hcls.2.2.symm.trans hempty.2.2⟩
    · cases hc : r'.columns with
      | none => rfl
      | some s => simp [hc] at hcolumns
    · cases hc : r'.fnSig with
      | none => rfl
      | some s => simp [hc] at hsig
    · exact (hfacts rfl).symm.trans h.plain.2.2

/-! ## Several shapes -/

def alternativesOf (ts : List RType) : List RType := ts.flatMap alternatives

@[simp] theorem alternativesOf_append (ts us : List RType) :
    alternativesOf (ts ++ us) = alternativesOf ts ++ alternativesOf us :=
  List.flatMap_append

theorem mem_alternativesOf {m : RType} {ts : List RType} :
    m ∈ alternativesOf ts ↔ ∃ t ∈ ts, m ∈ alternatives t :=
  List.mem_flatMap

def Known (ts : List RType) : Prop := ∀ t ∈ ts, t.mode.isUnknown = false

/-- No two alternatives share a shape without being equal. -/
def Separate (ts : List RType) : Prop :=
  ∀ m ∈ alternativesOf ts, ∀ n ∈ alternativesOf ts, m.sameShape n = true → m.eq n = true

theorem alternativesOf_subset {ts us : List RType} (h : ts ⊆ us) :
    alternativesOf ts ⊆ alternativesOf us := by
  intro m hm
  obtain ⟨t, ht, hmt⟩ := mem_alternativesOf.mp hm
  exact mem_alternativesOf.mpr ⟨t, h ht, hmt⟩

theorem kinds_subset {ts us : List RType} (h : ts ⊆ us) : kinds ts ⊆ kinds us := by
  intro k hk
  obtain ⟨t, ht, hkt⟩ := mem_kinds.mp hk
  exact mem_kinds.mpr ⟨t, h ht, hkt⟩

theorem Separate.mono {ts us : List RType} (h : Separate us) (hsub : ts ⊆ us) : Separate ts :=
  fun m hm n hn => h m (alternativesOf_subset hsub hm) n (alternativesOf_subset hsub hn)

def Uniform (ts : List RType) : Prop := ∀ t ∈ ts, ∀ u ∈ ts, t.eq u = true

/-- What joining `ts` gives: one type where they are equal, else the union of the kinds of
their alternatives, or nothing known where these are too many. -/
def JoinSpec (ts : List RType) (r : RType) : Prop :=
  (∀ t ∈ ts, r.eq t = true) ∨
    ¬ Uniform ts ∧
      ((∃ ms, FreshUnion r ms ∧ kinds ms = kinds (alternativesOf ts) ∧
          (kinds (alternativesOf ts)).card ≤ maxUnionMembers) ∨
        (maxUnionMembers < (kinds (alternativesOf ts)).card ∧ r = unknown))

/-- `r` is known, lists the alternatives of `ts` and, as a union, claims nothing more. -/
structure Lists (ts : List RType) (r : RType) : Prop where
  known : r.mode.isUnknown = false
  kinds : kinds (alternatives r) = RType.kinds (alternativesOf ts)
  plain : r.mode = .union → r.columns = none ∧ r.fnSig = none ∧ r.valueFacts = .default

theorem kinds_alternativesOf_of_eq {ts : List RType} {r : RType} (hne : ts ≠ [])
    (h : ∀ t ∈ ts, r.eq t = true) : kinds (alternativesOf ts) = kinds (alternatives r) := by
  ext k
  simp only [mem_kinds, mem_alternativesOf]
  constructor
  · rintro ⟨m, ⟨t, ht, hm⟩, rfl⟩
    have hk := kinds_alternatives_of_eq (h t ht)
    exact mem_kinds.mp (hk ▸ mem_kinds.mpr ⟨m, hm, rfl⟩)
  · rintro ⟨m, hm, rfl⟩
    obtain ⟨t, ht⟩ := List.exists_mem_of_ne_nil _ hne
    have hk := kinds_alternatives_of_eq (h t ht)
    obtain ⟨n, hn, hkn⟩ := mem_kinds.mp (hk ▸ mem_kinds.mpr ⟨m, hm, rfl⟩)
    exact ⟨n, ⟨t, ht, hn⟩, hkn⟩

theorem plain_of_eq {t r : RType} (ht : t.Regular) (h : r.eq t = true) (hr : r.mode = .union) :
    r.columns = none ∧ r.fnSig = none ∧ r.valueFacts = .default := by
  obtain ⟨hmode, -, -, hcolumns, hsig, -, hfacts⟩ := (agree_iff true r t).mp h
  obtain ⟨hc, hs, hf⟩ := ht.plain (hmode ▸ hr)
  rw [hc] at hcolumns
  rw [hs] at hsig
  refine ⟨?_, ?_, (hfacts rfl).trans hf⟩
  · cases hc' : r.columns with
    | none => rfl
    | some s => simp [hc'] at hcolumns
  · cases hs' : r.fnSig with
    | none => rfl
    | some s => simp [hs'] at hsig

theorem JoinSpec.lists {ts : List RType} {r : RType} (h : JoinSpec ts r) (hne : ts ≠ [])
    (hreg : ∀ t ∈ ts, t.Regular) (hknown : Known ts) :
    Lists ts r ∨ ¬ Uniform ts ∧ maxUnionMembers < (kinds (alternativesOf ts)).card ∧
      r = unknown := by
  rcases h with heq | ⟨hmixed, ⟨ms, hfresh, hkinds, -⟩ | ⟨hmany, hr⟩⟩
  · obtain ⟨t, ht⟩ := List.exists_mem_of_ne_nil _ hne
    refine .inl ⟨?_, (kinds_alternativesOf_of_eq hne heq).symm, plain_of_eq (hreg t ht) (heq t ht)⟩
    rw [((agree_iff true r t).mp (heq t ht)).1]
    exact hknown t ht
  · refine .inl ⟨by rw [hfresh.mode]; rfl, ?_, fun _ => hfresh.plain⟩
    rw [alternatives_of_union hfresh.mode hfresh.members, hkinds]
  · exact .inr ⟨hmixed, hmany, hr⟩

/-- Two results of one shape are equal when their alternatives are that share one. -/
theorem eq_of_sameShape {ts us : List RType} {a b : RType} (ha : Lists ts a) (hb : Lists us b)
    (hsep : Separate (ts ++ us)) (h : a.sameShape b = true) : a.eq b = true := by
  have halternatives : ∀ m ∈ alternatives a, ∀ n ∈ alternatives b,
      m.sameShape n = true → m.eq n = true := by
    intro m hm n hn hmn
    obtain ⟨m', hm', hmm⟩ := exists_eq_of_kinds ha.kinds m hm
    obtain ⟨n', hn', hnn⟩ := exists_eq_of_kinds hb.kinds n hn
    have hshape : m'.sameShape n' = true :=
      agree_trans (agree_symm (sameShape_of_eq hmm)) (agree_trans hmn (sameShape_of_eq hnn))
    have heq := hsep m' (by simp [hm']) n' (by simp [hn']) hshape
    exact eq_trans hmm (eq_trans heq (eq_symm hnn))
  obtain ⟨hmode, hlength, hcls, hcolumns, hsig, hmembers, -⟩ := (agree_iff false a b).mp h
  by_cases hu : a.mode = .union
  · obtain ⟨hc, hs, hf⟩ := ha.plain hu
    obtain ⟨hc', hs', hf'⟩ := hb.plain (hmode ▸ hu)
    refine (agree_iff true a b).mpr ⟨hmode, hlength, hcls, by simp [hc, hc'], by simp [hs, hs'],
      ?_, fun _ => hf.trans hf'.symm⟩
    rcases hms : a.members with _ | ms <;> rcases hms' : b.members with _ | ms' <;>
      simp only [hms, hms', rel_some_some, rel_none_none, not_rel_some_none,
        not_rel_none_some] at hmembers ⊢
    rw [alternatives_of_union hu hms, alternatives_of_union (hmode ▸ hu) hms'] at halternatives
    exact List.forall₂_iff_zip.mpr ⟨hmembers.length_eq, fun hz =>
      halternatives _ (List.of_mem_zip hz).1 _ (List.of_mem_zip hz).2
        (List.forall₂_zip hmembers hz)⟩
  · rw [alternatives_of_not_union hu, alternatives_of_not_union (hmode ▸ hu)] at halternatives
    exact halternatives a List.mem_cons_self b List.mem_cons_self h

theorem join_of_eq {a b : RType} (ha : a.mode.isUnknown = false) (h : a.eq b = true) :
    (a.join b).eq a = true := by
  have hmerge := join_of_sameShape ha (sameShape_of_eq h)
  rwa [mergeSameShape_of_eq h] at hmerge

theorem provenAboveOne_unknown_join (l : Length) :
    (Length.unknown.join l).provenAboveOne = false := by
  cases l <;>
    simp [Length.join, Length.exact, Length.minPossible, Length.lowerBound, Length.provenAboveOne]

theorem provenAboveOne_join_unknown (l : Length) :
    (l.join .unknown).provenAboveOne = false := by
  cases l <;>
    simp [Length.join, Length.exact, Length.minPossible, Length.lowerBound, Length.provenAboveOne]

theorem unknown_join (t : RType) : unknown.join t = unknown := by
  simp [join, unknown, Mode.isUnknown, provenAboveOne_unknown_join]

theorem join_unknown (t : RType) : t.join unknown = unknown := by
  simp [join, unknown, Mode.isUnknown, provenAboveOne_join_unknown]

/-- Types that are not all equal have alternatives of two kinds. -/
theorem two_kinds {ts : List RType} (hreg : ∀ t ∈ ts, t.Regular) (h : ¬ Uniform ts) :
    2 ≤ (kinds (alternativesOf ts)).card := by
  by_contra hfew
  refine h fun t ht u hu => ?_
  have hone : (kinds (alternativesOf ts)).card ≤ 1 := by omega
  have halone : ∀ t ∈ ts, t.mode ≠ .union := by
    intro t ht
    have hsub : kinds (alternatives t) ⊆ kinds (alternativesOf ts) :=
      kinds_subset fun m hm => mem_alternativesOf.mpr ⟨t, ht, hm⟩
    exact (hreg t ht).not_union ((Finset.card_le_card hsub).trans hone)
  have hmem : ∀ t ∈ ts, t.kind ∈ kinds (alternativesOf ts) := by
    intro t ht
    refine mem_kinds.mpr ⟨t, mem_alternativesOf.mpr ⟨t, ht, ?_⟩, rfl⟩
    rw [alternatives_of_not_union (halone t ht)]
    exact List.mem_cons_self
  exact kind_eq_iff.mp (Finset.card_le_one.mp hone _ (hmem t ht) _ (hmem u hu))

theorem Uniform.mono {ts us : List RType} (h : Uniform us) (hsub : ts ⊆ us) : Uniform ts :=
  fun t ht u hu => h t (hsub ht) u (hsub hu)

/-- The union of two results' alternatives. -/
theorem unionOf_spec {ts us : List RType} {a b : RType} (ha : Lists ts a) (hb : Lists us b)
    (htwo : 2 ≤ (kinds (alternativesOf (ts ++ us))).card) :
    (∃ ms, FreshUnion (unionOf a b) ms ∧ kinds ms = kinds (alternativesOf (ts ++ us)) ∧
        (kinds (alternativesOf (ts ++ us))).card ≤ maxUnionMembers) ∨
      maxUnionMembers < (kinds (alternativesOf (ts ++ us))).card ∧ unionOf a b = unknown := by
  have hkinds : kinds (distinctAlternatives a b) = kinds (alternativesOf (ts ++ us)) := by
    rw [alternativesOf_append, kinds_append, ← ha.kinds, ← hb.kinds, ← kinds_append]
    exact kinds_distinct _
  have hlength : (distinctAlternatives a b).length = (kinds (alternativesOf (ts ++ us))).card := by
    rw [← hkinds]
    exact (length_distinct _).trans (congrArg Finset.card (kinds_distinct _)).symm
  rcases Nat.lt_or_ge maxUnionMembers (distinctAlternatives a b).length with hmany | hfew
  · exact .inr ⟨hlength ▸ hmany, unionOf_eq_unknown hmany⟩
  · refine .inl ⟨distinctAlternatives a b, ?_, hkinds, hlength ▸ hfew⟩
    rw [unionOf_eq_ofMembers hfew]
    exact freshUnion_ofMembers (hlength ▸ htwo) (nodup_distinct _)

/-- What joining two lists' results gives is what joining the lists together does. -/
theorem JoinSpec.join {ts us : List RType} {a b : RType} (hts : ts ≠ []) (hus : us ≠ [])
    (hreg : ∀ t ∈ ts ++ us, t.Regular) (hknown : Known (ts ++ us)) (hsep : Separate (ts ++ us))
    (ha : JoinSpec ts a) (hb : JoinSpec us b) : JoinSpec (ts ++ us) (a.join b) := by
  have hleft := List.subset_append_left ts us
  have hright := List.subset_append_right ts us
  rcases ha.lists hts (fun t ht => hreg t (hleft ht)) (fun t ht => hknown t (hleft ht)) with
    hla | ⟨hmixed, hmany, rfl⟩
  swap
  · refine .inr ⟨fun h => hmixed (h.mono hleft), .inr ⟨hmany.trans_le ?_, unknown_join b⟩⟩
    exact Finset.card_le_card (kinds_subset (alternativesOf_subset hleft))
  rcases hb.lists hus (fun t ht => hreg t (hright ht)) (fun t ht => hknown t (hright ht)) with
    hlb | ⟨hmixed, hmany, rfl⟩
  swap
  · refine .inr ⟨fun h => hmixed (h.mono hright), .inr ⟨hmany.trans_le ?_, join_unknown a⟩⟩
    exact Finset.card_le_card (kinds_subset (alternativesOf_subset hright))
  cases heq : a.eq b with
  | true =>
    -- the results are equal, and so are the kinds they list
    have hjoin := join_of_eq hla.known heq
    have hkinds : kinds (alternativesOf ts) = kinds (alternativesOf us) := by
      rw [← hla.kinds, ← hlb.kinds, kinds_alternatives_of_eq heq]
    have hboth : kinds (alternativesOf (ts ++ us)) = kinds (alternativesOf ts) := by
      rw [alternativesOf_append, kinds_append, ← hkinds, Finset.union_self]
    have hfresh : ∀ {c : RType} {ms : List RType}, (a.join b).eq c = true → FreshUnion c ms →
        kinds ms = kinds (alternativesOf ts) →
        (kinds (alternativesOf ts)).card ≤ maxUnionMembers → ¬ Uniform (ts ++ us) →
        JoinSpec (ts ++ us) (a.join b) := by
      intro c ms hc hms hk hcard hmixed
      obtain ⟨ms', hms', hk'⟩ := hms.congr (eq_symm hc)
      exact .inr ⟨hmixed, .inl ⟨ms', hms', by rw [hk', hk, hboth], hboth ▸ hcard⟩⟩
    rcases ha with haeq | ⟨hmixed, ⟨ms, hms, hk, hcard⟩ | ⟨-, rfl⟩⟩
    · rcases hb with hbeq | ⟨hmixed, ⟨ms, hms, hk, hcard⟩ | ⟨-, rfl⟩⟩
      · refine .inl (List.forall_mem_append.mpr ⟨fun t ht => ?_, fun u hu => ?_⟩)
        · exact eq_trans hjoin (haeq t ht)
        · exact eq_trans hjoin (eq_trans heq (hbeq u hu))
      · exact hfresh (eq_trans hjoin heq) hms (hk.trans hkinds.symm) (hkinds ▸ hcard)
          fun h => hmixed (h.mono hright)
      · exact absurd hlb.known (by decide)
    · exact hfresh hjoin hms hk hcard fun h => hmixed (h.mono hleft)
    · exact absurd hla.known (by decide)
  | false =>
    have hshape : a.sameShape b = false := by
      rw [← Bool.not_eq_true] at heq ⊢
      exact fun h => heq (eq_of_sameShape hla hlb hsep h)
    have hmixed : ¬ Uniform (ts ++ us) := by
      intro h
      have haeq := ha.resolve_right fun hn => hn.1 (h.mono hleft)
      have hbeq := hb.resolve_right fun hn => hn.1 (h.mono hright)
      obtain ⟨t, ht⟩ := List.exists_mem_of_ne_nil _ hts
      obtain ⟨u, hu⟩ := List.exists_mem_of_ne_nil _ hus
      have hab := eq_trans (haeq t ht)
        (eq_trans (h t (hleft ht) u (hright hu)) (eq_symm (hbeq u hu)))
      simp [hab] at heq
    rw [join_of_not_sameShape hla.known hlb.known hshape]
    exact .inr ⟨hmixed, unionOf_spec hla hlb (two_kinds hreg hmixed)⟩

end RType
end Ry
