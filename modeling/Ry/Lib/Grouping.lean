import Mathlib.Data.List.Induction
import Mathlib.Order.Lattice
import Mathlib.Tactic.Common

/-! # Grouping by key

A map from keys to lists, kept in the order of the keys.  `updateGroup` changes the list of one key,
from the empty list if there is none, and `grouped` goes through pairs of a key and a value.  Every
key then has what its own values come to, in the order in which they came (`mem_grouped`).
-/

section Grouping

variable {K V : Type} [LinearOrder K]

def updateGroup (key : K) (f : List V → List V) : List (K × List V) → List (K × List V)
  | [] => [(key, f [])]
  | (k, values) :: groups =>
    if key < k then (key, f []) :: (k, values) :: groups
    else if key = k then (k, f values) :: groups
    else (k, values) :: updateGroup key f groups

section

-- The equations of this function, derived once for the proofs that rewrite by them
attribute [local simp] updateGroup

end

def SortedByKey (groups : List (K × List V)) : Prop := groups.Pairwise fun a b => a.1 < b.1

/-- The values of a key, in order. -/
def valuesOf (key : K) (pairs : List (K × V)) : List V :=
  (pairs.filter fun pair => pair.1 = key).map (·.2)

def grouped (push : List V → V → List V) (pairs : List (K × V)) : List (K × List V) :=
  pairs.foldl (fun groups pair => updateGroup pair.1 (push · pair.2) groups) []

theorem fst_of_mem_updateGroup {key : K} {f : List V → List V} {groups : List (K × List V)}
    {entry : K × List V} (h : entry ∈ updateGroup key f groups) :
    entry.1 = key ∨ ∃ values, (entry.1, values) ∈ groups := by
  induction groups with
  | nil => exact .inl (congrArg Prod.fst (List.mem_singleton.mp h))
  | cons group groups ih =>
    obtain ⟨k, values⟩ := group
    rw [updateGroup] at h
    split at h
    · rcases List.mem_cons.mp h with rfl | h
      · exact .inl rfl
      · exact .inr ⟨entry.2, h⟩
    · split at h
      next hk =>
        rcases List.mem_cons.mp h with rfl | h
        · exact .inl hk.symm
        · exact .inr ⟨entry.2, List.mem_cons_of_mem _ h⟩
      next =>
        rcases List.mem_cons.mp h with rfl | h
        · exact .inr ⟨values, List.mem_cons_self⟩
        · obtain hkey | ⟨values, hmem⟩ := ih h
          · exact .inl hkey
          · exact .inr ⟨values, List.mem_cons_of_mem _ hmem⟩

theorem sorted_updateGroup (key : K) (f : List V → List V) {groups : List (K × List V)}
    (h : SortedByKey groups) : SortedByKey (updateGroup key f groups) := by
  induction groups with
  | nil => exact List.pairwise_singleton _ _
  | cons group groups ih =>
    obtain ⟨k, values⟩ := group
    obtain ⟨hk, hgroups⟩ := List.pairwise_cons.mp h
    rw [updateGroup]
    split
    next hlt =>
      refine List.pairwise_cons.mpr ⟨List.forall_mem_cons.mpr ⟨hlt, fun b hb => ?_⟩, h⟩
      exact hlt.trans (hk b hb)
    next hnot =>
      split
      next => exact List.pairwise_cons.mpr ⟨hk, hgroups⟩
      next hne =>
        refine List.pairwise_cons.mpr ⟨fun b hb => ?_, ih hgroups⟩
        rcases fst_of_mem_updateGroup hb with hkey | ⟨values', hmem⟩
        · show k < b.1
          rw [hkey]
          exact lt_of_le_of_ne (not_lt.mp hnot) (Ne.symm hne)
        · exact hk (b.1, values') hmem

/-- The other keys keep their lists. -/
theorem mem_updateGroup_of_ne {key k : K} (hne : k ≠ key) (f : List V → List V)
    (groups : List (K × List V)) (values : List V) :
    (k, values) ∈ updateGroup key f groups ↔ (k, values) ∈ groups := by
  induction groups with
  | nil =>
    refine iff_of_false (fun h => ?_) List.not_mem_nil
    exact hne (congrArg Prod.fst (List.mem_singleton.mp h))
  | cons group groups ih =>
    obtain ⟨k', values'⟩ := group
    have hhead : ∀ vs, (k, values) ≠ (key, vs) := fun vs heq => hne (congrArg Prod.fst heq)
    rw [updateGroup]
    split
    · rw [List.mem_cons, or_iff_right (hhead _)]
    · split
      next hk =>
        subst hk
        rw [List.mem_cons, List.mem_cons, or_iff_right (hhead _), or_iff_right (hhead _)]
      next => rw [List.mem_cons, List.mem_cons, ih]

/-- The key itself has what it had, changed. -/
theorem mem_updateGroup_self {key : K} {f : List V → List V} {groups : List (K × List V)}
    (h : SortedByKey groups) (values : List V) :
    (key, values) ∈ updateGroup key f groups ↔
      (∃ old, (key, old) ∈ groups ∧ values = f old) ∨
        (∀ old, (key, old) ∉ groups) ∧ values = f [] := by
  have hsnd : ∀ {vs vs' : List V} {k : K}, (k, vs) = (k, vs') ↔ vs = vs' := by simp
  induction groups with
  | nil =>
    rw [updateGroup, List.mem_singleton, hsnd]
    exact ⟨fun heq => .inr ⟨fun _ => List.not_mem_nil, heq⟩,
      fun hor => hor.elim (fun ⟨_, hmem, _⟩ => absurd hmem List.not_mem_nil) And.right⟩
  | cons group groups ih =>
    obtain ⟨k, values'⟩ := group
    obtain ⟨hk, hgroups⟩ := List.pairwise_cons.mp h
    -- a key up to the first has no list after it
    have hnone : key ≤ k → ∀ old, (key, old) ∉ groups := fun hle old hmem =>
      absurd (hk _ hmem) (not_lt.mpr hle)
    rw [updateGroup]
    split
    next hlt =>
      have hne : ∀ old, (key, old) ∉ (k, values') :: groups := by
        intro old hmem
        rcases List.mem_cons.mp hmem with heq | hmem
        · exact hlt.ne (congrArg Prod.fst heq)
        · exact hnone hlt.le old hmem
      rw [List.mem_cons, hsnd, or_iff_left (hne values)]
      exact ⟨fun heq => .inr ⟨hne, heq⟩,
        fun hor => hor.elim (fun ⟨old, hmem, _⟩ => absurd hmem (hne old)) And.right⟩
    next hnot =>
      split
      next heq =>
        subst heq
        rw [List.mem_cons, hsnd, or_iff_left (hnone (le_refl _) values)]
        constructor
        · exact fun heq => .inl ⟨values', List.mem_cons_self, heq⟩
        · rintro (⟨old, hmem, rfl⟩ | ⟨hnot, -⟩)
          · rcases List.mem_cons.mp hmem with heq | hmem
            · rw [hsnd.mp heq]
            · exact absurd hmem (hnone (le_refl _) old)
          · exact absurd List.mem_cons_self (hnot values')
      next hne =>
        have hiff : ∀ old, (key, old) ∈ (k, values') :: groups ↔ (key, old) ∈ groups := by
          intro old
          rw [List.mem_cons]
          exact or_iff_right fun heq => hne (congrArg Prod.fst heq)
        simp only [hiff]
        exact (List.mem_cons.trans (or_iff_right fun heq => hne (congrArg Prod.fst heq))).trans
          (ih hgroups)

theorem valuesOf_concat (key : K) (pairs : List (K × V)) (pair : K × V) :
    valuesOf key (pairs ++ [pair]) =
      valuesOf key pairs ++ if pair.1 = key then [pair.2] else [] := by
  rw [valuesOf, List.filter_append, List.map_append, List.filter_cons, List.filter_nil]
  by_cases hkey : pair.1 = key
  · rw [if_pos (decide_eq_true hkey), if_pos hkey]
    rfl
  · rw [if_neg (by simpa using hkey), if_neg hkey]
    rfl

theorem grouped_concat (push : List V → V → List V) (pairs : List (K × V)) (pair : K × V) :
    grouped push (pairs ++ [pair]) =
      updateGroup pair.1 (push · pair.2) (grouped push pairs) := by
  rw [grouped, List.foldl_append]
  rfl

theorem sorted_grouped (push : List V → V → List V) (pairs : List (K × V)) :
    SortedByKey (grouped push pairs) := by
  induction pairs using List.reverseRecOn with
  | nil => exact List.Pairwise.nil
  | append_singleton pairs pair ih =>
    rw [grouped_concat]
    exact sorted_updateGroup _ _ ih

/-- The lists of the map. -/
theorem mem_grouped (push : List V → V → List V) (pairs : List (K × V)) (key : K)
    (values : List V) : (key, values) ∈ grouped push pairs ↔
      valuesOf key pairs ≠ [] ∧ values = (valuesOf key pairs).foldl push [] := by
  induction pairs using List.reverseRecOn generalizing values with
  | nil => simp [grouped, valuesOf]
  | append_singleton pairs pair ih =>
    rw [grouped_concat, valuesOf_concat]
    by_cases hkey : pair.1 = key
    · rw [if_pos hkey, ← hkey, mem_updateGroup_self (sorted_grouped push pairs), hkey,
        List.foldl_append]
      simp only [ih]
      constructor
      · rintro (⟨old, ⟨-, rfl⟩, rfl⟩ | ⟨hnone, rfl⟩)
        · exact ⟨List.concat_ne_nil _ _, rfl⟩
        · by_cases hnil : valuesOf key pairs = []
          · rw [hnil]
            exact ⟨List.concat_ne_nil _ _, rfl⟩
          · exact absurd ⟨hnil, rfl⟩ (hnone _)
      · rintro ⟨-, rfl⟩
        by_cases hnil : valuesOf key pairs = []
        · rw [hnil]
          exact .inr ⟨fun old hold => hold.1 rfl, rfl⟩
        · exact .inl ⟨_, ⟨hnil, rfl⟩, rfl⟩
    · rw [if_neg hkey, List.append_nil, mem_updateGroup_of_ne (Ne.symm hkey), ih]

/-- The values of a key among what some entries come to. -/
theorem valuesOf_filterMap {A : Type} {key : K} {entries : List A} {read : A → Option (K × V)}
    {owned : A → Prop} [DecidablePred owned] {value : A → V}
    (h : ∀ entry ∈ entries, ∀ v, read entry = some (key, v) ↔ owned entry ∧ v = value entry) :
    valuesOf key (entries.filterMap read) = (entries.filter fun entry => owned entry).map value := by
  induction entries with
  | nil => rfl
  | cons entry entries ih =>
    obtain ⟨hentry, hentries⟩ := List.forall_mem_cons.mp h
    have ih := ih hentries
    rw [valuesOf] at ih ⊢
    rw [List.filterMap_cons, List.filter_cons]
    by_cases howned : owned entry
    · rw [(hentry _).mpr ⟨howned, rfl⟩, if_pos (decide_eq_true howned), List.map_cons, ← ih,
        List.filter_cons, if_pos (decide_eq_true rfl), List.map_cons]
    · rw [if_neg (by simpa using howned), ← ih]
      cases hread : read entry with
      | none => rfl
      | some pair =>
        have hkey : pair.1 ≠ key := fun hkey =>
          howned ((hentry pair.2).mp (by rw [hread, ← hkey])).1
        dsimp only
        rw [List.filter_cons, if_neg (by simpa using hkey)]

theorem filter_flatMap_of_not_mem {R : Type} {groups : List (K × List V)}
    {make : K × List V → List R} {keyOf : R → K}
    (hkey : ∀ group ∈ groups, ∀ r ∈ make group, keyOf r = group.1) {key : K}
    (hnone : ∀ group ∈ groups, group.1 ≠ key) :
    (groups.flatMap make).filter (fun r => keyOf r = key) = [] := by
  refine List.filter_eq_nil_iff.mpr fun r hr hr' => ?_
  obtain ⟨group, hgroup, hr⟩ := List.mem_flatMap.mp hr
  exact hnone group hgroup ((hkey group hgroup r hr).symm.trans (of_decide_eq_true hr'))

/-- What is made of the groups, kept by key: what the group of the key makes. -/
theorem filter_flatMap_of_mem {R : Type} {groups : List (K × List V)} (h : SortedByKey groups)
    {make : K × List V → List R} {keyOf : R → K}
    (hkey : ∀ group ∈ groups, ∀ r ∈ make group, keyOf r = group.1) {group : K × List V}
    (hgroup : group ∈ groups) :
    (groups.flatMap make).filter (fun r => keyOf r = group.1) = make group := by
  have hall : ∀ {group : K × List V}, (∀ r ∈ make group, keyOf r = group.1) →
      (make group).filter (fun r => keyOf r = group.1) = make group :=
    fun hmake => List.filter_eq_self.mpr fun r hr => decide_eq_true (hmake r hr)
  induction groups with
  | nil => exact absurd hgroup List.not_mem_nil
  | cons first groups ih =>
    obtain ⟨hfirst, hgroups⟩ := List.pairwise_cons.mp h
    obtain ⟨hmake, hrest⟩ := List.forall_mem_cons.mp hkey
    rw [List.flatMap_cons, List.filter_append]
    rcases List.mem_cons.mp hgroup with rfl | hmem
    · rw [hall hmake, filter_flatMap_of_not_mem hrest fun other hother =>
        (hfirst other hother).ne', List.append_nil]
    · rw [ih hgroups hrest hmem]
      have hskip : (make first).filter (fun r => keyOf r = group.1) = [] :=
        List.filter_eq_nil_iff.mpr fun r hr hr' =>
          (hfirst group hmem).ne ((hmake r hr).symm.trans (of_decide_eq_true hr'))
      rw [hskip, List.nil_append]

/-- Pushing onto a list that is short enough keeps the first values. -/
theorem foldl_push_upTo (limit : Nat) (values : List V) :
    values.foldl (fun kept value => if kept.length ≤ limit then kept ++ [value] else kept) [] =
      values.take (limit + 1) := by
  induction values using List.reverseRecOn with
  | nil => rfl
  | append_singleton values value ih =>
    rw [List.foldl_append, ih, List.foldl_cons, List.foldl_nil, List.length_take]
    by_cases hlen : values.length ≤ limit
    · rw [if_pos (by omega), List.take_of_length_le (by omega), List.take_of_length_le (by simp; omega)]
    · rw [if_neg (by omega), List.take_append_of_le_length (by omega)]

/-- Pushing onto any list keeps every value. -/
theorem foldl_push (values : List V) :
    values.foldl (fun kept value => kept ++ [value]) [] = values := by
  induction values using List.reverseRecOn with
  | nil => rfl
  | append_singleton values value ih =>
    rw [List.foldl_append, ih]
    rfl

/-- The values with a key of their own. -/
theorem valuesOf_map (key : K) (keyOf : V → K) (values : List V) :
    valuesOf key (values.map fun value => (keyOf value, value)) =
      values.filter fun value => keyOf value = key := by
  rw [valuesOf, List.filter_map, List.map_map]
  exact List.map_id _

end Grouping
