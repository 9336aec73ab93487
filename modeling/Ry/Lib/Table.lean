import Mathlib.Data.Finmap

/-! # Finite tables

A finite map with at most one value for each key, as `Finmap` gives it, with the
few operations a mutable program table needs beyond insertion and removal: `put`
writes an optional value (`none` removes), `retain` keeps the entries a predicate
accepts, `mapValues` rewrites every value in place.

Every table here is extensional: two tables with the same lookups are equal
(`Finmap.ext_lookup`), so a proof about a table is a proof about its lookups.
-/

/-- A finite map from `K` to `V`. -/
abbrev Table (K V : Type) := Finmap (fun _ : K => V)

namespace Table

variable {K V W : Type} [DecidableEq K]

/-- Write `value` under `key`, or remove `key` when `value` is `none`. -/
def put (m : Table K V) (key : K) (value : Option V) : Table K V :=
  match value with
  | some v => m.insert key v
  | none => m.erase key

@[simp] theorem lookup_put_self (m : Table K V) (k : K) (v : Option V) :
    (put m k v).lookup k = v := by
  cases v <;> simp [put]

theorem lookup_put_ne (m : Table K V) {j k : K} (v : Option V) (h : j ≠ k) :
    (put m k v).lookup j = m.lookup j := by
  cases v with
  | none => exact Finmap.lookup_erase_ne h
  | some w => exact Finmap.lookup_insert_of_ne m h

theorem lookup_put (m : Table K V) (j k : K) (v : Option V) :
    (put m k v).lookup j = if j = k then v else m.lookup j := by
  by_cases h : j = k
  · subst h; simp
  · simp [h, lookup_put_ne]

theorem lookup_erase (m : Table K V) (j k : K) :
    (m.erase k).lookup j = if j = k then none else m.lookup j :=
  lookup_put m j k none

theorem lookup_insert (m : Table K V) (j k : K) (v : V) :
    (m.insert k v).lookup j = if j = k then some v else m.lookup j :=
  lookup_put m j k (some v)

/-- Writing back the value a key had undoes any change made at that key alone. -/
theorem put_lookup_of_agree {m m' : Table K V} {k : K}
    (h : ∀ j, j ≠ k → m'.lookup j = m.lookup j) : put m' k (m.lookup k) = m := by
  refine Finmap.ext_lookup fun j => ?_
  by_cases hj : j = k
  · subst hj; simp
  · rw [lookup_put_ne _ _ hj, h j hj]

@[simp] theorem put_insert_lookup (m : Table K V) (k : K) (v : V) :
    put (m.insert k v) k (m.lookup k) = m :=
  put_lookup_of_agree fun _ h => Finmap.lookup_insert_of_ne m h

@[simp] theorem put_erase_lookup (m : Table K V) (k : K) : put (m.erase k) k (m.lookup k) = m :=
  put_lookup_of_agree fun _ h => Finmap.lookup_erase_ne h

@[simp] theorem put_lookup_self (m : Table K V) (k : K) : put m k (m.lookup k) = m :=
  put_lookup_of_agree fun _ _ => rfl

theorem erase_of_lookup_none {m : Table K V} {k : K} (h : m.lookup k = none) :
    m.erase k = m := by
  have hput := put_lookup_self m k
  rwa [h] at hput

/-- Keep the entries `keep` accepts. -/
def retain (m : Table K V) (keep : K → V → Bool) : Table K V :=
  ⟨m.entries.filter fun e => keep e.1 e.2, by
    have hk : (m.entries.filter fun e => keep e.1 e.2).keys ≤ m.entries.keys :=
      Multiset.map_le_map (Multiset.filter_le _ _)
    exact Multiset.nodup_keys.mp (Multiset.nodup_of_le hk (Multiset.nodup_keys.mpr m.nodupKeys))⟩

theorem lookup_eq_some_iff (m : Table K V) (k : K) (v : V) :
    m.lookup k = some v ↔ (⟨k, v⟩ : Sigma fun _ : K => V) ∈ m.entries :=
  Finmap.lookup_eq_some_iff

theorem lookup_retain (m : Table K V) (keep : K → V → Bool) (k : K) :
    (retain m keep).lookup k = (m.lookup k).filter (keep k) := by
  refine Option.ext fun v => ?_
  rw [lookup_eq_some_iff, Option.filter_eq_some_iff, lookup_eq_some_iff]
  exact Multiset.mem_filter

/-- Rewrite every value, keeping the keys. -/
def mapValues (m : Table K V) (f : K → V → W) : Table K W :=
  ⟨m.entries.map fun e => ⟨e.1, f e.1 e.2⟩, by
    have hk : (m.entries.map fun e => (⟨e.1, f e.1 e.2⟩ : Sigma fun _ : K => W)).keys
        = m.entries.keys := by
      simp [Multiset.keys, Multiset.map_map]
    exact Multiset.nodup_keys.mp (hk ▸ Multiset.nodup_keys.mpr m.nodupKeys)⟩

theorem lookup_mapValues (m : Table K V) (f : K → V → W) (k : K) :
    (mapValues m f).lookup k = (m.lookup k).map (f k) := by
  refine Option.ext fun w => ?_
  rw [lookup_eq_some_iff, Option.map_eq_some_iff]
  constructor
  · intro h
    obtain ⟨⟨k', v⟩, hv, he⟩ := Multiset.mem_map.mp h
    obtain ⟨rfl, hw⟩ := Sigma.mk.inj he
    exact ⟨v, (lookup_eq_some_iff m k' v).mpr hv, eq_of_heq hw⟩
  · rintro ⟨v, hv, rfl⟩
    exact Multiset.mem_map.mpr ⟨⟨k, v⟩, (lookup_eq_some_iff m k v).mp hv, rfl⟩

theorem mem_keys_iff (m : Table K V) (k : K) : k ∈ m.keys ↔ (m.lookup k).isSome := by
  rw [Finmap.mem_keys, Finmap.lookup_isSome]

theorem lookup_eq_none_of_not_mem_keys {m : Table K V} {k : K} (h : k ∉ m.keys) :
    m.lookup k = none := by
  rw [mem_keys_iff] at h
  simpa using h

theorem keys_insert (m : Table K V) (k : K) (v : V) :
    (m.insert k v).keys = Insert.insert k m.keys := by
  ext j
  rw [mem_keys_iff, Finset.mem_insert, mem_keys_iff, lookup_insert]
  by_cases h : j = k <;> simp [h]

theorem keys_erase (m : Table K V) (k : K) : (m.erase k).keys = m.keys.erase k := by
  ext j
  rw [mem_keys_iff, Finset.mem_erase, mem_keys_iff, lookup_erase]
  by_cases h : j = k <;> simp [h]

theorem keys_mapValues (m : Table K V) (f : K → V → W) : (mapValues m f).keys = m.keys := by
  ext j
  rw [mem_keys_iff, mem_keys_iff, lookup_mapValues, Option.isSome_map]

/-- Add the entries of `later`, which win. -/
def extend (m later : Table K V) : Table K V := later ∪ m

theorem lookup_extend (m later : Table K V) (k : K) :
    (extend m later).lookup k = (later.lookup k).or (m.lookup k) := by
  unfold extend
  by_cases h : k ∈ later
  · obtain ⟨v, hv⟩ := Option.isSome_iff_exists.mp (Finmap.lookup_isSome.mpr h)
    rw [Finmap.lookup_union_left h, hv, Option.some_or]
  · rw [Finmap.lookup_union_right h, Finmap.lookup_eq_none.mpr h, Option.none_or]

def isEmpty (m : Table K V) : Bool := decide (m.keys = ∅)

theorem eq_empty_of_isEmpty {m : Table K V} (h : m.isEmpty = true) : m = ∅ := by
  refine Finmap.ext_lookup fun k => ?_
  rw [Finmap.lookup_empty]
  exact lookup_eq_none_of_not_mem_keys (by simp [of_decide_eq_true h])

end Table
