import Ry.Project.Fixpoint

/-! # Settled returns

A return stays settled while nothing its refinement read changes, and whatever changes requeues
its readers.  So a run that ends with nothing pending leaves every active return either equal to
its refinement or widened.
-/

namespace Ry

namespace FixTable

/-- A store sets one slot and reads back up to `==`. -/
theorem read_setReturn (returns : List RType) (slot slot' : Nat) (result : RType) :
    ((setReturn returns slot result)[slot']?).getD .unknown =
      if slot' = slot then result else (returns[slot']?).getD .unknown := by
  unfold setReturn
  split
  · rename_i hslot
    rw [List.getElem?_set]
    by_cases h : slot = slot'
    · subst h; simp [hslot]
    · simp [h, Ne.symm h]
  · rename_i hslot
    by_cases h : slot' = slot
    · subst h
      have hpad : (returns ++ List.replicate (slot' - returns.length) RType.unknown).length =
          slot' := by simp; omega
      rw [if_pos rfl, List.getElem?_append_right (Nat.le_of_eq hpad), hpad, Nat.sub_self]
      rfl
    · rw [if_neg h]
      rcases Nat.lt_or_ge slot' returns.length with hlt | hge
      · rw [List.getElem?_append_left (by simp; omega), List.getElem?_append_left hlt]
      · rw [List.getElem?_eq_none hge]
        rcases Nat.lt_or_ge slot' slot with hs | hs
        · rw [List.getElem?_append_left (by simp; omega), List.getElem?_append_right hge]
          rw [List.getElem?_replicate, if_pos (by omega)]
          rfl
        · rw [List.getElem?_eq_none (by simp; omega)]

/-- The tables agree on all but some slots and the parameters of their functions. -/
structure SameOff (p : Program) (changed : Finset Nat) (t t' : FixTable) : Prop where
  loaded : t'.loaded = t.loaded
  bareLoaded : t'.bareLoaded = t.bareLoaded
  read : ∀ slot ∉ changed, t'.read slot = t.read slot
  uncomputed : ∀ slot ∉ changed, slot ∈ t'.uncomputed ↔ slot ∈ t.uncomputed
  params : ∀ i, p.slot i ∉ changed → t'.params[i]? = t.params[i]?

variable {p : Program}

theorem SameOff.refl (changed : Finset Nat) (t : FixTable) : t.SameOff p changed t :=
  ⟨rfl, rfl, fun _ _ => rfl, fun _ _ => Iff.rfl, fun _ _ => rfl⟩

theorem SameOff.trans {c₁ c₂ : Finset Nat} {t t' t'' : FixTable} (h : t.SameOff p c₁ t')
    (h' : t'.SameOff p c₂ t'') : t.SameOff p (c₁ ∪ c₂) t'' where
  loaded := h'.loaded.trans h.loaded
  bareLoaded := h'.bareLoaded.trans h.bareLoaded
  read slot hslot := by
    rw [Finset.mem_union, not_or] at hslot
    rw [h'.read slot hslot.2, h.read slot hslot.1]
  uncomputed slot hslot := by
    rw [Finset.mem_union, not_or] at hslot
    rw [h'.uncomputed slot hslot.2, h.uncomputed slot hslot.1]
  params i hi := by
    rw [Finset.mem_union, not_or] at hi
    rw [h'.params i hi.2, h.params i hi.1]

theorem params_storeReturn (t : FixTable) (slot : Nat) (result : RType) :
    (t.storeReturn slot result).1.params = t.params := by
  unfold storeReturn
  dsimp only
  split <;> rfl

theorem loaded_storeReturn (t : FixTable) (slot : Nat) (result : RType) :
    (t.storeReturn slot result).1.loaded = t.loaded ∧
      (t.storeReturn slot result).1.bareLoaded = t.bareLoaded := by
  unfold storeReturn
  dsimp only
  split <;> exact ⟨rfl, rfl⟩

theorem read_storeReturn_of_ne (t : FixTable) {slot slot' : Nat} (result : RType)
    (h : slot' ≠ slot) : (t.storeReturn slot result).1.read slot' = t.read slot' := by
  unfold storeReturn
  dsimp only
  split
  · rfl
  · simp only [FixTable.read, read_setReturn, if_neg h]

/-- The stored return is the result up to `==`. -/
theorem read_storeReturn (t : FixTable) (slot : Nat) (result : RType) :
    ((t.storeReturn slot result).1.read slot).eq result = true := by
  unfold storeReturn
  dsimp only
  split
  · rename_i hsame
    rw [Option.any_eq_true] at hsame
    obtain ⟨old, hold, heq⟩ := hsame
    simpa [FixTable.read, hold] using heq
  · simp [FixTable.read, read_setReturn]

theorem storeReturn_of_unchanged (t : FixTable) (slot : Nat) (result : RType)
    (h : (t.storeReturn slot result).2 = false) : (t.storeReturn slot result).1 = t := by
  unfold storeReturn at h ⊢
  dsimp only at h ⊢
  split at h
  · rename_i hsame
    rw [if_pos hsame]
    have hcomputed : slot ∉ t.uncomputed := of_decide_eq_false h
    rw [Finset.erase_eq_of_notMem hcomputed]
  · cases h

theorem SameOff.storeReturn (t : FixTable) (slot : Nat) (result : RType) :
    t.SameOff p (if (t.storeReturn slot result).2 then {slot} else ∅)
      (t.storeReturn slot result).1 := by
  rcases hchanged : (t.storeReturn slot result).2 with _ | _
  · rw [storeReturn_of_unchanged t slot result hchanged]
    exact .refl _ t
  · refine ⟨(loaded_storeReturn t slot result).1, (loaded_storeReturn t slot result).2,
      fun slot' hslot => ?_, fun slot' hslot => ?_, fun i _ => ?_⟩
    · exact read_storeReturn_of_ne t result (by simpa using hslot)
    · rw [uncomputed_storeReturn, Finset.mem_erase]
      simpa using fun _ => show slot' ≠ slot by simpa using hslot
    · rw [params_storeReturn]

end FixTable

namespace FixState

open FixTable

variable {p : Program}

theorem storeUnknowns_cons (t : FixTable) (slot : Nat) (slots : List Nat) :
    storeUnknowns t (slot :: slots) =
      ((storeUnknowns (t.storeReturn slot .unknown).1 slots).1,
        (if (t.storeReturn slot .unknown).2 then {slot} else ∅) ∪
          (storeUnknowns (t.storeReturn slot .unknown).1 slots).2) := by
  have hunfold : ∀ (slots : List Nat) (t : FixTable), storeUnknowns t slots =
      slots.foldl (fun (state : FixTable × Finset Nat) slot =>
        ((state.1.storeReturn slot .unknown).1, if (state.1.storeReturn slot .unknown).2 then
          insert slot state.2 else state.2)) (t, ∅) := fun _ _ => rfl
  have hfold : ∀ (slots : List Nat) (t : FixTable) (changed : Finset Nat),
      slots.foldl (fun (state : FixTable × Finset Nat) slot =>
        ((state.1.storeReturn slot .unknown).1, if (state.1.storeReturn slot .unknown).2 then
          insert slot state.2 else state.2)) (t, changed) =
      ((storeUnknowns t slots).1, changed ∪ (storeUnknowns t slots).2) := by
    intro slots
    induction slots with
    | nil => intro t changed; simp [storeUnknowns]
    | cons slot slots ih =>
      intro t changed
      simp only [hunfold, List.foldl_cons]
      rw [ih, ih]
      refine Prod.ext rfl ?_
      split
      · simp only [Finset.insert_eq, Finset.union_empty, ← Finset.union_assoc]
        rw [Finset.union_comm {slot} changed]
      · simp only [Finset.empty_union]
  rw [hunfold, List.foldl_cons, hfold]
  split <;> simp

theorem SameOff.storeUnknowns (t : FixTable) (slots : List Nat) :
    t.SameOff p (storeUnknowns t slots).2 (storeUnknowns t slots).1 := by
  induction slots generalizing t with
  | nil => exact .refl _ t
  | cons slot slots ih =>
    rw [storeUnknowns_cons]
    exact (SameOff.storeReturn t slot .unknown).trans (ih _)

theorem storeUnknowns_changed (t : FixTable) (slots : List Nat) {slot : Nat}
    (h : slot ∈ (storeUnknowns t slots).2) : slot ∈ slots := by
  induction slots generalizing t with
  | nil => exact absurd h (Finset.notMem_empty _)
  | cons slot' slots ih =>
    rw [storeUnknowns_cons, Finset.mem_union] at h
    rcases h with h | h
    · split at h
      · exact List.mem_cons.mpr (.inl (Finset.mem_singleton.mp h))
      · exact absurd h (Finset.notMem_empty _)
    · exact List.mem_cons_of_mem _ (ih _ h)

theorem params_storeUnknowns (t : FixTable) (slots : List Nat) :
    (storeUnknowns t slots).1.params = t.params := by
  induction slots generalizing t with
  | nil => rfl
  | cons slot slots ih => rw [storeUnknowns_cons, ih, params_storeReturn]

theorem read_storeUnknowns_of_notMem (t : FixTable) (slots : List Nat) {slot : Nat}
    (h : slot ∉ slots) : (storeUnknowns t slots).1.read slot = t.read slot := by
  induction slots generalizing t with
  | nil => rfl
  | cons slot' slots ih =>
    rw [List.mem_cons, not_or] at h
    rw [storeUnknowns_cons, ih _ h.2, read_storeReturn_of_ne t _ h.1]

theorem read_storeUnknowns (t : FixTable) (slots : List Nat) {slot : Nat} (h : slot ∈ slots) :
    ((storeUnknowns t slots).1.read slot).eq .unknown = true := by
  induction slots generalizing t with
  | nil => cases h
  | cons slot' slots ih =>
    rw [storeUnknowns_cons]
    by_cases hmem : slot ∈ slots
    · exact ih _ hmem
    · obtain rfl : slot = slot' := (List.mem_cons.mp h).resolve_right hmem
      rw [read_storeUnknowns_of_notMem _ slots hmem]
      exact read_storeReturn t slot .unknown

end FixState

/-- The tables give a refinement that read some slots the same answers. -/
structure FixTable.SameReads (p : Program) (i : Nat) (reads : List Nat) (t t' : FixTable) : Prop where
  loaded : t'.loaded = t.loaded
  bareLoaded : t'.bareLoaded = t.bareLoaded
  params : t'.params[i]? = t.params[i]?
  read : ∀ slot ∈ reads, t'.read slot = t.read slot
  uncomputed : ∀ slot ∈ reads, slot ∈ t'.uncomputed ↔ slot ∈ t.uncomputed
  ownerParams : ∀ slot ∈ reads, ∀ j ∈ p.owners slot, t'.params[j]? = t.params[j]?

/-- A refinement's result depends only on the slots it reports reading, the parameters and the
attached packages. -/
def Program.DependsOnReads (p : Program) : Prop :=
  ∀ i t t', t.SameReads p i (p.refine t i).reads t' → (p.refine t' i).result = (p.refine t i).result

namespace Program

variable (p : Program)

theorem mem_activeIn_lt {scope : Option (Finset String)} {i : Nat} (h : i ∈ p.activeIn scope) :
    i < p.size := Finset.mem_range.mp (Finset.mem_filter.mp h).1

theorem mem_owners {i : Nat} (h : i < p.size) : i ∈ p.owners (p.slot i) :=
  Finset.mem_filter.mpr ⟨Finset.mem_range.mpr h, rfl⟩

theorem slot_of_mem_owners {i slot : Nat} (h : i ∈ p.owners slot) : p.slot i = slot :=
  (Finset.mem_filter.mp h).2

theorem slot_inj {i j : Nat} (hi : i < p.size) (hj : j < p.size) (h : p.slot i = p.slot j) :
    i = j := by
  have hslot : ∀ k (hk : k < p.size), p.slot k =
      (p.functions.map (·.2)).get ⟨k, by rw [List.length_map]; exact hk⟩ := by
    intro k hk
    have hk' : k < p.functions.length := hk
    simp [slot, hk']
  rw [hslot i hi, hslot j hj] at h
  exact (p.slots_nodup.getElem_inj_iff).mp h

end Program

namespace FixState

open FixTable

variable (p : Program)

/-- The stored return is the last refinement's, nothing it read has changed, and every slot it
read lists it as a reader. -/
def Settled (s : FixState) (i : Nat) : Prop :=
  ∃ t : FixTable, t.SameReads p i (p.refine t i).reads s.table ∧
    (∀ slot ∈ (p.refine t i).reads, i ∈ s.callers slot) ∧
    ∀ result, p.outcome t i = some result →
      p.slot i ∉ s.table.uncomputed ∧ (s.table.read (p.slot i)).eq result

/-- The stored return was widened. -/
def WidenedTo (s : FixState) (i : Nat) : Prop :=
  i ∈ s.widened ∧ p.slot i ∉ s.table.uncomputed ∧ (s.table.read (p.slot i)).eq .unknown

variable {p} {s s' : FixState} {i : Nat} {changed : Finset Nat}

/-- A settled return stays settled unless it is a reader of what changed. -/
theorem Settled.keep (h : Settled p s i) (s' : FixState) (hoff : s.table.SameOff p changed s'.table)
    (hcallers : ∀ slot, s.callers slot ⊆ s'.callers slot)
    (hparams : s'.table.params[i]? = s.table.params[i]?)
    (hown : p.slot i ∉ s.table.uncomputed → p.slot i ∉ s'.table.uncomputed ∧
      s'.table.read (p.slot i) = s.table.read (p.slot i)) :
    Settled p s' i ∨ i ∈ changed.biUnion s'.callers := by
  obtain ⟨t, hsame, hreads, hresult⟩ := h
  by_cases hread : ∃ slot ∈ (p.refine t i).reads, slot ∈ changed
  · obtain ⟨slot, hslot, hc⟩ := hread
    exact .inr (Finset.mem_biUnion.mpr ⟨slot, hc, hcallers slot (hreads slot hslot)⟩)
  · refine .inl ⟨t, ⟨?_, ?_, ?_, fun slot hslot => ?_, fun slot hslot => ?_,
      fun slot hslot j hj => ?_⟩, fun slot hslot => hcallers slot (hreads slot hslot),
      fun result hout => ?_⟩
    · rw [hoff.loaded, hsame.loaded]
    · rw [hoff.bareLoaded, hsame.bareLoaded]
    · rw [hparams, hsame.params]
    · rw [hoff.read slot fun hc => hread ⟨slot, hslot, hc⟩, hsame.read slot hslot]
    · rw [hoff.uncomputed slot fun hc => hread ⟨slot, hslot, hc⟩, hsame.uncomputed slot hslot]
    · have hc : p.slot j ∉ changed := by
        rw [p.slot_of_mem_owners hj]
        exact fun hc => hread ⟨slot, hslot, hc⟩
      rw [hoff.params j hc, hsame.ownerParams slot hslot j hj]
    · obtain ⟨hcomputed, heq⟩ := hresult result hout
      obtain ⟨hcomputed', hsame'⟩ := hown hcomputed
      exact ⟨hcomputed', by rw [hsame']; exact heq⟩

theorem WidenedTo.keep (h : WidenedTo p s i) (s' : FixState) (hwidened : i ∈ s'.widened)
    (hown : p.slot i ∉ s.table.uncomputed → p.slot i ∉ s'.table.uncomputed ∧
      s'.table.read (p.slot i) = s.table.read (p.slot i)) : WidenedTo p s' i := by
  obtain ⟨-, hcomputed, heq⟩ := h
  obtain ⟨hcomputed', hsame⟩ := hown hcomputed
  exact ⟨hwidened, hcomputed', by rw [hsame]; exact heq⟩

/-- The work that is left while a component runs: while no package was attached, every active
function is pending, queued, settled or widened. -/
structure Working (p : Program) (active : Finset Nat) (start : FixTable) (component : List Nat)
    (s : FixState) (queue : Finset Nat) : Prop where
  pending_active : s.pending ⊆ active
  callers_active : ∀ slot, s.callers slot ⊆ active
  queue_active : queue ⊆ active
  queue_component : queue ⊆ component.toFinset
  bottom : ∀ i ∈ active, p.slot i ∈ s.table.uncomputed → i ∈ s.pending ∨ i ∈ component
  uncomputed_active : ∀ slot ∈ s.table.uncomputed, ∃ i ∈ active, p.slot i = slot
  loaded : start.loaded ⊆ s.table.loaded
  bareLoaded : start.bareLoaded ⊆ s.table.bareLoaded
  covered : s.table.loaded = start.loaded → s.table.bareLoaded = start.bareLoaded →
    ∀ i ∈ active, i ∈ s.pending ∨ i ∈ queue ∨ Settled p s i ∨ WidenedTo p s i

/-- What one refinement does to the state. -/
structure Refined (p : Program) (index : Nat) (s s' : FixState) (changed : Finset Nat) : Prop where
  pending : s'.pending = s.pending
  widened : s'.widened = s.widened.erase index
  widening : s'.widening = s.widening
  resolved : s'.resolved = s.resolved
  callers : ∀ slot, s'.callers slot =
    if slot ∈ (p.refine s.table index).reads then insert index (s.callers slot)
    else s.callers slot
  loaded : s'.table.loaded = s.table.loaded ∪ (p.refine s.table index).loaded
  bareLoaded : s'.table.bareLoaded = s.table.bareLoaded ∪ (p.refine s.table index).bareLoaded
  params : s'.table.params = s.table.params
  changed_own : changed ⊆ {p.slot index}
  uncomputed : s'.table.uncomputed ⊆ s.table.uncomputed
  same : s'.table.loaded = s.table.loaded → s'.table.bareLoaded = s.table.bareLoaded →
    s.table.SameOff p changed s'.table
  stored : ∀ result, p.outcome s.table index = some result →
    p.slot index ∉ s'.table.uncomputed ∧ (s'.table.read (p.slot index)).eq result
  other : ∀ slot, slot ≠ p.slot index → s'.table.read slot = s.table.read slot ∧
    (slot ∈ s'.table.uncomputed ↔ slot ∈ s.table.uncomputed)
  unchanged : p.outcome s.table index = none → s'.table.returns = s.table.returns ∧
    s'.table.uncomputed = s.table.uncomputed

theorem refined_refineOne (s : FixState) (index : Nat) :
    Refined p index s (s.refineOne p index).1 (s.refineOne p index).2 := by
  unfold refineOne
  rcases hout : p.outcome s.table index with _ | result
  · exact ⟨rfl, rfl, rfl, rfl, fun _ => rfl, rfl, rfl, rfl, Finset.empty_subset _,
      Finset.Subset.refl _, fun hl hb => ⟨hl, hb, fun _ _ => rfl, fun _ _ => Iff.rfl,
        fun _ _ => rfl⟩, fun _ h => (by rw [hout] at h; cases h), fun _ _ => ⟨rfl, Iff.rfl⟩,
      fun _ => ⟨rfl, rfl⟩⟩
  · generalize hnoted : s.noteRefinement p index = noted
    have hoff := SameOff.storeReturn (p := p) noted.table (p.slot index) result
    have hreturns : noted.table.returns = s.table.returns := by rw [← hnoted]; rfl
    have huncomputed : noted.table.uncomputed = s.table.uncomputed := by rw [← hnoted]; rfl
    have hparams : noted.table.params = s.table.params := by rw [← hnoted]; rfl
    have hread : ∀ slot, noted.table.read slot = s.table.read slot := fun slot => by
      simp only [FixTable.read, hreturns]
    refine ⟨by rw [← hnoted]; rfl, by rw [← hnoted]; rfl, by rw [← hnoted]; rfl,
      by rw [← hnoted]; rfl, fun slot => by rw [← hnoted]; rfl, ?_, ?_, ?_, ?_, ?_,
      fun hl hb => ⟨hl, hb, fun slot h => ?_, fun slot h => ?_, fun i h => ?_⟩, fun r h => ?_,
      fun slot h => ⟨?_, ?_⟩, fun h => (by rw [hout] at h; cases h)⟩
    · rw [(loaded_storeReturn noted.table (p.slot index) result).1, ← hnoted]; rfl
    · rw [(loaded_storeReturn noted.table (p.slot index) result).2, ← hnoted]; rfl
    · rw [params_storeReturn, hparams]
    · dsimp only
      split
      · exact Finset.Subset.refl _
      · exact Finset.empty_subset _
    · rw [uncomputed_storeReturn, huncomputed]
      exact Finset.erase_subset _ _
    · rw [hoff.read slot h, hread]
    · rw [hoff.uncomputed slot h, huncomputed]
    · rw [hoff.params i h, hparams]
    · cases hout.symm.trans h
      refine ⟨?_, read_storeReturn _ _ _⟩
      rw [uncomputed_storeReturn]
      exact Finset.notMem_erase _ _
    · rw [read_storeReturn_of_ne _ _ h, hread]
    · rw [uncomputed_storeReturn, Finset.mem_erase, huncomputed]
      simp [h]

/-- Every reader of a changed slot is pending or in the component's queue. -/
theorem mem_requeue (s : FixState) (components : List (List Nat)) (id : Nat)
    (changed : Finset Nat) {i : Nat} (h : i ∈ changed.biUnion s.callers) :
    i ∈ (s.requeue components id changed).1.pending ∨
      i ∈ (s.requeue components id changed).2 := by
  by_cases hid : componentOf components i = some id
  · exact .inr (Finset.mem_filter.mpr ⟨h, hid⟩)
  · exact .inl (Finset.mem_union_right _ (Finset.mem_filter.mpr ⟨h, hid⟩))

theorem componentOf_mem {components : List (List Nat)} {id : Nat} {component : List Nat}
    (hid : (component, id) ∈ components.zipIdx) {i : Nat}
    (h : componentOf components i = some id) : i ∈ component := by
  unfold componentOf at h
  rw [Option.map_eq_some_iff] at h
  obtain ⟨⟨found, id'⟩, hfind, rfl⟩ := h
  have hmem : (found, id') ∈ components.zipIdx := by
    simpa using List.mem_of_find?_eq_some hfind
  have hi : i ∈ found := by simpa using List.find?_some hfind
  rw [List.mem_zipIdx_iff_getElem?] at hid hmem
  cases hid.symm.trans hmem
  exact hi

/-- A refined function is settled unless it reads its own slot and that changed. -/
theorem Refined.settled {index : Nat} (h : Refined p index s s' changed)
    (hloaded : s'.table.loaded = s.table.loaded)
    (hbare : s'.table.bareLoaded = s.table.bareLoaded) :
    Settled p s' index ∨ index ∈ changed.biUnion s'.callers := by
  have hoff := h.same hloaded hbare
  have hreader : ∀ slot ∈ (p.refine s.table index).reads, index ∈ s'.callers slot := by
    intro slot hslot
    rw [h.callers, if_pos hslot]
    exact Finset.mem_insert_self _ _
  by_cases hread : ∃ slot ∈ (p.refine s.table index).reads, slot ∈ changed
  · obtain ⟨slot, hslot, hc⟩ := hread
    exact .inr (Finset.mem_biUnion.mpr ⟨slot, hc, hreader slot hslot⟩)
  · refine .inl ⟨s.table, ⟨hloaded, hbare, by rw [h.params], fun slot hslot => ?_,
      fun slot hslot => ?_, fun _ _ _ _ => by rw [h.params]⟩, hreader, h.stored⟩
    · exact hoff.read slot fun hc => hread ⟨slot, hslot, hc⟩
    · exact hoff.uncomputed slot fun hc => hread ⟨slot, hslot, hc⟩

theorem Refined.callers_mono {index : Nat} (h : Refined p index s s' changed) (slot : Nat) :
    s.callers slot ⊆ s'.callers slot := by
  rw [h.callers]
  split
  · exact Finset.subset_insert _ _
  · exact Finset.Subset.refl _

section Steps

variable {active queue : Finset Nat} {start : FixTable} {component : List Nat} {index id : Nat}
  {components : List (List Nat)}

theorem Working.callers_biUnion (hcallers : ∀ slot, s.callers slot ⊆ active) :
    changed.biUnion s.callers ⊆ active :=
  Finset.biUnion_subset.mpr fun slot _ => hcallers slot

/-- A queued function is refined. -/
theorem Working.refineOne (h : Working p active start component s queue)
    (hactive : ∀ i ∈ active, i < p.size) (hindex : index ∈ queue)
    (hid : ∀ i, componentOf components i = some id → i ∈ component) :
    Working p active start component
      ((s.refineOne p index).1.requeue components id (s.refineOne p index).2).1
      (queue.erase index ∪
        ((s.refineOne p index).1.requeue components id (s.refineOne p index).2).2) := by
  have hr := refined_refineOne (p := p) s index
  generalize (s.refineOne p index).1 = s₁ at hr ⊢
  generalize (s.refineOne p index).2 = changed at hr ⊢
  have hia : index ∈ active := h.queue_active hindex
  have hcallers : ∀ slot, s₁.callers slot ⊆ active := by
    intro slot
    rw [hr.callers]
    split
    · exact Finset.insert_subset hia (h.callers_active slot)
    · exact h.callers_active slot
  have hreaders : changed.biUnion _ ⊆ active := Working.callers_biUnion hcallers
  refine ⟨?_, hcallers, ?_, ?_, fun i hi hbottom => ?_, fun slot hslot =>
    h.uncomputed_active slot (hr.uncomputed hslot), ?_, ?_, fun hloaded hbare i hi => ?_⟩
  · refine Finset.union_subset ?_ ((Finset.filter_subset _ _).trans hreaders)
    rw [hr.pending]
    exact h.pending_active
  · exact Finset.union_subset ((Finset.erase_subset _ _).trans h.queue_active)
      ((Finset.filter_subset _ _).trans hreaders)
  · refine Finset.union_subset ((Finset.erase_subset _ _).trans h.queue_component) ?_
    exact fun i hi => List.mem_toFinset.mpr (hid i (Finset.mem_filter.mp hi).2)
  · rcases h.bottom i hi (hr.uncomputed hbottom) with hp | hc
    · refine .inl (Finset.mem_union_left _ ?_)
      rwa [hr.pending]
    · exact .inr hc
  · rw [show ((s₁.requeue components id changed).1).table = s₁.table from rfl, hr.loaded]
    exact h.loaded.trans Finset.subset_union_left
  · rw [show ((s₁.requeue components id changed).1).table = s₁.table from rfl, hr.bareLoaded]
    exact h.bareLoaded.trans Finset.subset_union_left
  · change s₁.table.loaded = start.loaded at hloaded
    change s₁.table.bareLoaded = start.bareLoaded at hbare
    have hl : s.table.loaded = start.loaded := by
      refine Finset.Subset.antisymm ?_ h.loaded
      rw [← hloaded, hr.loaded]
      exact Finset.subset_union_left
    have hb : s.table.bareLoaded = start.bareLoaded := by
      refine Finset.Subset.antisymm ?_ h.bareLoaded
      rw [← hbare, hr.bareLoaded]
      exact Finset.subset_union_left
    have hrequeued : i ∈ changed.biUnion s₁.callers →
        i ∈ (s₁.requeue components id changed).1.pending ∨
          i ∈ queue.erase index ∪ (s₁.requeue components id changed).2 := fun hread =>
      (mem_requeue s₁ components id changed hread).imp_right (Finset.mem_union_right _)
    by_cases hii : i = index
    · subst hii
      rcases hr.settled (hloaded.trans hl.symm) (hbare.trans hb.symm) with hs | hread
      · exact .inr (.inr (.inl hs))
      · exact (hrequeued hread).imp_right .inl
    · have hne : p.slot i ≠ p.slot index := fun he =>
        hii (p.slot_inj (hactive i hi) (hactive index hia) he)
      have hown : p.slot i ∉ s.table.uncomputed → p.slot i ∉ s₁.table.uncomputed ∧
          s₁.table.read (p.slot i) = s.table.read (p.slot i) := fun hc =>
        ⟨fun h' => hc ((hr.other _ hne).2.mp h'), (hr.other _ hne).1⟩
      rcases h.covered hl hb i hi with hp | hq | hs | hw
      · refine .inl (Finset.mem_union_left _ ?_)
        rwa [hr.pending]
      · exact .inr (.inl (Finset.mem_union_left _ (Finset.mem_erase.mpr ⟨hii, hq⟩)))
      · rcases hs.keep s₁ (hr.same (hloaded.trans hl.symm) (hbare.trans hb.symm)) hr.callers_mono
          (by rw [hr.params]) hown with hs' | hread
        · exact .inr (.inr (.inl hs'))
        · exact (hrequeued hread).imp_right .inl
      · refine .inr (.inr (.inr (hw.keep s₁ ?_ hown)))
        rw [hr.widened]
        exact Finset.mem_erase.mpr ⟨hii, hw.1⟩

/-- A component out of budget is widened; only its own functions leave the queue. -/
theorem Working.widen (h : Working p active start component s queue)
    (hactive : ∀ i ∈ active, i < p.size) (hcomponent : ∀ i ∈ component, i < p.size)
    (hid : ∀ i, componentOf components i = some id → i ∈ component) :
    Working p active start [] ((s.widen p component).1.requeue components id
      (s.widen p component).2).1 ∅ := by
  have hoff := SameOff.storeUnknowns (p := p) s.table (component.map p.slot)
  have hmem : ∀ i ∈ component, p.slot i ∈ component.map p.slot := fun i hi =>
    List.mem_map.mpr ⟨i, hi, rfl⟩
  have huncomputed := uncomputed_storeUnknowns s.table (component.map p.slot)
  have hreaders : (s.widen p component).2.biUnion (s.widen p component).1.callers ⊆ active :=
    Working.callers_biUnion h.callers_active
  refine ⟨?_, h.callers_active, Finset.empty_subset _, Finset.empty_subset _,
    fun i hi hbottom => ?_, fun slot hslot => ?_, ?_, ?_, fun hloaded hbare i hi => ?_⟩
  · exact Finset.union_subset h.pending_active ((Finset.filter_subset _ _).trans hreaders)
  · replace hbottom : p.slot i ∈ (storeUnknowns s.table (component.map p.slot)).1.uncomputed :=
      hbottom
    rw [huncomputed, Finset.mem_sdiff, List.mem_toFinset] at hbottom
    rcases h.bottom i hi hbottom.1 with hp | hc
    · exact .inl (Finset.mem_union_left _ hp)
    · exact absurd (hmem i hc) hbottom.2
  · replace hslot : slot ∈ (storeUnknowns s.table (component.map p.slot)).1.uncomputed := hslot
    rw [huncomputed] at hslot
    exact h.uncomputed_active slot (Finset.mem_sdiff.mp hslot).1
  · exact h.loaded.trans hoff.loaded.ge
  · exact h.bareLoaded.trans hoff.bareLoaded.ge
  · have hl : s.table.loaded = start.loaded := hoff.loaded.symm.trans hloaded
    have hb : s.table.bareLoaded = start.bareLoaded := hoff.bareLoaded.symm.trans hbare
    by_cases hc : i ∈ component
    · refine .inr (.inr (.inr ⟨?_, ?_, read_storeUnknowns _ _ (hmem i hc)⟩))
      · exact Finset.mem_union_right _ (List.mem_toFinset.mpr hc)
      · change p.slot i ∉ (storeUnknowns s.table (component.map p.slot)).1.uncomputed
        rw [huncomputed, Finset.mem_sdiff, List.mem_toFinset]
        exact fun hm => hm.2 (hmem i hc)
    · have hslot : p.slot i ∉ component.map p.slot := by
        rw [List.mem_map]
        rintro ⟨j, hj, he⟩
        exact hc (p.slot_inj (hcomponent j hj) (hactive i hi) he ▸ hj)
      have hown : p.slot i ∉ s.table.uncomputed →
          p.slot i ∉ (s.widen p component).1.table.uncomputed ∧
            (s.widen p component).1.table.read (p.slot i) = s.table.read (p.slot i) := by
        refine fun hcomputed => ⟨fun hm => hcomputed ?_, read_storeUnknowns_of_notMem _ _ hslot⟩
        change p.slot i ∈ (storeUnknowns s.table (component.map p.slot)).1.uncomputed at hm
        rw [huncomputed] at hm
        exact (Finset.mem_sdiff.mp hm).1
      rcases h.covered hl hb i hi with hp | hq | hs | hw
      · exact .inl (Finset.mem_union_left _ hp)
      · exact absurd (List.mem_toFinset.mp (h.queue_component hq)) hc
      · rcases hs.keep (s.widen p component).1 hoff (fun _ => Finset.Subset.refl _)
          (congrArg (·[i]?) (params_storeUnknowns s.table (component.map p.slot))) hown
          with hs' | hread
        · exact .inr (.inr (.inl hs'))
        · refine .inl (Finset.mem_union_right _ (Finset.mem_filter.mpr ⟨hread, fun he => ?_⟩))
          exact hc (hid i he)
      · exact .inr (.inr (.inr (hw.keep (s.widen p component).1
          (Finset.mem_union_left _ hw.1) hown)))

/-- Storing unknown in the members at bottom keeps the returns that were computed. -/
theorem Working.resolve (h : Working p active start component s ∅)
    (hid : ∀ i, componentOf components i = some id → i ∈ component) :
    Working p active start component
      ((s.resolve p (s.stuck p component)).requeue components id
        ((s.stuck p component).map p.slot).toFinset).1
      ((s.resolve p (s.stuck p component)).requeue components id
        ((s.stuck p component).map p.slot).toFinset).2 := by
  generalize hslots : (s.stuck p component).map p.slot = slots
  have hresolve : (s.resolve p (s.stuck p component)).table = (storeUnknowns s.table slots).1 := by
    rw [← hslots]; rfl
  have hbottom : ∀ slot ∈ slots, slot ∈ s.table.uncomputed := by
    intro slot hslot
    rw [← hslots, List.mem_map] at hslot
    obtain ⟨i, hi, rfl⟩ := hslot
    exact of_decide_eq_true (List.mem_filter.mp hi).2
  have hoff : s.table.SameOff p slots.toFinset (storeUnknowns s.table slots).1 := by
    have hoff := SameOff.storeUnknowns (p := p) s.table slots
    have hsub : ∀ slot ∉ slots.toFinset, slot ∉ (storeUnknowns s.table slots).2 :=
      fun slot hslot hc => hslot (List.mem_toFinset.mpr (storeUnknowns_changed _ _ hc))
    exact ⟨hoff.loaded, hoff.bareLoaded, fun slot hslot => hoff.read slot (hsub slot hslot),
      fun slot hslot => hoff.uncomputed slot (hsub slot hslot),
      fun i hi => hoff.params i (hsub _ hi)⟩
  generalize hs₁ : s.resolve p (s.stuck p component) = s₁ at hresolve ⊢
  have hpending : s₁.pending = s.pending := by rw [← hs₁]; rfl
  have hcallers : s₁.callers = s.callers := by rw [← hs₁]; rfl
  have hwidened : s₁.widened = s.widened := by rw [← hs₁]; rfl
  rw [← hresolve] at hoff
  have huncomputed : s₁.table.uncomputed ⊆ s.table.uncomputed := by
    rw [hresolve, uncomputed_storeUnknowns]
    exact Finset.sdiff_subset
  have hreaders : slots.toFinset.biUnion s₁.callers ⊆ active := Working.callers_biUnion
    (by rw [hcallers]; exact h.callers_active)
  refine ⟨?_, ?_, (Finset.filter_subset _ _).trans hreaders, fun i hi => ?_, fun i hi hb => ?_,
    fun slot hslot => h.uncomputed_active slot (huncomputed hslot), ?_, ?_,
    fun hloaded hbare i hi => ?_⟩
  · refine Finset.union_subset ?_ ((Finset.filter_subset _ _).trans hreaders)
    rw [hpending]
    exact h.pending_active
  · intro slot
    change s₁.callers slot ⊆ active
    rw [hcallers]
    exact h.callers_active slot
  · exact List.mem_toFinset.mpr (hid i (Finset.mem_filter.mp hi).2)
  · refine (h.bottom i hi (huncomputed hb)).imp_left fun hp => Finset.mem_union_left _ ?_
    rwa [hpending]
  · exact h.loaded.trans hoff.loaded.ge
  · exact h.bareLoaded.trans hoff.bareLoaded.ge
  · have hown : p.slot i ∉ s.table.uncomputed → p.slot i ∉ s₁.table.uncomputed ∧
        s₁.table.read (p.slot i) = s.table.read (p.slot i) := fun hc =>
      ⟨fun hm => hc (huncomputed hm),
        hoff.read _ fun hm => hc (hbottom _ (List.mem_toFinset.mp hm))⟩
    rcases h.covered (hoff.loaded.symm.trans hloaded) (hoff.bareLoaded.symm.trans hbare) i hi
      with hp | hq | hs | hw
    · refine .inl (Finset.mem_union_left _ ?_)
      rwa [hpending]
    · exact absurd hq (Finset.notMem_empty i)
    · have hparams : s₁.table.params = s.table.params := by
        rw [hresolve, params_storeUnknowns]
      rcases hs.keep s₁ hoff (fun slot => by rw [hcallers]) (by rw [hparams]) hown with hs' | hread
      · exact .inr (.inr (.inl hs'))
      · exact (mem_requeue s₁ components id _ hread).imp_right .inl
    · exact .inr (.inr (.inr (hw.keep s₁ (by rw [hwidened]; exact hw.1) hown)))

/-- A component takes its pending functions off the pending set. -/
theorem Working.enter (h : Working p active start [] s ∅) (component : List Nat) :
    Working p active start component { s with pending := s.pending \ component.toFinset }
      (component.toFinset ∩ s.pending) where
  pending_active := Finset.sdiff_subset.trans h.pending_active
  callers_active := h.callers_active
  queue_active := Finset.inter_subset_right.trans h.pending_active
  queue_component := Finset.inter_subset_left
  bottom i hi hb := by
    rcases h.bottom i hi hb with hp | hc
    · by_cases hmem : i ∈ component
      · exact .inr hmem
      · exact .inl (Finset.mem_sdiff.mpr ⟨hp, fun hm => hmem (List.mem_toFinset.mp hm)⟩)
    · exact absurd hc List.not_mem_nil
  uncomputed_active := h.uncomputed_active
  loaded := h.loaded
  bareLoaded := h.bareLoaded
  covered hl hb i hi := by
    rcases h.covered hl hb i hi with hp | hq | hs | hw
    · by_cases hmem : i ∈ component.toFinset
      · exact .inr (.inl (Finset.mem_inter.mpr ⟨hmem, hp⟩))
      · exact .inl (Finset.mem_sdiff.mpr ⟨hp, hmem⟩)
    · exact absurd hq (Finset.notMem_empty i)
    · exact .inr (.inr (.inl hs))
    · exact .inr (.inr (.inr hw))

theorem Working.queue_eq_empty (h : Working p active start component s queue)
    (hactive : ∀ i ∈ active, i < p.size) (hpop : popFirst p queue = none) : queue = ∅ := by
  refine Finset.eq_empty_of_forall_notMem fun i hi => ?_
  have hnone := List.find?_eq_none.mp hpop i (List.mem_range.mpr (hactive i (h.queue_active hi)))
  exact hnone (decide_eq_true hi)

/-- In the first pass the members at bottom wait for the next. -/
theorem Working.leaveFirst (h : Working p active start component s ∅)
    (hactive : ∀ i ∈ active, i < p.size) (hcomponent : ∀ i ∈ component, i < p.size) :
    Working p active start []
      { s with pending := s.pending ∪ (s.stuck p component).toFinset } ∅ where
  pending_active := by
    refine Finset.union_subset h.pending_active fun i hi => ?_
    obtain ⟨hmem, hb⟩ := List.mem_filter.mp (List.mem_toFinset.mp hi)
    obtain ⟨j, hj, he⟩ := h.uncomputed_active _ (of_decide_eq_true hb)
    rwa [← p.slot_inj (hactive j hj) (hcomponent i hmem) he]
  callers_active := h.callers_active
  queue_active := Finset.empty_subset _
  queue_component := Finset.empty_subset _
  bottom i hi hb := by
    refine .inl (Finset.mem_union.mpr ((h.bottom i hi hb).imp_right fun hmem => ?_))
    exact List.mem_toFinset.mpr (List.mem_filter.mpr ⟨hmem, decide_eq_true hb⟩)
  uncomputed_active := h.uncomputed_active
  loaded := h.loaded
  bareLoaded := h.bareLoaded
  covered hl hb i hi := (h.covered hl hb i hi).imp_left fun hp => Finset.mem_union_left _ hp

theorem Working.leave (h : Working p active start component s ∅)
    (hstuck : s.stuck p component = []) : Working p active start [] s ∅ :=
  { h with
    queue_component := Finset.empty_subset _
    bottom := fun i hi hb => (h.bottom i hi hb).imp_right fun hmem => by
      have := List.filter_eq_nil_iff.mp hstuck i hmem
      exact absurd (decide_eq_true hb) this }

end Steps

end FixState

namespace Program

variable (p : Program)

/-- What holds through a component's loop, and after it. -/
theorem runComponent_rule {components : List (List Nat)} {id : Nat} {component : List Nat}
    {first : Bool} {I : FixState → Finset Nat → Prop} {J : FixState → Prop}
    (hrefine : ∀ s queue index, FixState.popFirst p queue = some index → I s queue →
      I ((s.refineOne p index).1.requeue components id (s.refineOne p index).2).1
        (queue.erase index ∪
          ((s.refineOne p index).1.requeue components id (s.refineOne p index).2).2))
    (hwiden : ∀ s queue, I s queue →
      J ((s.widen p component).1.requeue components id (s.widen p component).2).1)
    (hresolve : ∀ s queue, FixState.popFirst p queue = none → s.stuck p component ≠ [] →
      I s queue →
      I ((s.resolve p (s.stuck p component)).requeue components id
          ((s.stuck p component).map p.slot).toFinset).1
        ((s.resolve p (s.stuck p component)).requeue components id
          ((s.stuck p component).map p.slot).toFinset).2)
    (hfirst : ∀ s queue, FixState.popFirst p queue = none → I s queue →
      J { s with pending := s.pending ∪ (s.stuck p component).toFinset })
    (hdone : ∀ s queue, FixState.popFirst p queue = none → s.stuck p component = [] →
      I s queue → J s)
    (s : FixState) (queue : Finset Nat) (budget : Nat) (h : I s queue) :
    J (p.runComponent components id component first s queue budget) := by
  fun_induction runComponent p components id component first s queue budget with
  | case1 s queue index hpop s' changed hw =>
    have := hwiden s queue h
    rwa [hw] at this
  | case2 s queue index hpop budget s₁ changed hr s₂ readers hq ih =>
    refine ih ?_
    have := hrefine s queue index hpop h
    rwa [hr, hq] at this
  | case3 s queue budget hpop => exact hfirst s queue hpop h
  | case4 s queue budget hpop _ hstuck => exact hdone s queue hpop hstuck h
  | case5 s queue budget hpop _ hstuck resolved next ih =>
    exact ih (hresolve s queue hpop hstuck h)

theorem runComponents_rule {first : Bool} {components : List (List Nat)} {J : FixState → Prop}
    (hstep : ∀ component id, (component, id) ∈ components.zipIdx → ∀ s, J s →
      J (p.runComponent components id component first
        { s with pending := s.pending \ component.toFinset } (component.toFinset ∩ s.pending)
        (maxFixpointDepth * component.length)))
    (s : FixState) (h : J s) : J (p.runComponents first components s components.zipIdx) :=
  List.foldlRecOn components.zipIdx _ h fun s hs entry hentry => hstep entry.1 entry.2 hentry s hs

variable {p} {active : Finset Nat} {start : FixTable} {s : FixState}

theorem passComponents_lt {first : Bool} {component : List Nat}
    (hc : component ∈ p.passComponents first s) {i : Nat} (hi : i ∈ component) : i < p.size := by
  unfold passComponents at hc
  split at hc
  · obtain ⟨j, hj, rfl⟩ := List.mem_map.mp hc
    rw [List.mem_singleton] at hi
    subst hi
    exact List.mem_range.mp (List.mem_of_mem_filter hj)
  · have := componentsAfterDependencies_lt _ hc hi
    rwa [dependencies, List.length_map, List.length_range] at this

open FixState

/-- What refinements keep of the state, whatever is pending. -/
structure KeptByRefining (p : Program) (active : Finset Nat) (K : FixState → Prop) : Prop where
  pending : ∀ s pending, K s → K { s with pending }
  refineOne : ∀ s, ∀ i ∈ active, K s → K (s.refineOne p i).1
  widen : ∀ s component, K s → K (s.widen p component).1
  resolve : ∀ s component, K s → K (s.resolve p (s.stuck p component))

theorem KeptByRefining.runComponents (hactive : ∀ i ∈ active, i < p.size) {K : FixState → Prop}
    (hK : KeptByRefining p active K) {first : Bool} {components : List (List Nat)}
    (hlt : ∀ component ∈ components, ∀ i ∈ component, i < p.size)
    (hw : Working p active start [] s ∅) (h : K s) :
    Working p active start [] (p.runComponents first components s components.zipIdx) ∅ ∧
      K (p.runComponents first components s components.zipIdx) := by
  refine p.runComponents_rule (J := fun s => Working p active start [] s ∅ ∧ K s)
    (fun component id hentry s hs => ?_) s ⟨hw, h⟩
  have hcomponent : ∀ i ∈ component, i < p.size :=
    hlt component (List.fst_mem_of_mem_zipIdx hentry)
  have hid : ∀ i, componentOf components i = some id → i ∈ component := fun _ =>
    componentOf_mem hentry
  refine p.runComponent_rule (I := fun s queue => Working p active start component s queue ∧ K s)
    (J := fun s => Working p active start [] s ∅ ∧ K s) (fun s queue index hpop hw => ?_)
    (fun s queue hw => ?_) (fun s queue hpop _ hw => ?_) (fun s queue hpop hw => ?_)
    (fun s queue hpop hstuck hw => ?_) _ _ _ ⟨hs.1.enter component, hK.pending _ _ hs.2⟩
  · have hmem : index ∈ queue := by simpa using List.find?_some hpop
    exact ⟨hw.1.refineOne hactive hmem hid,
      hK.pending _ _ (hK.refineOne s index (hw.1.queue_active hmem) hw.2)⟩
  · exact ⟨hw.1.widen hactive hcomponent hid, hK.pending _ _ (hK.widen s component hw.2)⟩
  · obtain ⟨hw, hk⟩ := hw
    rw [hw.queue_eq_empty hactive hpop] at hw
    exact ⟨hw.resolve hid, hK.pending _ _ (hK.resolve s component hk)⟩
  · obtain ⟨hw, hk⟩ := hw
    rw [hw.queue_eq_empty hactive hpop] at hw
    exact ⟨hw.leaveFirst hactive hcomponent, hK.pending _ _ hk⟩
  · obtain ⟨hw, hk⟩ := hw
    rw [hw.queue_eq_empty hactive hpop] at hw
    exact ⟨hw.leave hstuck, hk⟩

/-- The parameters that changed belong to the functions of the changed slots. -/
theorem inheritAll_params (params : List (List ParamFlags)) (entries : List Inherited) {i : Nat}
    (hi : p.slot i ∉ (p.inheritAll params entries).2) :
    (p.inheritAll params entries).1[i]? = params[i]? := by
  have hfold : ∀ (entries : List Inherited) (params : List (List ParamFlags)) (changed : Finset Nat),
      let after := entries.foldl (fun (state : List (List ParamFlags) × Finset Nat) e =>
        let raised := inherit state.1 e
        (raised, if raised = state.1 then state.2 else insert (p.slot e.function) state.2))
        (params, changed)
      changed ⊆ after.2 ∧ (p.slot i ∉ after.2 → after.1[i]? = params[i]?) := by
    intro entries
    induction entries with
    | nil => exact fun _ _ => ⟨Finset.Subset.refl _, fun _ => rfl⟩
    | cons e entries ih =>
      intro params changed
      rw [List.foldl_cons]
      obtain ⟨hsub, hsame⟩ := ih (inherit params e)
        (if inherit params e = params then changed else insert (p.slot e.function) changed)
      refine ⟨Finset.Subset.trans ?_ hsub, fun hnot => (hsame hnot).trans ?_⟩
      · split
        · exact Finset.Subset.refl _
        · exact Finset.subset_insert _ _
      · by_cases hraised : inherit params e = params
        · rw [hraised]
        · have hne : e.function ≠ i := by
            rintro rfl
            refine hnot (hsub ?_)
            rw [if_neg hraised]
            exact Finset.mem_insert_self _ _
          exact List.getElem?_modify_ne _ _ hne
  exact (hfold entries params ∅).2 hi

theorem sameOff_propagateS3 (t : FixTable) :
    t.SameOff p (p.propagateS3 t).2 (p.propagateS3 t).1 :=
  ⟨rfl, rfl, fun _ _ => rfl, fun _ _ => Iff.rfl, fun _ hi => inheritAll_params _ _ hi⟩

theorem sameOff_propagateForwarded (t : FixTable) :
    t.SameOff p (p.propagateForwarded t).2 (p.propagateForwarded t).1 :=
  ⟨rfl, rfl, fun _ _ => rfl, fun _ _ => Iff.rfl, fun _ hi => inheritAll_params _ _ hi⟩

/-- Every function that sees a changed parameter is pending. -/
theorem working_propagate (hactive : ∀ i ∈ active, i < p.size)
    (h : Working p active start [] s ∅) :
    Working p active start [] (p.propagate active s).1 ∅ := by
  have hoff := (sameOff_propagateS3 (p := p) s.table).trans
    (sameOff_propagateForwarded (p := p) (p.propagateS3 s.table).1)
  set changed := (p.propagateS3 s.table).2 ∪ (p.propagateForwarded (p.propagateS3 s.table).1).2
    with hchanged
  refine ⟨?_, h.callers_active, Finset.empty_subset _, Finset.empty_subset _, fun i hi hb => ?_,
    h.uncomputed_active, h.loaded, h.bareLoaded, fun hl hb i hi => ?_⟩
  · refine Finset.union_subset (Finset.union_subset h.pending_active ?_)
      (Finset.biUnion_subset.mpr fun slot _ => h.callers_active slot)
    exact Finset.biUnion_subset.mpr fun slot _ i hi => (Finset.mem_filter.mp hi).2
  · exact (h.bottom i hi hb).imp_left fun hp =>
      Finset.mem_union_left _ (Finset.mem_union_left _ hp)
  · by_cases hown : p.slot i ∈ changed
    · refine .inl (Finset.mem_union_left _ (Finset.mem_union_right _ ?_))
      exact Finset.mem_biUnion.mpr ⟨_, hown, Finset.mem_filter.mpr
        ⟨p.mem_owners (hactive i hi), hi⟩⟩
    · rcases h.covered hl hb i hi with hp | hq | hs | hw
      · exact .inl (Finset.mem_union_left _ (Finset.mem_union_left _ hp))
      · exact absurd hq (Finset.notMem_empty i)
      · rcases hs.keep (p.propagate active s).1 hoff (fun _ => Finset.Subset.refl _)
          (hoff.params i hown) (fun hc => ⟨hc, rfl⟩) with hs' | hread
        · exact .inr (.inr (.inl hs'))
        · exact .inl (Finset.mem_union_right _ hread)
      · exact .inr (.inr (.inr (hw.keep (p.propagate active s).1 hw.1
          fun hc => ⟨hc, rfl⟩)))

/-- The state a pass starts its propagation from. -/
def afterComponents (p : Program) (first : Bool) (s : FixState) : FixState :=
  p.runComponents first (p.passComponents first s) s (p.passComponents first s).zipIdx

/-- A pass refines, propagates unless nothing asks for it, and requeues every active function if a
package was attached. -/
theorem runPass_cases (active : Finset Nat) (first : Bool) (s : FixState)
    (evaluationPending : Bool) :
    ∃ next : FixState × Bool,
      (next = p.propagate active (p.afterComponents first s) ∨
        evaluationPending = false ∧
          s.table.loaded.card = (p.afterComponents first s).table.loaded.card ∧
          s.table.bareLoaded.card = (p.afterComponents first s).table.bareLoaded.card ∧
          next = (p.afterComponents first s, false)) ∧
      ((s.table.loaded.card = (p.afterComponents first s).table.loaded.card ∧
          s.table.bareLoaded.card = (p.afterComponents first s).table.bareLoaded.card ∧
          p.runPass active first s evaluationPending = next) ∨
        p.runPass active first s evaluationPending =
          ({ next.1 with pending := next.1.pending ∪ active }, next.2)) := by
  unfold runPass
  dsimp only
  rw [← afterComponents]
  generalize p.afterComponents first s = after
  by_cases hattached : (s.table.loaded.card, s.table.bareLoaded.card) =
      (after.table.loaded.card, after.table.bareLoaded.card)
  · simp only [hattached, ne_eq, not_true_eq_false, decide_false, Bool.or_false,
      Bool.false_eq_true, if_false]
    refine ⟨if evaluationPending = true then p.propagate active after else (after, false), ?_,
      .inl ⟨(Prod.ext_iff.mp hattached).1, (Prod.ext_iff.mp hattached).2, rfl⟩⟩
    cases evaluationPending
    · exact .inr ⟨rfl, (Prod.ext_iff.mp hattached).1, (Prod.ext_iff.mp hattached).2, rfl⟩
    · exact .inl rfl
  · simp only [hattached, ne_eq, not_false_eq_true, decide_true, Bool.or_true, if_true]
    exact ⟨p.propagate active after, .inl rfl, .inr rfl⟩

/-- A pass that leaves the packages alone keeps the work covered; any other requeues every active
function. -/
theorem working_runPass (hactive : ∀ i ∈ active, i < p.size) (first evaluationPending : Bool)
    (h : Working p active s.table [] s ∅) :
    Working p active (p.runPass active first s evaluationPending).1.table []
      (p.runPass active first s evaluationPending).1 ∅ := by
  have hK : KeptByRefining p active fun _ => True :=
    ⟨fun _ _ _ => trivial, fun _ _ _ _ => trivial, fun _ _ _ => trivial, fun _ _ _ => trivial⟩
  have hafter : Working p active s.table [] (p.afterComponents first s) ∅ :=
    (hK.runComponents hactive (fun _ hc _ hi => passComponents_lt hc hi) h trivial).1
  obtain ⟨next, hnext, hpass⟩ := p.runPass_cases active first s evaluationPending
  have hwork : Working p active s.table [] next.1 ∅ ∧
      next.1.table.loaded = (p.afterComponents first s).table.loaded ∧
      next.1.table.bareLoaded = (p.afterComponents first s).table.bareLoaded := by
    rcases hnext with rfl | ⟨-, -, -, rfl⟩
    · exact ⟨working_propagate hactive hafter, rfl, rfl⟩
    · exact ⟨hafter, rfl, rfl⟩
  obtain ⟨hwork, hloaded, hbare⟩ := hwork
  rcases hpass with ⟨hl, hb, heq⟩ | heq
  · replace hl := (Finset.eq_of_subset_of_card_le hafter.loaded hl.ge).symm
    replace hb := (Finset.eq_of_subset_of_card_le hafter.bareLoaded hb.ge).symm
    rw [heq]
    exact { hwork with
      loaded := Finset.Subset.refl _
      bareLoaded := Finset.Subset.refl _
      covered := fun _ _ => hwork.covered (hloaded.trans hl) (hbare.trans hb) }
  · rw [heq]
    exact { hwork with
      pending_active := Finset.union_subset hwork.pending_active (Finset.Subset.refl _)
      bottom := fun _ hi _ => .inl (Finset.mem_union_right _ hi)
      loaded := Finset.Subset.refl _
      bareLoaded := Finset.Subset.refl _
      covered := fun _ _ _ hi => .inl (Finset.mem_union_right _ hi) }

theorem runPasses_rule {J : FixState → Bool → Prop}
    (hpass : ∀ first s evaluationPending, J s evaluationPending →
      J (p.runPass active first s evaluationPending).1
        (p.runPass active first s evaluationPending).2)
    (passes : Nat) (first : Bool) (s : FixState) (evaluationPending : Bool)
    (h : J s evaluationPending) :
    J (p.runPasses active passes first s evaluationPending).1
      (p.runPasses active passes first s evaluationPending).2 := by
  induction passes generalizing first s evaluationPending with
  | zero => exact h
  | succ passes ih =>
    unfold runPasses
    split
    · exact h
    · exact ih _ _ _ (hpass first s evaluationPending h)

theorem working_runPasses (hactive : ∀ i ∈ active, i < p.size) (passes : Nat) (first : Bool)
    (evaluationPending : Bool) (h : Working p active s.table [] s ∅) :
    Working p active (p.runPasses active passes first s evaluationPending).1.table []
      (p.runPasses active passes first s evaluationPending).1 ∅ :=
  runPasses_rule (J := fun s _ => Working p active s.table [] s ∅)
    (fun first _ evaluationPending h => working_runPass hactive first evaluationPending h)
    passes first s evaluationPending h

theorem working_startState (active : Finset Nat) (t : FixTable) :
    Working p active (p.startState active t).table [] (p.startState active t) ∅ where
  pending_active := Finset.Subset.refl _
  callers_active _ := Finset.empty_subset _
  queue_active := Finset.empty_subset _
  queue_component := Finset.empty_subset _
  bottom _ hi _ := .inl hi
  uncomputed_active _ hslot := Finset.mem_image.mp hslot
  loaded := Finset.Subset.refl _
  bareLoaded := Finset.Subset.refl _
  covered _ _ _ hi := .inl hi

/-- After a run that ends with nothing pending, no active return is at bottom. -/
theorem uncomputed_of_working (h : Working p active start [] s ∅) (hpending : s.pending = ∅) :
    s.table.uncomputed = ∅ := by
  refine Finset.eq_empty_of_forall_notMem fun slot hslot => ?_
  obtain ⟨i, hi, rfl⟩ := h.uncomputed_active slot hslot
  rcases h.bottom i hi hslot with hp | hc
  · rw [hpending] at hp
    exact Finset.notMem_empty i hp
  · exact List.not_mem_nil hc

/-- A settled return is its refinement under the table. -/
theorem eq_refinement_of_settled (hreads : p.DependsOnReads) (huncomputed : s.table.uncomputed = ∅)
    {i : Nat} (h : Settled p s i) :
    (s.table.read (p.slot i)).eq ((p.refine s.table i).result.getD .unknown) = true := by
  obtain ⟨t, hsame, -, hresult⟩ := h
  have hcomputed : (p.refine t i).reads.any (· ∈ t.uncomputed) = false := by
    refine List.any_eq_false.mpr fun slot hslot => ?_
    rw [decide_eq_true_eq, ← hsame.uncomputed slot hslot, huncomputed]
    exact Finset.notMem_empty slot
  have hout : p.outcome t i = some ((p.refine t i).result.getD .unknown) := by
    rw [outcome, hcomputed]
    cases (p.refine t i).result <;> rfl
  rw [hreads i t s.table hsame]
  exact (hresult _ hout).2

/-- A property that refinement and propagation keep holds at the end of every run. -/
theorem KeptByRefining.runPasses (hactive : ∀ i ∈ active, i < p.size) {K : FixState → Prop}
    (hK : KeptByRefining p active K) (hpropagate : ∀ s, K s → K (p.propagate active s).1)
    (passes : Nat) (first evaluationPending : Bool) (hw : Working p active s.table [] s ∅)
    (h : K s) : K (p.runPasses active passes first s evaluationPending).1 := by
  refine (runPasses_rule (J := fun s _ => Working p active s.table [] s ∅ ∧ K s)
    (fun first s evaluationPending h => ⟨working_runPass hactive first evaluationPending h.1, ?_⟩)
    passes first s evaluationPending ⟨hw, h⟩).2
  have hafter : K (p.afterComponents first s) :=
    (hK.runComponents hactive (fun _ hc _ hi => passComponents_lt hc hi) h.1 h.2).2
  obtain ⟨next, hnext, hpass⟩ := p.runPass_cases active first s evaluationPending
  have hk : K next.1 := by
    rcases hnext with rfl | ⟨-, -, -, rfl⟩
    · exact hpropagate _ hafter
    · exact hafter
  rcases hpass with ⟨-, -, heq⟩ | heq
  · rw [heq]; exact hk
  · rw [heq]; exact hK.pending _ _ hk

end Program

end Ry
