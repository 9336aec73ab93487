import Ry.Project.Settled

/-! # The scheduler and the full sweep

Where refinement is monotone in some order of types, every table of a run that widened nothing,
resolved no bottom and attached no package lies below every table that refinement and propagation
leave alone.  The scheduler and the sweep both end in such a table.
-/

namespace Ry

/-- An order of types in which two types below each other are `==`. -/
structure TypeOrder where
  le : RType → RType → Prop
  of_eq : ∀ {a b : RType}, a.eq b = true → le a b
  trans : ∀ {a b c : RType}, le a b → le b c → le a c
  antisymm : ∀ {a b : RType}, le a b → le b a → a.eq b = true

namespace ParamFlags

/-- The first flags are raised no further than the second. -/
structure Le (a b : ParamFlags) : Prop where
  quoting : a.quoting = true → b.quoting = true
  defused : a.defused = true → b.defused = true
  injection : InjectionMode.rank a.injection ≤ InjectionMode.rank b.injection

theorem Le.refl (a : ParamFlags) : a.Le a := ⟨id, id, Nat.le_refl _⟩

theorem Le.trans {a b c : ParamFlags} (h : a.Le b) (h' : b.Le c) : a.Le c :=
  ⟨h'.quoting ∘ h.quoting, h'.defused ∘ h.defused, Nat.le_trans h.injection h'.injection⟩

theorem rank_injective {a b : Option InjectionMode}
    (h : InjectionMode.rank a = InjectionMode.rank b) : a = b := by
  rcases a with _ | _ | _ <;> rcases b with _ | _ | _ <;> simp_all [InjectionMode.rank]

theorem Le.antisymm {a b : ParamFlags} (h : a.Le b) (h' : b.Le a) : a = b := by
  obtain ⟨quoting, defused, injection⟩ := a
  obtain ⟨quoting', defused', injection'⟩ := b
  have hq : quoting = quoting' := Bool.eq_iff_iff.mpr ⟨h.quoting, h'.quoting⟩
  have hd : defused = defused' := Bool.eq_iff_iff.mpr ⟨h.defused, h'.defused⟩
  have hi : injection = injection' :=
    rank_injective (Nat.le_antisymm h.injection h'.injection)
  rw [hq, hd, hi]

theorem le_inheritNseFlags (parameter inherited : ParamFlags) :
    parameter.Le (inheritNseFlags parameter inherited) := by
  refine ⟨fun h => ?_, fun h => ?_, ?_⟩
  · simp [inheritNseFlags, h]
  · simp [inheritNseFlags, h]
  · unfold inheritNseFlags
    dsimp only
    split
    · exact Nat.le_of_lt ‹_›
    · exact Nat.le_refl _

end ParamFlags

def ParamsLe (params params' : List (List ParamFlags)) : Prop :=
  List.Forall₂ (List.Forall₂ ParamFlags.Le) params params'

theorem ParamsLe.refl (params : List (List ParamFlags)) : ParamsLe params params :=
  List.forall₂_same.mpr fun _ _ => List.forall₂_same.mpr fun flags _ => .refl flags

theorem ParamsLe.trans {a b c : List (List ParamFlags)} (h : ParamsLe a b) (h' : ParamsLe b c) :
    ParamsLe a c :=
  RType.forall₂_trans_of_mem h h' fun _ _ _ _ h h' =>
    RType.forall₂_trans_of_mem h h' fun _ _ _ _ h h' => h.trans h'

theorem forall₂_antisymm {α : Type} {R : α → α → Prop} (hR : ∀ {x y}, R x y → R y x → x = y)
    {l l' : List α} (h : List.Forall₂ R l l') (h' : List.Forall₂ R l' l) : l = l' := by
  induction h with
  | nil => rfl
  | cons hxy _ ih =>
    cases h' with
    | cons hyx hrest => rw [hR hxy hyx, ih hrest]

theorem ParamsLe.antisymm {a b : List (List ParamFlags)} (h : ParamsLe a b) (h' : ParamsLe b a) :
    a = b :=
  forall₂_antisymm (fun h h' => forall₂_antisymm (fun h h' => h.antisymm h') h h') h h'

theorem forall₂_modify {α : Type} {R : α → α → Prop} (hrefl : ∀ x, R x x) {f : α → α}
    (hf : ∀ x, R x (f x)) (l : List α) (n : Nat) : List.Forall₂ R l (l.modify n f) := by
  induction l generalizing n with
  | nil => cases n <;> exact .nil
  | cons x l ih =>
    cases n with
    | zero =>
      rw [List.modify_zero_cons]
      exact .cons (hf x) (List.forall₂_same.mpr fun y _ => hrefl y)
    | succ n =>
      rw [List.modify_succ_cons]
      exact .cons (hrefl x) (ih n)

namespace FixTable

/-- What the first table has computed is in the second, no further along the order. -/
structure Below (o : TypeOrder) (t t' : FixTable) : Prop where
  loaded : t'.loaded = t.loaded
  bareLoaded : t'.bareLoaded = t.bareLoaded
  params : ParamsLe t.params t'.params
  read : ∀ slot ∉ t.uncomputed, slot ∉ t'.uncomputed ∧ o.le (t.read slot) (t'.read slot)

end FixTable

namespace Program

variable (p : Program)

theorem paramsLe_inheritAll (params : List (List ParamFlags)) (entries : List Inherited) :
    ParamsLe params (p.inheritAll params entries).1 := by
  have hfold : ∀ (entries : List Inherited) (params : List (List ParamFlags)) (changed : Finset Nat),
      ParamsLe params (entries.foldl (fun (state : List (List ParamFlags) × Finset Nat) e =>
        let raised := inherit state.1 e
        (raised, if raised = state.1 then state.2 else insert (p.slot e.function) state.2))
        (params, changed)).1 := by
    intro entries
    induction entries with
    | nil => exact fun params _ => .refl params
    | cons e entries ih =>
      intro params changed
      refine ParamsLe.trans ?_ (ih _ _)
      refine forall₂_modify (fun _ => List.forall₂_same.mpr fun flags _ => .refl flags) ?_ _ _
      exact fun flags => forall₂_modify .refl (fun x => ParamFlags.le_inheritNseFlags x e.flags) _ _
  exact hfold entries params ∅

theorem inheritAll_of_unchanged {params : List (List ParamFlags)} {entries : List Inherited}
    (h : (p.inheritAll params entries).2 = ∅) : (p.inheritAll params entries).1 = params :=
  List.ext_getElem? fun i => inheritAll_params (p := p) params entries (by rw [h]; exact Finset.notMem_empty _)

/-- Refinement and propagation are monotone. -/
structure Monotone (o : TypeOrder) : Prop where
  outcome : ∀ (t t' : FixTable) i, t.Below o t' → ∀ result, p.outcome t i = some result →
    ∃ result', p.outcome t' i = some result' ∧ o.le result result'
  s3 : ∀ t t' : FixTable, t.Below o t' →
    ParamsLe (p.propagateS3 t).1.params (p.propagateS3 t').1.params
  forwarded : ∀ t t' : FixTable, t.Below o t' →
    ParamsLe (p.propagateForwarded t).1.params (p.propagateForwarded t').1.params

/-- Refinement and propagation leave the table alone. -/
structure Closed (o : TypeOrder) (active : Finset Nat) (t : FixTable) : Prop where
  refined : ∀ i ∈ active, ∀ result, p.outcome t i = some result →
    p.slot i ∉ t.uncomputed ∧ o.le result (t.read (p.slot i))
  s3 : (p.propagateS3 t).1.params = t.params
  forwarded : (p.propagateForwarded t).1.params = t.params

/-! ## One refinement -/

/-- The table one refinement leaves. -/
structure Swept (index : Nat) (t t' : FixTable) : Prop where
  loaded : t.loaded ⊆ t'.loaded
  bareLoaded : t.bareLoaded ⊆ t'.bareLoaded
  params : t'.params = t.params
  other : ∀ slot, slot ≠ p.slot index → t'.read slot = t.read slot ∧
    (slot ∈ t'.uncomputed ↔ slot ∈ t.uncomputed)
  own : (t'.read (p.slot index) = t.read (p.slot index) ∧
      (p.slot index ∈ t'.uncomputed ↔ p.slot index ∈ t.uncomputed)) ∨
    ∃ result, p.outcome t index = some result ∧ (t'.read (p.slot index)).eq result

theorem table_refineOne (s : FixState) (index : Nat) :
    (s.refineOne p index).1.table = (p.sweepOne s.table index).1 := by
  unfold FixState.refineOne sweepOne
  cases p.outcome s.table index <;> rfl

theorem swept_sweepOne (t : FixTable) (index : Nat) : p.Swept index t (p.sweepOne t index).1 := by
  have hr := FixState.refined_refineOne (p := p) ⟨t, ∅, fun _ => ∅, ∅, false, false⟩ index
  have htable := p.table_refineOne ⟨t, ∅, fun _ => ∅, ∅, false, false⟩ index
  generalize FixState.refineOne p ⟨t, ∅, fun _ => ∅, ∅, false, false⟩ index = after at hr htable
  rw [← htable]
  refine ⟨?_, ?_, hr.params, hr.other, ?_⟩
  · rw [hr.loaded]
    exact Finset.subset_union_left
  · rw [hr.bareLoaded]
    exact Finset.subset_union_left
  · rcases hout : p.outcome t index with _ | result
    · obtain ⟨hreturns, huncomputed⟩ := hr.unchanged hout
      refine .inl ⟨?_, ?_⟩
      · rw [FixTable.read, hreturns, FixTable.read]
      · rw [huncomputed]
    · exact .inr ⟨result, rfl, (hr.stored result hout).2⟩

theorem sweepOne_of_unchanged {t : FixTable} {index : Nat} (h : (p.sweepOne t index).2 = false)
    (hloaded : (p.sweepOne t index).1.loaded = t.loaded)
    (hbare : (p.sweepOne t index).1.bareLoaded = t.bareLoaded) :
    (p.sweepOne t index).1 = t ∧ ∀ result, p.outcome t index = some result →
      p.slot index ∉ t.uncomputed ∧ (t.read (p.slot index)).eq result := by
  have hstored := (FixState.refined_refineOne (p := p) ⟨t, ∅, fun _ => ∅, ∅, false, false⟩
    index).stored
  rw [p.table_refineOne] at hstored
  have hsame : (p.sweepOne t index).1 = t := by
    have hnoted : (p.sweepOne t index).1.returns = t.returns ∧
        (p.sweepOne t index).1.uncomputed = t.uncomputed := by
      unfold sweepOne at h ⊢
      cases hout : p.outcome t index with
      | none => exact ⟨rfl, rfl⟩
      | some result =>
        rw [hout] at h
        have hstore := FixTable.storeReturn_of_unchanged _ _ _ h
        dsimp only
        rw [hstore]
        exact ⟨rfl, rfl⟩
    have hparams := (p.swept_sweepOne t index).params
    generalize (p.sweepOne t index).1 = t' at hnoted hparams hloaded hbare ⊢
    obtain ⟨returns, uncomputed, params, loaded, bareLoaded⟩ := t'
    obtain ⟨rfl, rfl⟩ := hnoted
    subst hparams hloaded hbare
    rfl
  refine ⟨hsame, fun result hout => ?_⟩
  have := hstored result hout
  rwa [hsame] at this

variable {p} {o : TypeOrder} {t t' t₀ : FixTable} {index : Nat}

/-- A refined function stays below a closed table. -/
theorem Swept.below {active : Finset Nat} {b : FixTable} (h : p.Swept index t t')
    (hmono : p.Monotone o) (hclosed : p.Closed o active b) (hindex : index ∈ active)
    (hloaded : t'.loaded = t.loaded) (hbare : t'.bareLoaded = t.bareLoaded) (hb : t.Below o b) :
    t'.Below o b := by
  refine ⟨hb.loaded.trans hloaded.symm, hb.bareLoaded.trans hbare.symm,
    by rw [h.params]; exact hb.params, fun slot hslot => ?_⟩
  by_cases hown : slot = p.slot index
  · subst hown
    rcases h.own with ⟨hread, hiff⟩ | ⟨result, hout, heq⟩
    · rw [hread]
      exact hb.read _ (hiff.not.mp hslot)
    · obtain ⟨result', hout', hle⟩ := hmono.outcome t b index hb result hout
      obtain ⟨hcomputed, hle'⟩ := hclosed.refined index hindex result' hout'
      exact ⟨hcomputed, o.trans (o.of_eq heq) (o.trans hle hle')⟩
  · obtain ⟨hread, hiff⟩ := h.other slot hown
    rw [hread]
    exact hb.read slot (hiff.not.mp hslot)

/-- A refined function stays above a table that has not computed it. -/
theorem Swept.above (h : p.Swept index t t') (hindex : p.slot index ∈ t₀.uncomputed)
    (hloaded : t'.loaded = t.loaded) (hbare : t'.bareLoaded = t.bareLoaded) (hb : t₀.Below o t) :
    t₀.Below o t' := by
  refine ⟨hloaded.trans hb.loaded, hbare.trans hb.bareLoaded,
    by rw [h.params]; exact hb.params, fun slot hslot => ?_⟩
  have hne : slot ≠ p.slot index := fun he => hslot (he ▸ hindex)
  obtain ⟨hread, hiff⟩ := h.other slot hne
  rw [hread, hiff]
  exact hb.read slot hslot

theorem below_propagateS3 {b : FixTable} (hmono : p.Monotone o)
    (hclosed : (p.propagateS3 b).1.params = b.params) (hb : t.Below o b) :
    (p.propagateS3 t).1.Below o b := by
  refine ⟨hb.loaded, hb.bareLoaded, ?_, hb.read⟩
  rw [← hclosed]
  exact hmono.s3 t b hb

theorem below_propagateForwarded {b : FixTable} (hmono : p.Monotone o)
    (hclosed : (p.propagateForwarded b).1.params = b.params) (hb : t.Below o b) :
    (p.propagateForwarded t).1.Below o b := by
  refine ⟨hb.loaded, hb.bareLoaded, ?_, hb.read⟩
  rw [← hclosed]
  exact hmono.forwarded t b hb

theorem above_propagateS3 (hb : t₀.Below o t) : t₀.Below o (p.propagateS3 t).1 :=
  ⟨hb.loaded, hb.bareLoaded, hb.params.trans (p.paramsLe_inheritAll _ _), hb.read⟩

theorem above_propagateForwarded (hb : t₀.Below o t) : t₀.Below o (p.propagateForwarded t).1 :=
  ⟨hb.loaded, hb.bareLoaded, hb.params.trans (p.paramsLe_inheritAll _ _), hb.read⟩

/-! ## Runs -/

/-- What the tables of both runs keep while no package is attached. -/
structure KeptBySweeping (p : Program) (active : Finset Nat) (Q : FixTable → Prop) : Prop where
  sweepOne : ∀ t, ∀ i ∈ active, (p.sweepOne t i).1.loaded = t.loaded →
    (p.sweepOne t i).1.bareLoaded = t.bareLoaded → Q t → Q (p.sweepOne t i).1
  s3 : ∀ t, Q t → Q (p.propagateS3 t).1
  forwarded : ∀ t, Q t → Q (p.propagateForwarded t).1

variable {active : Finset Nat}

theorem keptBySweeping_below {b : FixTable} (hmono : p.Monotone o)
    (hclosed : p.Closed o active b) : KeptBySweeping p active (·.Below o b) where
  sweepOne t i hi hloaded hbare hb :=
    (p.swept_sweepOne t i).below hmono hclosed hi hloaded hbare hb
  s3 _ hb := below_propagateS3 hmono hclosed.s3 hb
  forwarded _ hb := below_propagateForwarded hmono hclosed.forwarded hb

theorem keptBySweeping_above (ht₀ : ∀ i ∈ active, p.slot i ∈ t₀.uncomputed) :
    KeptBySweeping p active (t₀.Below o ·) where
  sweepOne t i hi hloaded hbare hb :=
    (p.swept_sweepOne t i).above (ht₀ i hi) hloaded hbare hb
  s3 _ hb := above_propagateS3 hb
  forwarded _ hb := above_propagateForwarded hb

/-- Nothing was widened, resolved to unknown or attached. -/
structure Quiet (t : FixTable) (s : FixState) : Prop where
  loaded : s.table.loaded = t.loaded
  bareLoaded : s.table.bareLoaded = t.bareLoaded
  widening : s.widening = false
  resolved : s.resolved = false

/-- What holds of the tables of a run for as long as it is quiet. -/
structure WhileQuiet (Q : FixTable → Prop) (t : FixTable) (s : FixState) : Prop where
  loaded : t.loaded ⊆ s.table.loaded
  bareLoaded : t.bareLoaded ⊆ s.table.bareLoaded
  holds : Quiet t s → Q s.table

variable {s : FixState}

theorem keptByRefining_whileQuiet {Q : FixTable → Prop} (hQ : KeptBySweeping p active Q)
    (t : FixTable) : KeptByRefining p active (WhileQuiet Q t) where
  pending _ _ h := ⟨h.loaded, h.bareLoaded, fun hq => h.holds ⟨hq.1, hq.2, hq.3, hq.4⟩⟩
  refineOne s i hi h := by
    have hr := FixState.refined_refineOne (p := p) s i
    have hswept := p.swept_sweepOne s.table i
    rw [← p.table_refineOne] at hswept
    refine ⟨h.loaded.trans hswept.loaded, h.bareLoaded.trans hswept.bareLoaded, fun hq => ?_⟩
    have hl : s.table.loaded = t.loaded :=
      Finset.Subset.antisymm (hswept.loaded.trans hq.loaded.subset) h.loaded
    have hb : s.table.bareLoaded = t.bareLoaded :=
      Finset.Subset.antisymm (hswept.bareLoaded.trans hq.bareLoaded.subset) h.bareLoaded
    have hloaded := hq.loaded.trans hl.symm
    have hbare := hq.bareLoaded.trans hb.symm
    rw [p.table_refineOne] at hloaded hbare ⊢
    exact hQ.sweepOne s.table i hi hloaded hbare
      (h.holds ⟨hl, hb, hr.widening.symm.trans hq.widening, hr.resolved.symm.trans hq.resolved⟩)
  widen s component h := by
    have hoff := FixState.SameOff.storeUnknowns (p := p) s.table (component.map p.slot)
    exact ⟨h.loaded.trans hoff.loaded.superset, h.bareLoaded.trans hoff.bareLoaded.superset,
      fun hq => absurd hq.widening (by simp [FixState.widen])⟩
  resolve s component h := by
    have hoff := FixState.SameOff.storeUnknowns (p := p) s.table
      ((s.stuck p component).map p.slot)
    exact ⟨h.loaded.trans hoff.loaded.superset, h.bareLoaded.trans hoff.bareLoaded.superset,
      fun hq => absurd hq.resolved (by simp [FixState.resolve])⟩

theorem whileQuiet_propagate {Q : FixTable → Prop} (hQ : KeptBySweeping p active Q)
    (h : WhileQuiet Q t s) : WhileQuiet Q t (p.propagate active s).1 :=
  ⟨h.loaded, h.bareLoaded, fun hq =>
    hQ.forwarded _ (hQ.s3 _ (h.holds ⟨hq.1, hq.2, hq.3, hq.4⟩))⟩

theorem whileQuiet_runPasses (hactive : ∀ i ∈ active, i < p.size) {Q : FixTable → Prop}
    (hQ : KeptBySweeping p active Q) (hstart : Q (p.startState active t).table) :
    WhileQuiet Q t
      (p.runPasses active maxFixpointDepth true (p.startState active t) true).1 :=
  (keptByRefining_whileQuiet hQ t).runPasses hactive (fun _ h => whileQuiet_propagate hQ h) _ _ _
    (working_startState active t)
    ⟨Finset.Subset.refl _, Finset.Subset.refl _, fun _ => hstart⟩

/-- A run that widened nothing lists nothing as widened. -/
theorem widened_runPasses (hactive : ∀ i ∈ active, i < p.size)
    (h : (p.runPasses active maxFixpointDepth true (p.startState active t) true).1.widening =
      false) :
    (p.runPasses active maxFixpointDepth true (p.startState active t) true).1.widened = ∅ := by
  have hK : KeptByRefining p active fun s => s.widening = false → s.widened = ∅ := by
    refine ⟨fun _ _ h => h, fun s i _ h hw => ?_, fun s component _ hw => ?_, fun _ _ h => h⟩
    · have hr := FixState.refined_refineOne (p := p) s i
      rw [hr.widened, h (hr.widening.symm.trans hw), Finset.erase_empty]
    · exact absurd hw (by simp [FixState.widen])
  exact hK.runPasses hactive (fun _ h => h) _ _ _ (working_startState active t) (fun _ => rfl) h

/-- Propagation changes no parameter of the table. -/
structure Propagated (p : Program) (t : FixTable) : Prop where
  s3 : (p.propagateS3 t).1.params = t.params
  forwarded : (p.propagateForwarded t).1.params = t.params

theorem Propagated.congr (h : p.Propagated t) (hparams : t'.params = t.params)
    (hloaded : t'.loaded = t.loaded) (hbare : t'.bareLoaded = t.bareLoaded) : p.Propagated t' := by
  obtain ⟨hs3, hforwarded⟩ := h
  unfold propagateS3 at hs3
  unfold propagateForwarded at hforwarded
  refine ⟨?_, ?_⟩
  · unfold propagateS3
    rw [hparams, hloaded, hbare]
    exact hs3
  · unfold propagateForwarded
    rw [hparams, hloaded, hbare]
    exact hforwarded

/-- Once a round of propagation changes nothing, the next would not either. -/
theorem propagated_of_unchanged (hs3 : (p.propagateS3 t).2 = ∅)
    (hforwarded : (p.propagateForwarded (p.propagateS3 t).1).2 = ∅) :
    (p.propagateForwarded (p.propagateS3 t).1).1 = t ∧ p.Propagated t := by
  have hparams : (p.propagateS3 t).1.params = t.params := p.inheritAll_of_unchanged hs3
  have hparams' : (p.propagateForwarded (p.propagateS3 t).1).1.params =
      (p.propagateS3 t).1.params := p.inheritAll_of_unchanged hforwarded
  have hsame : (p.propagateS3 t).1 = t := by
    unfold propagateS3 at hparams ⊢
    dsimp only at hparams ⊢
    rw [hparams]
  rw [hsame] at hparams' ⊢
  have hsame' : (p.propagateForwarded t).1 = t := by
    unfold propagateForwarded at hparams' ⊢
    dsimp only at hparams' ⊢
    rw [hparams']
  exact ⟨hsame', hparams, hparams'⟩

theorem propagated_propagate (h : (p.propagate active s).2 = false) :
    p.Propagated (p.propagate active s).1.table := by
  replace h := not_not.mp (of_decide_eq_false h)
  obtain ⟨hs3, hforwarded⟩ := Finset.union_eq_empty.mp h
  obtain ⟨hsame, hpropagated⟩ := propagated_of_unchanged hs3 hforwarded
  change p.Propagated (p.propagateForwarded (p.propagateS3 s.table).1).1
  rwa [hsame]

theorem keptByRefining_params (params : List (List ParamFlags)) :
    KeptByRefining p active fun s => s.table.params = params where
  pending _ _ h := h
  refineOne s i _ h := (FixState.refined_refineOne (p := p) s i).params.trans h
  widen s _ h := (FixState.params_storeUnknowns s.table _).trans h
  resolve s _ h := (FixState.params_storeUnknowns s.table _).trans h

theorem propagated_runPasses (hactive : ∀ i ∈ active, i < p.size)
    (h : (p.runPasses active maxFixpointDepth true (p.startState active t) true).2 = false) :
    p.Propagated
      (p.runPasses active maxFixpointDepth true (p.startState active t) true).1.table := by
  refine (runPasses_rule (J := fun s evaluationPending =>
      FixState.Working p active s.table [] s ∅ ∧ (evaluationPending = false → p.Propagated s.table))
    (fun first s evaluationPending ⟨hw, hs⟩ =>
      ⟨working_runPass hactive first evaluationPending hw, fun hclean => ?_⟩)
    maxFixpointDepth true (p.startState active t) true
    ⟨working_startState active t, fun h => nomatch h⟩).2 h
  obtain ⟨hafter, hparams⟩ := (keptByRefining_params s.table.params).runComponents hactive
    (fun _ hc _ hi => passComponents_lt hc hi) hw rfl
  change FixState.Working p active s.table [] (p.afterComponents first s) ∅ at hafter
  change (p.afterComponents first s).table.params = s.table.params at hparams
  obtain ⟨next, hnext, hpass⟩ := p.runPass_cases active first s evaluationPending
  have hnext' : next.2 = false := by
    rcases hpass with ⟨-, -, heq⟩ | heq
    · rwa [heq] at hclean
    · rw [heq] at hclean
      exact hclean
  have htable : (p.runPass active first s evaluationPending).1.table = next.1.table := by
    rcases hpass with ⟨-, -, heq⟩ | heq
    · rw [heq]
    · rw [heq]
  rw [htable]
  rcases hnext with rfl | ⟨hdone, hl, hb, rfl⟩
  · exact propagated_propagate hnext'
  · exact (hs hdone).congr hparams (Finset.eq_of_subset_of_card_le hafter.loaded hl.ge).symm
      (Finset.eq_of_subset_of_card_le hafter.bareLoaded hb.ge).symm

/-! ## The sweep's last round -/

theorem loaded_sweepAll (p : Program) (t : FixTable) (indices : List Nat) :
    t.loaded ⊆ (p.sweepAll t indices).1.loaded ∧
      t.bareLoaded ⊆ (p.sweepAll t indices).1.bareLoaded := by
  refine List.foldlRecOn (motive := fun after : FixTable × Bool =>
    t.loaded ⊆ after.1.loaded ∧ t.bareLoaded ⊆ after.1.bareLoaded) indices _
    ⟨Finset.Subset.refl _, Finset.Subset.refl _⟩ fun after h index _ => ?_
  have hswept := p.swept_sweepOne after.1 index
  exact ⟨h.1.trans hswept.loaded, h.2.trans hswept.bareLoaded⟩

theorem sweepAll_cons (p : Program) (t : FixTable) (index : Nat) (indices : List Nat) :
    p.sweepAll t (index :: indices) =
      ((p.sweepAll (p.sweepOne t index).1 indices).1,
        (p.sweepOne t index).2 || (p.sweepAll (p.sweepOne t index).1 indices).2) := by
  have hunfold : ∀ (indices : List Nat) (t : FixTable), p.sweepAll t indices =
      indices.foldl (fun (state : FixTable × Bool) index =>
        ((p.sweepOne state.1 index).1, state.2 || (p.sweepOne state.1 index).2)) (t, false) :=
    fun _ _ => rfl
  have hfold : ∀ (indices : List Nat) (t : FixTable) (changed : Bool),
      indices.foldl (fun (state : FixTable × Bool) index =>
        ((p.sweepOne state.1 index).1, state.2 || (p.sweepOne state.1 index).2)) (t, changed) =
      ((p.sweepAll t indices).1, changed || (p.sweepAll t indices).2) := by
    intro indices
    induction indices with
    | nil => intro t changed; simp [sweepAll]
    | cons index indices ih =>
      intro t changed
      simp only [hunfold, List.foldl_cons]
      rw [ih, ih]
      simp [Bool.or_assoc]
  rw [hunfold, List.foldl_cons, hfold]
  simp

/-- A property the sweep keeps holds after a round that attached nothing. -/
theorem KeptBySweeping.sweepAll {Q : FixTable → Prop} (hQ : KeptBySweeping p active Q)
    {indices : List Nat} (hindices : ∀ i ∈ indices, i ∈ active)
    (hloaded : (p.sweepAll t indices).1.loaded ⊆ t.loaded)
    (hbare : (p.sweepAll t indices).1.bareLoaded ⊆ t.bareLoaded) (h : Q t) :
    Q (p.sweepAll t indices).1 := by
  induction indices generalizing t with
  | nil => exact h
  | cons index indices ih =>
    rw [sweepAll_cons] at hloaded hbare ⊢
    have hswept := p.swept_sweepOne t index
    have hrest := loaded_sweepAll p (p.sweepOne t index).1 indices
    exact ih (fun i hi => hindices i (List.mem_cons_of_mem _ hi))
      (hloaded.trans hswept.loaded) (hbare.trans hswept.bareLoaded)
      (hQ.sweepOne t index (hindices index List.mem_cons_self)
        (Finset.Subset.antisymm (hrest.1.trans hloaded) hswept.loaded)
        (Finset.Subset.antisymm (hrest.2.trans hbare) hswept.bareLoaded) h)

/-- A round that changes nothing leaves the table as it was, and every return is the outcome of
its refinement. -/
theorem sweepAll_of_unchanged {indices : List Nat} (h : (p.sweepAll t indices).2 = false)
    (hloaded : (p.sweepAll t indices).1.loaded ⊆ t.loaded)
    (hbare : (p.sweepAll t indices).1.bareLoaded ⊆ t.bareLoaded) :
    (p.sweepAll t indices).1 = t ∧ ∀ i ∈ indices, ∀ result, p.outcome t i = some result →
      p.slot i ∉ t.uncomputed ∧ (t.read (p.slot i)).eq result := by
  induction indices with
  | nil => exact ⟨rfl, fun _ hi => absurd hi List.not_mem_nil⟩
  | cons index indices ih =>
    rw [sweepAll_cons] at h hloaded hbare ⊢
    obtain ⟨hone, hrest⟩ := Bool.or_eq_false_iff.mp h
    have hswept := p.swept_sweepOne t index
    have hgrow := loaded_sweepAll p (p.sweepOne t index).1 indices
    obtain ⟨hsame, hresult⟩ := p.sweepOne_of_unchanged hone
      (Finset.Subset.antisymm (hgrow.1.trans hloaded) hswept.loaded)
      (Finset.Subset.antisymm (hgrow.2.trans hbare) hswept.bareLoaded)
    rw [hsame] at hrest hloaded hbare ⊢
    obtain ⟨hall, hresults⟩ := ih hrest hloaded hbare
    refine ⟨hall, fun i hi => ?_⟩
    rcases List.mem_cons.mp hi with rfl | hi
    · exact hresult
    · exact hresults i hi

theorem mem_activeIn {scope : Option (Finset String)} {i : Nat} :
    i ∈ (List.range p.size).filter (· ∈ p.activeIn scope) ↔ i ∈ p.activeIn scope := by
  rw [List.mem_filter, decide_eq_true_eq]
  exact ⟨fun h => h.2, fun h => ⟨List.mem_range.mpr (p.mem_activeIn_lt h), h⟩⟩

theorem sweep_eq (p : Program) (active : Finset Nat) (t : FixTable) :
    p.sweep active t =
      let swept := p.sweepAll t ((List.range p.size).filter (· ∈ active))
      let s3 := p.propagateS3 swept.1
      let forwarded := p.propagateForwarded s3.1
      (forwarded.1, swept.2 || decide (s3.2 ≠ ∅) || decide (forwarded.2 ≠ ∅)) := rfl

section Sweeps

variable {scope : Option (Finset String)} {u : FixTable}

theorem KeptBySweeping.sweep {Q : FixTable → Prop} (hQ : KeptBySweeping p (p.activeIn scope) Q)
    (hloaded : (p.sweep (p.activeIn scope) t).1.loaded ⊆ t.loaded)
    (hbare : (p.sweep (p.activeIn scope) t).1.bareLoaded ⊆ t.bareLoaded) (h : Q t) :
    Q (p.sweep (p.activeIn scope) t).1 :=
  hQ.forwarded _ (hQ.s3 _ (hQ.sweepAll (fun _ hi => mem_activeIn.mp hi) hloaded hbare h))

theorem loaded_sweep (p : Program) (active : Finset Nat) (t : FixTable) :
    t.loaded ⊆ (p.sweep active t).1.loaded ∧ t.bareLoaded ⊆ (p.sweep active t).1.bareLoaded :=
  loaded_sweepAll p t _

/-- A sweep that changes nothing ran on a closed table. -/
theorem sweep_of_unchanged (scope : Option (Finset String)) (t : FixTable) (h : (p.sweep (p.activeIn scope) t).2 = false)
    (hloaded : (p.sweep (p.activeIn scope) t).1.loaded ⊆ t.loaded)
    (hbare : (p.sweep (p.activeIn scope) t).1.bareLoaded ⊆ t.bareLoaded) :
    (p.sweep (p.activeIn scope) t).1 = t ∧ p.Closed o (p.activeIn scope) t := by
  rw [sweep_eq] at h hloaded hbare ⊢
  have hloaded' : (p.sweepAll t ((List.range p.size).filter (· ∈ p.activeIn scope))).1.loaded ⊆
      t.loaded := hloaded
  have hbare' : (p.sweepAll t ((List.range p.size).filter (· ∈ p.activeIn scope))).1.bareLoaded ⊆
      t.bareLoaded := hbare
  generalize hswept : p.sweepAll t ((List.range p.size).filter (· ∈ p.activeIn scope)) = swept
    at h hloaded' hbare' ⊢
  dsimp only at h ⊢
  obtain ⟨hrest, hforwarded⟩ := Bool.or_eq_false_iff.mp h
  obtain ⟨hall, hs3⟩ := Bool.or_eq_false_iff.mp hrest
  rw [← hswept] at hall hloaded' hbare'
  obtain ⟨hsame, hresults⟩ := sweepAll_of_unchanged hall hloaded' hbare'
  rw [hswept] at hsame
  rw [hsame] at hs3 hforwarded ⊢
  obtain ⟨hprop, hpropagated⟩ := propagated_of_unchanged
    (not_not.mp (of_decide_eq_false hs3)) (not_not.mp (of_decide_eq_false hforwarded))
  refine ⟨hprop, fun i hi result hout => ?_, hpropagated.s3, hpropagated.forwarded⟩
  obtain ⟨hcomputed, heq⟩ := hresults i (mem_activeIn.mpr hi) result hout
  exact ⟨hcomputed, o.of_eq (RType.eq_symm heq)⟩

theorem loaded_sweeps (rounds : Nat) (h : p.sweeps active rounds t = some u) :
    t.loaded ⊆ u.loaded ∧ t.bareLoaded ⊆ u.bareLoaded := by
  induction rounds generalizing t with
  | zero => cases h
  | succ rounds ih =>
    have hgrow := loaded_sweep p active t
    unfold sweeps at h
    generalize p.sweep active t = swept at h hgrow
    dsimp only at h
    split at h
    · have := ih h
      exact ⟨hgrow.1.trans this.1, hgrow.2.trans this.2⟩
    · split at h
      · cases h; exact hgrow
      · have := ih h
        exact ⟨hgrow.1.trans this.1, hgrow.2.trans this.2⟩

/-- Before the sweep first finds nothing to do, its table is closed. -/
theorem sweeps_closed {Q : FixTable → Prop} (hQ : KeptBySweeping p (p.activeIn scope) Q)
    (rounds : Nat) (h : p.sweeps (p.activeIn scope) rounds t = some u)
    (hloaded : u.loaded ⊆ t.loaded) (hbare : u.bareLoaded ⊆ t.bareLoaded) (hq : Q t) :
    ∃ b, Q b ∧ p.Closed o (p.activeIn scope) b ∧ (b.uncomputed = ∅ → u = b) := by
  induction rounds generalizing t with
  | zero => cases h
  | succ rounds ih =>
    have hgrow := loaded_sweep p (p.activeIn scope) t
    have hkeep := hQ.sweep (t := t)
    have hsame := sweep_of_unchanged (p := p) (o := o) scope t
    unfold sweeps at h
    generalize p.sweep (p.activeIn scope) t = swept at h hgrow hkeep hsame
    dsimp only at h
    split at h
    · have hrest := loaded_sweeps rounds h
      have hl := hrest.1.trans hloaded
      have hb := hrest.2.trans hbare
      exact ih h (hloaded.trans hgrow.1) (hbare.trans hgrow.2) (hkeep hl hb hq)
    · rename_i hchanged
      rw [Bool.not_eq_true] at hchanged
      split at h
      · cases h
        obtain ⟨heq, hclosed⟩ := hsame hchanged hloaded hbare
        exact ⟨t, hq, hclosed, fun _ => heq⟩
      · rename_i hbottom
        have hrest := loaded_sweeps rounds h
        obtain ⟨heq, hclosed⟩ := hsame hchanged (hrest.1.trans hloaded) (hrest.2.trans hbare)
        rw [heq] at hbottom
        exact ⟨t, hq, hclosed, fun he => absurd he hbottom⟩

end Sweeps

theorem KeptBySweeping.and {Q R : FixTable → Prop} (hQ : KeptBySweeping p active Q)
    (hR : KeptBySweeping p active R) : KeptBySweeping p active fun t => Q t ∧ R t where
  sweepOne t i hi hl hb h := ⟨hQ.sweepOne t i hi hl hb h.1, hR.sweepOne t i hi hl hb h.2⟩
  s3 t h := ⟨hQ.s3 t h.1, hR.s3 t h.2⟩
  forwarded t h := ⟨hQ.forwarded t h.1, hR.forwarded t h.2⟩

theorem below_refl (t : FixTable) : t.Below o t :=
  ⟨rfl, rfl, .refl _, fun _ h => ⟨h, o.of_eq (RType.eq_refl _)⟩⟩

/-- With every return computed, a refinement always has an outcome. -/
theorem outcome_of_computed (h : t.uncomputed = ∅) (i : Nat) :
    p.outcome t i = some ((p.refine t i).result.getD .unknown) := by
  unfold outcome
  rw [h]
  cases (p.refine t i).result <;> simp

/-- A clean run that widened nothing ends in a closed table. -/
theorem closed_of_settled (hreads : p.DependsOnReads)
    (hw : FixState.Working p active s.table [] s ∅) (hpending : s.pending = ∅)
    (hwidened : s.widened = ∅) (hpropagated : p.Propagated s.table) :
    p.Closed o active s.table := by
  have huncomputed := uncomputed_of_working hw hpending
  refine ⟨fun i hi result hout => ?_, hpropagated.s3, hpropagated.forwarded⟩
  rw [outcome_of_computed huncomputed, Option.some_inj] at hout
  subst hout
  refine ⟨by rw [huncomputed]; exact Finset.notMem_empty _, o.of_eq (RType.eq_symm ?_)⟩
  rcases hw.covered rfl rfl i hi with hp | hq | hs | hv
  · rw [hpending] at hp
    exact absurd hp (Finset.notMem_empty i)
  · exact absurd hq (Finset.notMem_empty i)
  · exact eq_refinement_of_settled hreads huncomputed hs
  · exact absurd hv.1 (by rw [hwidened]; exact Finset.notMem_empty i)

/-- A quiet run and the sweep end in closed tables, each below the other. -/
theorem sweep_eq_of_quiet {scope : Option (Finset String)} {u : FixTable}
    (hreads : p.DependsOnReads) (hmono : p.Monotone o)
    (hs : s = (p.runPasses (p.activeIn scope) maxFixpointDepth true
      (p.startState (p.activeIn scope) t) true).1)
    (hclean : (p.runPasses (p.activeIn scope) maxFixpointDepth true
      (p.startState (p.activeIn scope) t) true).2 = false)
    (hpending : s.pending = ∅) (hquiet : Quiet t s) (hsweep : p.fullSweep scope t = some u)
    (hloaded : u.loaded = t.loaded) (hbare : u.bareLoaded = t.bareLoaded) :
    s.table.params = u.params ∧ ∀ slot, (s.table.read slot).eq (u.read slot) = true := by
  have hactive : ∀ i ∈ p.activeIn scope, i < p.size := fun _ => p.mem_activeIn_lt
  have hstart : ∀ i ∈ p.activeIn scope,
      p.slot i ∈ (p.startState (p.activeIn scope) t).table.uncomputed := fun i hi =>
    Finset.mem_image_of_mem _ hi
  have hw : FixState.Working p (p.activeIn scope) s.table [] s ∅ := by
    rw [hs]
    exact working_runPasses hactive _ _ _ (working_startState _ t)
  have huncomputed := uncomputed_of_working hw hpending
  have hwidening := hquiet.widening
  rw [hs] at hwidening
  have hclosed : p.Closed o (p.activeIn scope) s.table := by
    refine closed_of_settled hreads hw hpending ?_ ?_
    · rw [hs]; exact widened_runPasses hactive hwidening
    · rw [hs]; exact propagated_runPasses hactive hclean
  have habove : (p.startState (p.activeIn scope) t).table.Below o s.table := by
    have h := whileQuiet_runPasses (t := t) hactive (keptBySweeping_above (p := p) (o := o) hstart)
      (below_refl _)
    rw [← hs] at h
    exact h.holds hquiet
  -- the sweep's closed table lies between the start and the scheduler's table
  obtain ⟨b, ⟨hb, hbs⟩, hbclosed, hub⟩ := sweeps_closed (o := o)
    ((keptBySweeping_above hstart).and (keptBySweeping_below hmono hclosed)) 100 hsweep
    hloaded.subset hbare.subset ⟨below_refl _, habove⟩
  have hsb : s.table.Below o b := by
    have h := whileQuiet_runPasses (t := t) hactive (keptBySweeping_below hmono hbclosed) hb
    rw [← hs] at h
    exact h.holds hquiet
  have hnone : ∀ slot, slot ∉ s.table.uncomputed := fun slot => by
    rw [huncomputed]; exact Finset.notMem_empty slot
  have hbnone : ∀ slot, slot ∉ b.uncomputed := fun slot => (hsb.read slot (hnone slot)).1
  obtain rfl : u = b := hub (Finset.eq_empty_of_forall_notMem hbnone)
  exact ⟨hsb.params.antisymm hbs.params, fun slot =>
    o.antisymm (hsb.read slot (hnone slot)).2 (hbs.read slot (hbnone slot)).2⟩

/-- A run that ends with nothing pending leaves every active return equal to its refinement, or
widened; a quiet one ends where the full sweep does, in every order that refinement is monotone
in. -/
theorem fixpoint_settles (p : Program) (hreads : p.DependsOnReads)
    (scope : Option (Finset String)) (t : FixTable) {s : FixState}
    (hrun : p.runFixpointScoped scope t = (s, false)) (hpending : s.pending = ∅) :
    (∀ i ∈ p.activeIn scope,
      (s.table.read (p.slot i)).eq ((p.refine s.table i).result.getD .unknown) = true ∨
        i ∈ s.widened ∧ (s.table.read (p.slot i)).eq .unknown = true) ∧
    ∀ (o : TypeOrder) (u : FixTable), p.Monotone o → scope ≠ some ∅ → Quiet t s →
      p.fullSweep scope t = some u → u.loaded = t.loaded → u.bareLoaded = t.bareLoaded →
      s.table.params = u.params ∧ ∀ slot, (s.table.read slot).eq (u.read slot) = true := by
  have hactive : ∀ i ∈ p.activeIn scope, i < p.size := fun _ => p.mem_activeIn_lt
  by_cases hscope : scope = some ∅
  · refine ⟨fun i hi => ?_, fun _ _ _ hne => absurd hscope hne⟩
    subst hscope
    exact absurd (Finset.mem_filter.mp hi).2 (by simp)
  · unfold runFixpointScoped at hrun
    rw [if_neg hscope] at hrun
    obtain ⟨hstate, hclean⟩ := Prod.ext_iff.mp hrun
    dsimp only at hstate hclean
    have hw := working_runPasses (p := p) (s := p.startState (p.activeIn scope) t) hactive
      maxFixpointDepth true true (working_startState _ t)
    generalize hfinal : (p.runPasses (p.activeIn scope) maxFixpointDepth true
      (p.startState (p.activeIn scope) t) true).1 = final at hstate hw
    have hp : final.pending = ∅ := by rw [← hpending, ← hstate]
    have huncomputed := uncomputed_of_working hw hp
    have hfs : final = s := by
      rw [← hstate]
      obtain ⟨⟨returns, uncomputed, params, loaded, bareLoaded⟩, _⟩ := final
      subst huncomputed
      rfl
    subst hfs
    refine ⟨fun i hi => ?_, fun o u hmono _ hquiet hsweep hl hb =>
      sweep_eq_of_quiet hreads hmono hfinal.symm hclean hp hquiet hsweep hl hb⟩
    rcases hw.covered rfl rfl i hi with hpi | hq | hsettled | hwidened
    · rw [hp] at hpi
      exact absurd hpi (Finset.notMem_empty i)
    · exact absurd hq (Finset.notMem_empty i)
    · exact .inl (eq_refinement_of_settled hreads huncomputed hsettled)
    · exact .inr ⟨hwidened.1, hwidened.2.2⟩

/-! ## Small programs -/

/-- A program whose metadata inherits nothing. -/
def withoutMetadata (functions : List (String × Nat)) (h : (functions.map (·.2)).Nodup)
    (refine : FixTable → Nat → Refinement) : Program :=
  ⟨functions, h, refine, fun _ _ _ => [], fun _ _ _ => []⟩

def freshTable (functions : Nat) : FixTable :=
  ⟨List.replicate functions .unknown, ∅, List.replicate functions [], ∅, ∅⟩

def returning (result : Option RType) (reads : List Nat) : Refinement := ⟨result, reads, ∅, ∅⟩

/-- `a <- function() b()` and `b <- function() 1L`. -/
def callsConstant : Program :=
  withoutMetadata [("a", 0), ("b", 1)] (by decide) fun t index =>
    match index with
    | 0 => returning (if 1 ∈ t.uncomputed then none else some (t.read 1)) [1]
    | _ => returning (some (.scalar .integer)) []

/-- The order in which only equal types are comparable. -/
def flatOrder : TypeOrder where
  le a b := a.eq b = true
  of_eq h := h
  trans := RType.eq_trans
  antisymm h _ := h

theorem callsConstant_dependsOnReads : callsConstant.DependsOnReads := by
  intro i t t' h
  rcases i with _ | i
  · have hread := h.read 1 List.mem_cons_self
    have huncomputed := h.uncomputed 1 List.mem_cons_self
    simp [callsConstant, withoutMetadata, returning, hread, huncomputed]
  · rfl

theorem callsConstant_monotone : callsConstant.Monotone flatOrder := by
  refine ⟨fun t t' i h result hout => ?_, fun _ _ h => h.params, fun _ _ h => h.params⟩
  rcases i with _ | i
  · by_cases hb : 1 ∈ t.uncomputed
    · simp [outcome, callsConstant, withoutMetadata, returning, hb] at hout
    · obtain ⟨hb', hle⟩ := h.read 1 hb
      obtain rfl : t.read 1 = result := by
        simpa [outcome, callsConstant, withoutMetadata, returning, hb] using hout
      exact ⟨t'.read 1, by simp [outcome, callsConstant, withoutMetadata, returning, hb'], hle⟩
  · exact ⟨result, hout, RType.eq_refl result⟩

theorem fixpoint_settles_callsConstant :
    ∃ s u, callsConstant.runFixpointScoped none (freshTable 2) = (s, false) ∧ s.pending = ∅ ∧
      callsConstant.fullSweep none (freshTable 2) = some u ∧
      (∀ i ∈ callsConstant.activeIn none,
        (s.table.read (callsConstant.slot i)).eq
            ((callsConstant.refine s.table i).result.getD .unknown) = true ∨
          i ∈ s.widened ∧ (s.table.read (callsConstant.slot i)).eq .unknown = true) ∧
      s.table.params = u.params ∧ ∀ slot, (s.table.read slot).eq (u.read slot) = true := by
  have hclean : (callsConstant.runFixpointScoped none (freshTable 2)).2 = false := by
    decide +kernel
  have hpending : (callsConstant.runFixpointScoped none (freshTable 2)).1.pending = ∅ := by
    decide +kernel
  have hsweep : (callsConstant.fullSweep none (freshTable 2)).isSome = true := by decide +kernel
  obtain ⟨hsettled, horacle⟩ := fixpoint_settles callsConstant callsConstant_dependsOnReads none
    (freshTable 2) (Prod.ext rfl hclean) hpending
  exact ⟨_, (callsConstant.fullSweep none (freshTable 2)).get hsweep, Prod.ext rfl hclean, hpending,
    (Option.some_get hsweep).symm, hsettled, horacle flatOrder _ callsConstant_monotone
      (by decide) ⟨by decide +kernel, by decide +kernel, by decide +kernel, by decide +kernel⟩
      (Option.some_get hsweep).symm (by decide +kernel +revert) (by decide +kernel +revert)⟩

/-- `x <- function() length(x())` and `y <- function(n) if (n) x() else y(n - 1)`: the scheduler
resolves `x` before it reads `y`, the sweep both at once. -/
def itsOwnLength : Program :=
  withoutMetadata [("x", 0), ("y", 1)] (by decide) fun t index =>
    match index with
    | 0 => returning (if 0 ∈ t.uncomputed then none else some (.scalar .integer)) [0]
    | _ =>
      let x := if 0 ∈ t.uncomputed then none else some (t.read 0)
      let y := if 1 ∈ t.uncomputed then none else some (t.read 1)
      returning ((x.bind fun a => y.map a.join).or (x.or y)) [0, 1]

/-- `b` keeps the first return it sees of `a`. -/
def keepsFirst : Program :=
  withoutMetadata [("a", 0), ("b", 1)] (by decide) fun t index =>
    match index with
    | 0 => returning (some (.scalar (if 0 ∈ t.uncomputed then .logical else .integer))) [0]
    | _ =>
      returning (if 1 ∉ t.uncomputed then some (t.read 1)
        else if 0 ∉ t.uncomputed then some (t.read 0) else none) [0, 1]

/-- `m` attaches a package in a round that changes no return. -/
def attachesLate : Program :=
  withoutMetadata [("a", 0), ("m", 1), ("z", 2)] (by decide) fun t index =>
    match index with
    | 0 => returning (some (.scalar (if "purrr" ∈ t.loaded then .integer else .logical))) []
    | 1 => ⟨some (.scalar .logical), [2], if 2 ∈ t.uncomputed then ∅ else {"purrr"}, ∅⟩
    | _ => returning (some (.scalar .logical)) []

/-- The parameter of `f` inherits quoting. -/
def inheritsQuoting : Program :=
  { withoutMetadata [("f", 0)] (by decide) fun _ _ => returning (some .unknown) [] with
    s3Inherited := fun _ _ _ => [⟨0, 0, ⟨true, false, none⟩⟩] }

/-- A run that ends with nothing pending or widened, and not where the full sweep does. -/
def endsApart (p : Program) (scope : Option (Finset String)) (t : FixTable) : Bool :=
  let (s, evaluationPending) := p.runFixpointScoped scope t
  decide (s.pending = ∅) && !evaluationPending && !s.widening &&
    (p.fullSweep scope t).any fun u =>
      decide (s.table.params ≠ u.params) ||
        (List.range p.size).any fun i => !(s.table.read (p.slot i)).eq (u.read (p.slot i))

/-- A bottom resolved to unknown, a refinement that is not monotone, a package attached late and an
empty scope each keep the scheduler from the sweep's table. -/
theorem scheduler_apart_from_sweep :
    (itsOwnLength.DependsOnReads ∧ endsApart itsOwnLength none (freshTable 2) = true) ∧
    (keepsFirst.DependsOnReads ∧ endsApart keepsFirst none (freshTable 2) = true) ∧
    (attachesLate.DependsOnReads ∧ endsApart attachesLate none (freshTable 3) = true) ∧
    (inheritsQuoting.DependsOnReads ∧
      endsApart inheritsQuoting (some ∅) ⟨[.unknown], ∅, [[⟨false, false, none⟩]], ∅, ∅⟩ =
        true) := by
  refine ⟨⟨fun i t t' h => ?_, by decide +kernel⟩, ⟨fun i t t' h => ?_, by decide +kernel⟩,
    ⟨fun i t t' h => ?_, by decide +kernel⟩, ⟨fun _ _ _ _ => rfl, by decide +kernel⟩⟩
  · rcases i with _ | i
    · have huncomputed := h.uncomputed 0 List.mem_cons_self
      simp [itsOwnLength, withoutMetadata, returning, huncomputed]
    · have h0 : 0 ∈ (itsOwnLength.refine t (i + 1)).reads := List.mem_cons_self
      have h1 : 1 ∈ (itsOwnLength.refine t (i + 1)).reads := by
        exact List.mem_cons_of_mem _ List.mem_cons_self
      simp [itsOwnLength, withoutMetadata, returning, h.uncomputed 0 h0, h.uncomputed 1 h1,
        h.read 0 h0, h.read 1 h1]
  · rcases i with _ | i
    · have huncomputed := h.uncomputed 0 List.mem_cons_self
      simp [keepsFirst, withoutMetadata, returning, huncomputed]
    · have h0 : 0 ∈ (keepsFirst.refine t (i + 1)).reads := List.mem_cons_self
      have h1 : 1 ∈ (keepsFirst.refine t (i + 1)).reads :=
        List.mem_cons_of_mem _ List.mem_cons_self
      simp [keepsFirst, withoutMetadata, returning, h.uncomputed 0 h0, h.uncomputed 1 h1,
        h.read 0 h0, h.read 1 h1]
  · rcases i with _ | _ | i
    · simp [attachesLate, withoutMetadata, returning, h.loaded]
    · rfl
    · rfl

end Program

end Ry
