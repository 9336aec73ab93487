import Ry.Infer.MergeName

/-! # The journal's merge computes the merge of each name

`Deltas.holds_merge`: over faithful deltas, the journal's merge gives every name the state
`IfStatement.mergeState` names, and beside the names what `IfStatement.mergeRest` says.
The stages are taken in the source's order; each is a loop over distinct names.
-/

namespace Ry

/-- What an arm leaves beside its names. -/
structure ArmRest where
  failed : Finset String
  uncertainty : Uncertainty
  dataMaskEnvUnknown : Bool

namespace IfStatement

variable (c : IfStatement) (ends : Ends)

/-- Beside the names, before they are written. -/
def settledRest (base : Scope) (t e : ArmRest) : Scope :=
  { base.blanked with
    failedNamespaces := joinFailedNamespaces base.failedNamespaces t.failed e.failed
      (c.thenLeaves ends) (c.elseLeaves ends)
    uncertainty := base.uncertainty.or
      ((t.uncertainty.continuing (c.thenLeaves ends)).or
        (e.uncertainty.continuing (c.elseLeaves ends))) }

def maskRest (base : Scope) (t e : ArmRest) : Scope :=
  let merging := mergingArms ends.inLoop c.hasElse (thenReaches ends) (c.elseReaches ends)
  if merging.1 && t.dataMaskEnvUnknown || merging.2 && e.dataMaskEnvUnknown then
    base.invalidateDataMaskEnv
  else base

def endRest (base : Scope) : Scope :=
  if c.hasElse && ends.thenUnreachable && ends.elseUnreachable then
    { base with unreachable := true }
  else base

/-- Beside the names, after a merge that raised the escaped-slot flag or did not. -/
def mergeRest (base : Scope) (t e : ArmRest) (raised : Bool) : Scope :=
  c.endRest ends ((c.maskRest ends (c.settledRest ends base t e) t e).raiseEscaped raised)

end IfStatement

/-! ## Box objects stay absent -/

namespace BindingState

theorem boxAfterWrite_none {st : BindingState} (h : st.boxObject = none) (ty : RType) :
    st.boxAfterWrite ty = none := by
  simp [boxAfterWrite, h]

theorem boxObject_afterMerged {st : BindingState} (h : st.boxObject = none) (journaling : Bool)
    (write : Option (RType × Bool)) : (st.afterMerged journaling write).boxObject = none := by
  match write with
  | none => exact h
  | some (ty, true) => exact boxAfterWrite_none h ty
  | some (ty, false) => exact boxAfterWrite_none h ty

theorem boxObject_afterFact {st : BindingState} (h : st.boxObject = none) (journaling : Bool)
    (fact : Option RType × Bool) : (st.afterFact journaling fact).boxObject = none := by
  match fact with
  | (none, _) => exact h
  | (some ty, true) => exact boxAfterWrite_none h ty
  | (some ty, false) => exact boxAfterWrite_none h ty

theorem boxObject_afterGuard {st : BindingState} (h : st.boxObject = none)
    (fact : Option RType) : (fact.elim st st.afterNarrowed).boxObject = none := by
  cases fact with
  | none => exact h
  | some ty => exact boxAfterWrite_none h ty

theorem withBoxObject_none {st : BindingState} (h : st.boxObject = none) :
    st.withBoxObject none = st := by
  simp [withBoxObject, h]

end BindingState

namespace Deltas

def thenRest (d : Deltas) : ArmRest :=
  ⟨d.thenFailed, d.thenDelta.uncertainty, d.thenDelta.dataMaskEnvUnknown⟩

def elseRest (d : Deltas) : ArmRest :=
  ⟨d.elseFailed, d.elseDelta.uncertainty, d.elseDelta.dataMaskEnvUnknown⟩

variable {d : Deltas} (c : IfStatement) (order : IterOrder) {s T E : Scope}
  (hthen : d.thenDelta.Faithful s T) (helse : d.elseDelta.Faithful s E)

/-! ## The stages -/

theorem holds_joinUncertainty {t : Scope} {i : Nat} {names : String → BindingState} {r : Scope}
    (ht : t.Holds i names r) (u : Uncertainty) :
    Scope.Holds { t with uncertainty := t.uncertainty.or u } i names
      { r with uncertainty := r.uncertainty.or u } := by
  refine ⟨ht.depth, ht.capture, ?_⟩
  rw [← ht.rest]
  rfl

theorem ends_clearTables (d : Deltas) (t : Scope) : d.ends t.clearTables = d.ends t := by
  have hread := Scope.read_of_visible d.ends (fun _ => rfl) (Scope.visible_clearTables t)
  exact hread

theorem holds_dropFacts {t : Scope} {i : Nat} {names : String → BindingState} {r : Scope}
    (ht : t.Holds i names r) :
    (d.dropFacts c t).Holds i names
      { r.blanked with
        uncertainty := r.uncertainty.or
          ((d.thenDelta.uncertainty.continuing (c.thenLeaves (d.ends t))).or
            (d.elseDelta.uncertainty.continuing (c.elseLeaves (d.ends t)))) } := by
  have hdrop := holds_joinUncertainty ht.clearTables
    ((d.thenDelta.uncertainty.continuing (c.thenLeaves (d.ends t.clearTables))).or
      (d.elseDelta.uncertainty.continuing (c.elseLeaves (d.ends t.clearTables))))
  rw [ends_clearTables] at hdrop
  refine Eq.mp ?_ hdrop
  rw [dropFacts, ← Scope.clearTables, ends_clearTables]
  rfl

theorem holds_maskBindings {t : Scope} {i : Nat} {names : String → BindingState} {r : Scope}
    (ht : t.Holds i names r) :
    (d.maskBindings c t).Holds i names (c.maskRest (d.ends t) r d.thenRest d.elseRest) := by
  simp only [maskBindings, IfStatement.maskRest]
  have hloop : t.loopFrame.isSome = (d.ends t).inLoop := rfl
  rw [hloop]
  split
  · rename_i h
    rw [if_pos (by exact h)]
    refine ⟨ht.depth, ht.capture, ?_⟩
    rw [← ht.rest]
    rfl
  · rename_i h
    rw [if_neg (by exact h)]
    exact ht

/-- What a continuing arm's view gives a name. -/
def continuationFactOver (d : Deltas) (s : Scope) (name : String) : Option RType × Bool :=
  (c.continuationArm (d.ends s) d.thenDelta d.elseDelta).elim (none, false) fun delta =>
    let binding := delta.binding s name (s.get name)
    (binding.ty, binding.defaultParameter)

def unionGuardFactOver (d : Deltas) (s : Scope) (name : String) : Option RType :=
  c.guardFact (d.ends s) (d.returnDiverges c s) (s.get name)
    (marked s.defaultParameterBindings name) (d.thenDelta.binding s name (s.get name))
    (d.elseDelta.binding s name (s.get name))

theorem foldl_continuationFacts (d : Deltas) (s t : Scope) :
    (d.continuationFacts c order s).foldl (fun s fact => s.insertFact order fact.1 fact.2) t =
      (order.list c.narrowed).foldl
        (fun t name => t.insertFact order name (d.continuationFactOver c s name)) t := by
  unfold continuationFacts continuationFactOver
  cases c.continuationArm (d.ends s) d.thenDelta d.elseDelta with
  | none => exact (List.foldl_fixed' (fun _ => rfl) _).symm
  | some delta => simp only [Option.elim_some, List.foldl_map]

theorem foldl_unionGuardFacts (d : Deltas) (s t : Scope) :
    (d.unionGuardFacts c order s).foldl (fun s fact => s.insertNarrowed fact.1 fact.2) t =
      (order.list c.narrowed).foldl
        (fun t name => (d.unionGuardFactOver c s name).elim t (t.insertNarrowed name)) t := by
  rw [unionGuardFacts, List.foldl_filterMap]
  congr 1
  funext t name
  rw [← unionGuardFactOver]
  cases d.unionGuardFactOver c s name <;> rfl

theorem inFrame_of_holds {s t : Scope} {i : Nat} {names : String → BindingState} {r : Scope}
    (ht : t.Holds i names r) (hr : r.Blank) (hloop : r.loopFrame = s.loopFrame) :
    d.InFrame i (d.ends s) t where
  blank := ht.blank hr
  depth := ht.depth
  ends := ends_of_rest ((congrArg Scope.loopFrame ht.rest).trans hloop)

/-! ## What the stages read -/

section Reads

variable {u : Scope} {n : String}
  (hview : (u.capture n).view = (s.facts n).view)
include hthen helse hview

theorem writeOver_eq_mergeWrite (ends : Ends) :
    d.writeOver c ends n (u.capture n) =
      c.mergeWrite ends (s.capture n) (T.facts n) (E.facts n) n := by
  have ht := hthen.read n (·.view) (fun _ => rfl) hview
  have he := helse.read n (·.view) (fun _ => rfl) hview
  have hty : (u.capture n).ty = (s.capture n).ty := congrArg BindingView.ty hview
  rw [writeOver, IfStatement.mergeWrite, ht, he, hty]

theorem continuationFactOver_eq (hn : n ∈ c.narrowed) :
    d.continuationFactOver c u n = c.continuationFact (d.ends u) (T.facts n) (E.facts n) n := by
  have ht := hthen.read n (·.view) (fun _ => rfl) hview
  have he := helse.read n (·.view) (fun _ => rfl) hview
  simp only [continuationFactOver, IfStatement.continuationFact, if_pos hn,
    BranchDelta.binding_eq_overlay]
  unfold IfStatement.continuationArm
  split
  · exact congrArg (fun v : BindingView => (v.ty, v.defaultParameter)) he
  · exact congrArg (fun v : BindingView => (v.ty, v.defaultParameter)) he
  · exact congrArg (fun v : BindingView => (v.ty, v.defaultParameter)) ht
  · rfl

theorem unionGuardFactOver_eq (hn : n ∈ c.narrowed) :
    d.unionGuardFactOver c u n =
      c.unionGuardFact (d.ends u) (s.capture n) (T.facts n) (E.facts n) (d.returnDiverges c u) n
    := by
  have ht := hthen.read n (·.view) (fun _ => rfl) hview
  have he := helse.read n (·.view) (fun _ => rfl) hview
  have hty : u.get n = (s.capture n).ty := congrArg BindingView.ty hview
  have hdefault : marked u.defaultParameterBindings n = (s.capture n).markers.defaultParameter :=
    congrArg BindingView.defaultParameter hview
  simp only [unionGuardFactOver, IfStatement.unionGuardFact, if_pos hn,
    BranchDelta.binding_eq_overlay, ht, he]
  rw [hty, hdefault]

omit hview in
theorem marked_loopVectorsAfter
    (hvector : (u.capture n).markers.loopVector = (s.facts n).markers.loopVector) :
    marked (d.loopVectorsAfter c u) n =
      c.keepsVector (d.ends u) (s.capture n) (T.facts n) (E.facts n) := by
  have ht := hthen.read n (·.markers.loopVector) (fun _ => rfl) hvector
  have he := helse.read n (·.markers.loopVector) (fun _ => rfl) hvector
  have hkeeps : d.keepsLoopVector c u n =
      c.keepsVector (d.ends u) (s.capture n) (T.facts n) (E.facts n) := by
    have hbase : marked u.loopVectorBindings n = (s.capture n).markers.loopVector := hvector
    simp only [keepsLoopVector, IfStatement.keepsVector, BranchDelta.loopVector_eq_overlay, ht, he,
      hbase]
  have hnamed : d.keepsLoopVector c u n = true →
      n ∈ u.loopVectorBindings ∪ d.thenDelta.loopVectorNames ∪ d.elseDelta.loopVectorNames := by
    have hread : ∀ delta : BranchDelta, delta.loopVector u n = true →
        n ∈ u.loopVectorBindings ∨ n ∈ delta.loopVectorNames := by
      intro delta h
      unfold BranchDelta.loopVector at h
      cases hentry : delta.changed.lookup n with
      | none => exact .inl (by simpa [hentry, marked] using h)
      | some st =>
        refine .inr ?_
        rw [BranchDelta.loopVectorNames, Finset.mem_filter, Table.mem_keys_iff, hentry]
        exact ⟨rfl, by simpa [hentry] using h⟩
    intro h
    simp only [Finset.mem_union]
    simp only [keepsLoopVector, Bool.or_eq_true, Bool.and_eq_true] at h
    rcases h with h | h
    · have := hread _ h.2
      tauto
    · have h := h.2
      split at h
      · have := hread _ h
        tauto
      · exact .inl (.inl (by simpa [marked] using h))
  rw [← hkeeps, loopVectorsAfter, marked]
  cases hkeep : d.keepsLoopVector c u n with
  | false => simp [hkeep]
  | true => simp only [Finset.mem_filter, hnamed hkeep, hkeep, and_self, decide_true]

end Reads

/-! ## Box objects -/

/-- The names `joinBoxProvenance` visits. -/
def boxNames (s : Scope) (paths : List (Option BranchDelta)) : Finset String :=
  paths.foldl (fun names path => path.elim names fun delta => names ∪ delta.boxObjectNames)
    s.boxObjects.keys

theorem mem_foldl_boxObjectNames {n : String} {paths : List (Option BranchDelta)}
    {names : Finset String} :
    n ∈ paths.foldl (fun names path => path.elim names fun delta => names ∪ delta.boxObjectNames)
        names ↔
      n ∈ names ∨ ∃ delta, some delta ∈ paths ∧ n ∈ delta.boxObjectNames := by
  induction paths generalizing names with
  | nil => simp
  | cons path paths ih =>
    rw [List.foldl_cons, ih]
    cases path with
    | none => simp
    | some delta => simp [or_assoc]

theorem joinBoxProvenance_eq (s : Scope) (paths : List (Option BranchDelta)) :
    joinBoxProvenance order s paths = (order.list (boxNames s paths)).filterMap fun n =>
      (joinBoxes (paths.map (·.elim (s.boxObjects.lookup n) (·.boxObject s n)))).map (n, ·) := by
  rw [joinBoxProvenance, boxNames]
  congr 1
  funext n
  cases paths <;> rfl

/-- A name no path has an object for has none on any path. -/
theorem boxObject_none_of_not_mem {u : Scope} {n : String} {paths : List (Option BranchDelta)}
    (hn : n ∉ boxNames u paths) :
    u.boxObjects.lookup n = none ∧
      ∀ path ∈ paths, path.elim (u.boxObjects.lookup n) (·.boxObject u n) = none := by
  rw [boxNames, mem_foldl_boxObjectNames, not_or, Table.mem_keys_iff] at hn
  have hbase : u.boxObjects.lookup n = none := by simpa using hn.1
  refine ⟨hbase, fun path hpath => ?_⟩
  cases path with
  | none => exact hbase
  | some delta =>
    have hnamed : n ∉ delta.boxObjectNames := fun h => hn.2 ⟨delta, hpath, h⟩
    rw [BranchDelta.boxObjectNames, Finset.mem_filter, Table.mem_keys_iff] at hnamed
    simp only [Option.elim_some, BranchDelta.boxObject]
    cases hentry : delta.changed.lookup n with
    | none => exact hbase
    | some st => simpa [hentry] using hnamed

theorem joinBoxes_of_none {objects : List (Option BoxObject)} (h : ∀ o ∈ objects, o = none) :
    joinBoxes objects = none ∨ joinBoxes objects = some none := by
  cases objects with
  | nil => exact .inl rfl
  | cons first others =>
    have hfirst := h first List.mem_cons_self
    subst hfirst
    have hothers : ∀ o ∈ others, o = none := fun o ho => h o (List.mem_cons_of_mem _ ho)
    exact .inr (by simpa [joinBoxes] using hothers)

include hthen helse in
theorem map_boxPaths {u : Scope} {n : String}
    (hbox : (u.capture n).boxObject = (s.facts n).boxObject) :
    (d.boxPaths c u).map (·.elim (u.boxObjects.lookup n) (·.boxObject u n)) =
      c.boxPathObjects (d.ends u) (s.capture n) (T.facts n) (E.facts n) := by
  have ht := hthen.read n (·.boxObject) (fun _ => rfl) hbox
  have he := helse.read n (·.boxObject) (fun _ => rfl) hbox
  have hbase : u.boxObjects.lookup n = (s.capture n).boxObject := hbox
  simp only [boxPaths, IfStatement.boxPathObjects, ← ht, ← he, ← hbase,
    ← BranchDelta.boxObject_eq_overlay]
  split <;> split <;> (try split) <;> rfl

/-! ## The whole merge -/

/-- The escaped-slot flag is raised where a type is written under a name that may mask a
slot. -/
def raises (c : IfStatement) (ends : Ends) (returns : Bool × Bool)
    (b t e : String → BindingState) : Prop :=
  ∃ n, c.writesType ends (b n) (t n) (e n) returns n = true ∧ escapedNameMayMaskSlot n = true

section Stages

include hthen helse in
theorem holds_settledFacts :
    (d.dropFacts c (d.settle c order s)).Holds s.journal.depth
      (fun n => c.settled (d.ends s) (s.capture n) (T.facts n) (E.facts n))
      (c.settledRest (d.ends s) s.rest d.thenRest d.elseRest) := by
  have hsettle := holds_settle c order hthen helse
  have hloop := congrArg Scope.loopFrame hsettle.rest
  have hends : d.ends (d.settle c order s) = d.ends s := ends_of_rest hloop
  have hdrop := holds_dropFacts (d := d) c hsettle
  rw [hends] at hdrop
  exact hdrop

include hthen helse in
theorem holds_mergedBindings :
    ∃ raised, (raised = true ↔ ∃ n, (c.mergeWrite (d.ends s) (s.capture n) (T.facts n) (E.facts n)
        n).isSome = true ∧ escapedNameMayMaskSlot n = true) ∧
      ((d.changedNames order).foldl (d.mergeBinding c order)
        (d.dropFacts c (d.settle c order s))).Holds s.journal.depth
      (fun n => (c.settled (d.ends s) (s.capture n) (T.facts n) (E.facts n)).afterMerged
        (decide (0 < s.journal.depth))
        (c.mergeWrite (d.ends s) (s.capture n) (T.facts n) (E.facts n) n))
      ((c.settledRest (d.ends s) s.rest d.thenRest d.elseRest).raiseEscaped raised) := by
  have hdrop := holds_settledFacts c order hthen helse
  have hwrite : ∀ n, d.writeOver c (d.ends s) n
      (c.settled (d.ends s) (s.capture n) (T.facts n) (E.facts n)) =
      c.mergeWrite (d.ends s) (s.capture n) (T.facts n) (E.facts n) n := by
    intro n
    have hview := writeOver_eq_mergeWrite c hthen helse
      (u := d.dropFacts c (d.settle c order s)) (n := n)
      (by rw [hdrop.capture n]; rfl) (d.ends s)
    rwa [hdrop.capture n] at hview
  -- a name no arm changed has nothing to merge
  have hquiet : ∀ n, n ∉ d.changedNames order →
      c.mergeWrite (d.ends s) (s.capture n) (T.facts n) (E.facts n) n = none := by
    intro n hn
    rw [mem_changedNames, not_or] at hn
    have ht := hthen.facts_of_none (Option.not_isSome_iff_eq_none.mp hn.1)
    have he := helse.facts_of_none (Option.not_isSome_iff_eq_none.mp hn.2)
    rw [ht, he]
    exact c.mergeWrite_of_unchanged (d.ends s) rfl rfl n
  have hmerge := holds_mergeBindings (inFrame_of_holds (d := d) (s := s) hdrop rfl rfl) c order hdrop
  simp only [hwrite] at hmerge
  refine ⟨_, ?_, hmerge.congr (fun n => ?_) rfl⟩
  · rw [List.any_eq_true]
    refine exists_congr fun n => ?_
    rw [Bool.and_eq_true]
    refine and_iff_right_of_imp fun h => ?_
    by_contra hn
    simp [hquiet n hn] at h
  · split
    · rfl
    · rename_i hn
      rw [hquiet n hn]
      rfl

include hthen helse in
theorem ends_settle : d.ends (d.settle c order s) = d.ends s :=
  have hloop := congrArg Scope.loopFrame (holds_settle c order hthen helse).rest
  ends_of_rest hloop

include hthen helse in
theorem view_settle (n : String) :
    ((d.settle c order s).capture n).view = (s.facts n).view := by
  rw [(holds_settle c order hthen helse).capture n]
  rfl

include hthen helse in
/-- The facts of the continuation, one name at a time. -/
theorem holds_facts {t : Scope} {i : Nat} {names : String → BindingState} {r : Scope}
    (ht : t.Holds i names r) (hr : r.Blank) (hloop : r.loopFrame = s.loopFrame) :
    ∃ raised, (raised = true ↔ ∃ n, (c.continuationFact (d.ends s) (T.facts n) (E.facts n)
        n).1.isSome = true ∧ escapedNameMayMaskSlot n = true) ∧
      ((order.list c.narrowed).foldl (fun t name => t.insertFact order name
        (d.continuationFactOver c (d.settle c order s) name)) t).Holds i
      (fun n => (names n).afterFact (decide (0 < i))
        (c.continuationFact (d.ends s) (T.facts n) (E.facts n) n))
      (r.raiseEscaped raised) := by
  have hfact : ∀ n ∈ c.narrowed, d.continuationFactOver c (d.settle c order s) n =
      c.continuationFact (d.ends s) (T.facts n) (E.facts n) n := fun n hn => by
    rw [continuationFactOver_eq c hthen helse (view_settle c order hthen helse n) hn,
      ends_settle c order hthen helse]
  have hall := holds_insertFacts (inFrame_of_holds (d := d) ht hr hloop) order ht
    (d.continuationFactOver c (d.settle c order s)) c.narrowed
  refine ⟨_, ?_, hall.congr (fun n => ?_) rfl⟩
  · rw [List.any_eq_true]
    refine exists_congr fun n => ?_
    rw [order.mem, Bool.and_eq_true]
    by_cases hn : n ∈ c.narrowed
    · simp only [hn, true_and, hfact n hn]
    · simp [hn, IfStatement.continuationFact]
  · split
    · rename_i hn
      rw [hfact n hn]
    · rename_i hn
      rw [IfStatement.continuationFact, if_neg hn]
      rfl

include hthen helse in
theorem holds_guards {t : Scope} {i : Nat} {names : String → BindingState} {r : Scope}
    (ht : t.Holds i names r) (hr : r.Blank) (hloop : r.loopFrame = s.loopFrame) :
    ∃ raised, (raised = true ↔ ∃ n, (c.unionGuardFact (d.ends s) (s.capture n) (T.facts n)
        (E.facts n) (d.returnDiverges c (d.settle c order s)) n).isSome = true
          ∧ escapedNameMayMaskSlot n = true) ∧
      ((order.list c.narrowed).foldl (fun t name =>
        (d.unionGuardFactOver c (d.settle c order s) name).elim t (t.insertNarrowed name)) t).Holds
      i
      (fun n => (c.unionGuardFact (d.ends s) (s.capture n) (T.facts n) (E.facts n)
        (d.returnDiverges c (d.settle c order s)) n).elim (names n) (names n).afterNarrowed)
      (r.raiseEscaped raised) := by
  have hfact : ∀ n ∈ c.narrowed, d.unionGuardFactOver c (d.settle c order s) n =
      c.unionGuardFact (d.ends s) (s.capture n) (T.facts n) (E.facts n)
        (d.returnDiverges c (d.settle c order s)) n := fun n hn => by
    rw [unionGuardFactOver_eq c hthen helse (view_settle c order hthen helse n) hn,
      ends_settle c order hthen helse]
  have hall := holds_guardFacts (inFrame_of_holds (d := d) ht hr hloop) order ht
    (d.unionGuardFactOver c (d.settle c order s)) c.narrowed
  refine ⟨_, ?_, hall.congr (fun n => ?_) rfl⟩
  · rw [List.any_eq_true]
    refine exists_congr fun n => ?_
    rw [order.mem, Bool.and_eq_true]
    by_cases hn : n ∈ c.narrowed
    · simp only [hn, true_and, hfact n hn]
    · simp [hn, IfStatement.unionGuardFact]
  · split
    · rename_i hn
      rw [hfact n hn]
    · rename_i hn
      rw [IfStatement.unionGuardFact, if_neg hn]
      rfl

include hthen helse in
/-- The objects every path agrees on, over names written as `mergeState` writes them. -/
theorem holds_boxes {t : Scope} {i : Nat} {names : String → BindingState} {r : Scope}
    (ht : t.Holds i names r)
    (hnone : ∀ n, (s.capture n).boxObject = none → (names n).boxObject = none) :
    (t.applyBoxProvenance (joinBoxProvenance order (d.forgetLexicals c order s)
        (d.boxPaths c (d.forgetLexicals c order s)))).Holds i
      (fun n => (joinBoxes (c.boxPathObjects (d.ends s) (s.capture n) (T.facts n)
        (E.facts n))).elim (names n) (names n).withBoxObject) r := by
  have hforget := holds_forgetLexicals c order hthen helse
  have hloop := congrArg Scope.loopFrame hforget.rest
  have hends : d.ends (d.forgetLexicals c order s) = d.ends s := ends_of_rest hloop
  have hbox : ∀ n, ((d.forgetLexicals c order s).capture n).boxObject = (s.facts n).boxObject := by
    intro n
    rw [hforget.capture n]
    rfl
  have hpaths := fun n => map_boxPaths c hthen helse (hbox n)
  simp only [hends] at hpaths
  rw [joinBoxProvenance_eq]
  simp only [hpaths]
  refine (ht.applyBoxes order _ _).congr (fun n => ?_) rfl
  split
  · rfl
  · rename_i hn
    have hquiet := boxObject_none_of_not_mem hn
    have hname : (names n).boxObject = none := hnone n ((hbox n).symm.trans hquiet.1)
    have hobjects := joinBoxes_of_none (List.forall_mem_map.mpr hquiet.2)
    rw [hpaths] at hobjects
    rcases hobjects with h | h
    · rw [h]
      rfl
    · rw [h]
      exact (BindingState.withBoxObject_none hname).symm

theorem raises_iff {ends : Ends} {returns : Bool × Bool} {b t e : String → BindingState}
    {m f g : Bool}
    (hm : m = true ↔ ∃ n, (c.mergeWrite ends (b n) (t n) (e n) n).isSome = true
      ∧ escapedNameMayMaskSlot n = true)
    (hf : f = true ↔ ∃ n, (c.continuationFact ends (t n) (e n) n).1.isSome = true
      ∧ escapedNameMayMaskSlot n = true)
    (hg : g = true ↔ ∃ n, (c.unionGuardFact ends (b n) (t n) (e n) returns n).isSome = true
      ∧ escapedNameMayMaskSlot n = true) :
    (m || (f || g)) = true ↔ raises c ends returns b t e := by
  simp only [Bool.or_eq_true, hm, hf, hg, raises, IfStatement.writesType, ← exists_or,
    ← or_and_right, or_assoc]

theorem raiseEscaped_maskRest (ends : Ends) (base : Scope) (t e : ArmRest) (raised : Bool) :
    c.maskRest ends (base.raiseEscaped raised) t e = (c.maskRest ends base t e).raiseEscaped raised
    := by
  simp only [IfStatement.maskRest]
  split <;> rfl

theorem tables_maskRest (ends : Ends) (base : Scope) (t e : ArmRest) :
    (c.maskRest ends base t e).tables = base.tables := by
  simp only [IfStatement.maskRest]
  split <;> rfl

theorem loopFrame_maskRest (ends : Ends) (base : Scope) (t e : ArmRest) :
    (c.maskRest ends base t e).loopFrame = base.loopFrame := by
  simp only [IfStatement.maskRest]
  split <;> rfl

theorem holds_closePath {t : Scope} {i : Nat} {names : String → BindingState} {r : Scope}
    (ht : t.Holds i names r) (s : Scope) :
    (d.closePath c t).Holds i names (c.endRest (d.ends s) r) := by
  unfold closePath IfStatement.endRest
  split
  · rename_i h
    rw [if_pos (by exact h)]
    exact ⟨ht.depth, ht.capture, congrArg (fun r : Scope => { r with unreachable := true }) ht.rest⟩
  · rename_i h
    rw [if_neg (by exact h)]
    exact ht

include hthen helse in
/-- The journal's merge, name by name and beside the names. -/
theorem holds_merge :
    ∃ raised, (raised = true ↔ raises c (d.ends s) (d.returnDiverges c (d.settle c order s))
        s.capture T.facts E.facts) ∧
      (d.merge c order s).Holds s.journal.depth
        (fun n => c.mergeState (d.ends s) (s.capture n) (T.facts n) (E.facts n)
          (decide (0 < s.journal.depth)) (d.returnDiverges c (d.settle c order s)) n)
        (c.mergeRest (d.ends s) s.rest d.thenRest d.elseRest raised) := by
  obtain ⟨m, hm, hmerge⟩ := holds_mergedBindings c order hthen helse
  have hmask := holds_maskBindings (d := d) c hmerge
  have hloop := congrArg Scope.loopFrame hmerge.rest
  rw [ends_of_rest (s := s) hloop, raiseEscaped_maskRest] at hmask
  have hblank : ((c.maskRest (d.ends s) (c.settledRest (d.ends s) s.rest d.thenRest d.elseRest)
      d.thenRest d.elseRest).raiseEscaped m).Blank :=
    (tables_maskRest c _ _ _ _).trans rfl
  have hframe : ((c.maskRest (d.ends s) (c.settledRest (d.ends s) s.rest d.thenRest d.elseRest)
      d.thenRest d.elseRest).raiseEscaped m).loopFrame = s.loopFrame :=
    (loopFrame_maskRest c _ _ _ _).trans rfl
  obtain ⟨f, hf, hfacts⟩ := holds_facts c order hthen helse hmask hblank hframe
  obtain ⟨g, hg, hguards⟩ := holds_guards c order hthen helse hfacts hblank hframe
  have hvectors := hguards.setLoopVectors order (d.loopVectorsAfter c (d.settle c order s))
  have hsettle := holds_settle c order hthen helse
  have hvector : ∀ n, marked (d.loopVectorsAfter c (d.settle c order s)) n =
      c.keepsVector (d.ends s) (s.capture n) (T.facts n) (E.facts n) := fun n => by
    rw [← ends_settle c order hthen helse]
    exact marked_loopVectorsAfter c hthen helse (by rw [hsettle.capture n]; rfl)
  simp only [hvector] at hvectors
  have hboxes := holds_boxes c order hthen helse hvectors fun n hn => by
    have hsettled : (c.settled (d.ends s) (s.capture n) (T.facts n) (E.facts n)).boxObject = none :=
      hn
    have hmerged := BindingState.boxObject_afterMerged hsettled (decide (0 < s.journal.depth))
      (c.mergeWrite (d.ends s) (s.capture n) (T.facts n) (E.facts n) n)
    exact BindingState.boxObject_afterGuard (BindingState.boxObject_afterFact hmerged _ _) _
  refine ⟨m || (f || g), raises_iff c hm hf hg, ?_⟩
  rw [IfStatement.mergeRest, ← Scope.raiseEscaped_raiseEscaped,
    ← Scope.raiseEscaped_raiseEscaped]
  refine holds_closePath c ?_ s
  simp only [setLoopVectors, installFacts, foldl_continuationFacts, foldl_unionGuardFacts]
  exact hboxes

end Stages

end Deltas

end Ry
