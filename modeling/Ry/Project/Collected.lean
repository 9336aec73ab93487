import Ry.Lib.Merging
import Ry.Project.Definitions
import Ry.S4.Inventory

/-! # The tables of a project's files, merged

`FnTable::append_collected` of `lib.rs`, which `project.rs` folds over the files.  A captured
literal of one file is rebound by what another may write, whichever of the two comes first.
-/

namespace Ry

/-- Bindings some code may replace. -/
structure WriteSet where
  names : Finset String
  /-- Some write is one that no name summarizes. -/
  isOpaque : Bool

namespace WriteSet

def mayWrite (w : WriteSet) (name : String) : Bool := w.isOpaque || marked w.names name

def extend (w other : WriteSet) : WriteSet :=
  ⟨w.names ∪ other.names, w.isOpaque || other.isOpaque⟩

end WriteSet

/-- A function literal by its source identity: the path, and where it starts and ends. -/
abbrev CaptureId := String × Nat × Nat

structure CallSite where
  /-- The syntactic qualifier, if any. -/
  package : Option String
  /-- Each argument's optional exact name. -/
  arguments : List (Option String)

structure ForwardedCall where
  caller : String
  callee : String
  stubCallee : String
  callerParams : List Param
  arguments : List (Option String × Option String)
  callStart : Nat

abbrev ReturnSlots := List RType

structure FnTable where
  functions : Definitions
  /-- The S4 registrations, which the source keeps among the functions. -/
  s4 : S4.S4Inventory
  captureLiteralBindings : Table String (Finset CaptureId)
  reboundAfterCapture : Finset CaptureId
  captureWrites : WriteSet
  unprovenTopLevel : Bool
  hasEscapedBindingNames : Bool
  hasEscapedOperatorNames : Bool
  hasEscapedSlotNames : Bool
  mayInstallBindings : Bool
  s3Methods : Table (String × String) Nat
  registeredS3Methods : Finset String
  unrecordedGlobalLiterals : Finset String
  knownVars : Finset String
  superassigned : Finset String
  callableVars : Finset String
  callSites : Table String (List CallSite)
  forwardedCalls : List ForwardedCall

/-- What is collected of one file. -/
structure CollectedFile where
  fnTable : FnTable
  returnSlots : ReturnSlots

def FnTable.default : FnTable where
  functions := .empty
  s4 := .empty
  captureLiteralBindings := ∅
  reboundAfterCapture := ∅
  captureWrites := ⟨∅, false⟩
  unprovenTopLevel := false
  hasEscapedBindingNames := false
  hasEscapedOperatorNames := false
  hasEscapedSlotNames := false
  mayInstallBindings := false
  s3Methods := ∅
  registeredS3Methods := ∅
  unrecordedGlobalLiterals := ∅
  knownVars := ∅
  superassigned := ∅
  callableVars := ∅
  callSites := ∅
  forwardedCalls := []

def CollectedFile.default : CollectedFile := ⟨.default, []⟩

/-- Mark the literals a write set may rebind as no longer captured. -/
def rebindCaptured (order : IterOrder) (rebound : Finset CaptureId) (writes : WriteSet)
    (literals : Table String (Finset CaptureId)) : Finset CaptureId :=
  (order.list literals.keys).foldl
    (fun rebound name =>
      if writes.mayWrite name then rebound ∪ (literals.lookup name).getD ∅ else rebound)
    rebound

/-- The names a later file binds over. -/
def FnTable.replaced (self collected : FnTable) : Finset String :=
  collected.functions.live.keys.filter fun name => (self.functions.live.lookup name).isSome

/-- Merge a later file's table; the order is that in which its hash maps are gone over. -/
def appendCollected (self : CollectedFile) (later : IterOrder × CollectedFile) : CollectedFile :=
  let (order, ⟨collected, collectedSlots⟩) := later
  let ⟨table, returnSlots⟩ := self
  let slotOffset := returnSlots.length
  let rebound := rebindCaptured order table.reboundAfterCapture collected.captureWrites
    table.captureLiteralBindings
  let rebound := rebindCaptured order rebound table.captureWrites
    collected.captureLiteralBindings
  let replaced := table.replaced collected
  { returnSlots := returnSlots ++ collectedSlots
    fnTable :=
      { functions := table.functions.append collected.functions order slotOffset
        s4 := table.s4.append collected.s4
        captureLiteralBindings :=
          .mergeWith (· ∪ ·) table.captureLiteralBindings collected.captureLiteralBindings
        reboundAfterCapture := rebound ∪ collected.reboundAfterCapture
        captureWrites := table.captureWrites.extend collected.captureWrites
        unprovenTopLevel := table.unprovenTopLevel || collected.unprovenTopLevel
        hasEscapedBindingNames := table.hasEscapedBindingNames || collected.hasEscapedBindingNames
        hasEscapedOperatorNames :=
          table.hasEscapedOperatorNames || collected.hasEscapedOperatorNames
        hasEscapedSlotNames := table.hasEscapedSlotNames || collected.hasEscapedSlotNames
        mayInstallBindings := table.mayInstallBindings || collected.mayInstallBindings
        s3Methods := table.s3Methods.extend (collected.s3Methods.mapValues fun _ slot =>
          slot + slotOffset)
        registeredS3Methods := table.registeredS3Methods ∪ collected.registeredS3Methods
        unrecordedGlobalLiterals :=
          table.unrecordedGlobalLiterals ∪ collected.unrecordedGlobalLiterals
        knownVars := table.knownVars ∪ collected.knownVars
        superassigned := table.superassigned ∪ collected.superassigned
        callableVars := table.callableVars ∪ collected.callableVars
        callSites := .mergeWith (· ++ ·) table.callSites collected.callSites
        forwardedCalls :=
          (table.forwardedCalls.filter fun call => !marked replaced call.caller) ++
            collected.forwardedCalls } }

/-- The tables of the files, merged in order. -/
def mergeCollected (files : List (IterOrder × CollectedFile)) : CollectedFile :=
  files.foldl appendCollected .default

/-! ## What one table makes of another -/

/-- The write set may rebind the captured literal. -/
def MayRebind (writes : WriteSet) (literals : Table String (Finset CaptureId)) (id : CaptureId) :
    Prop :=
  ∃ name definitions, literals.lookup name = some definitions ∧ writes.mayWrite name = true ∧
    id ∈ definitions

theorem mem_rebindCaptured {order : IterOrder} {rebound : Finset CaptureId} {writes : WriteSet}
    {literals : Table String (Finset CaptureId)} {id : CaptureId} :
    id ∈ rebindCaptured order rebound writes literals ↔
      id ∈ rebound ∨ MayRebind writes literals id := by
  have hfold (names : List String) : ∀ rebound : Finset CaptureId, id ∈ names.foldl
      (fun rebound name =>
        if writes.mayWrite name then rebound ∪ (literals.lookup name).getD ∅ else rebound)
      rebound ↔ id ∈ rebound ∨ ∃ name ∈ names, writes.mayWrite name = true ∧
        id ∈ (literals.lookup name).getD ∅ := by
    induction names with
    | nil => simp
    | cons name names ih =>
      intro rebound
      rw [List.foldl_cons, ih]
      by_cases h : writes.mayWrite name = true <;> simp [h, or_assoc]
  unfold rebindCaptured
  rw [hfold]
  refine or_congr_right ⟨?_, ?_⟩
  · rintro ⟨name, -, hwrite, hid⟩
    cases hliterals : literals.lookup name with
    | none => simp [hliterals] at hid
    | some definitions =>
      exact ⟨name, definitions, hliterals, hwrite, by simpa [hliterals] using hid⟩
  · rintro ⟨name, definitions, hliterals, hwrite, hid⟩
    refine ⟨name, ?_, hwrite, by simpa [hliterals] using hid⟩
    rw [order.mem, Table.mem_keys_iff, hliterals]
    rfl

theorem mayRebind_extend {w w' : WriteSet} {literals : Table String (Finset CaptureId)}
    {id : CaptureId} :
    MayRebind (w.extend w') literals id ↔ MayRebind w literals id ∨ MayRebind w' literals id := by
  have hwrite (name : String) : (w.extend w').mayWrite name = true ↔
      w.mayWrite name = true ∨ w'.mayWrite name = true := by
    simp only [WriteSet.mayWrite, WriteSet.extend, marked, Bool.or_eq_true, decide_eq_true_eq,
      Finset.mem_union]
    tauto
  simp only [MayRebind, hwrite]
  grind

theorem mayRebind_mergeWith {w : WriteSet} {literals literals' : Table String (Finset CaptureId)}
    {id : CaptureId} : MayRebind w (.mergeWith (· ∪ ·) literals literals') id ↔
      MayRebind w literals id ∨ MayRebind w literals' id := by
  simp only [MayRebind, Table.lookup_mergeWith]
  constructor
  · rintro ⟨name, definitions, hmerged, hwrite, hid⟩
    cases h : literals.lookup name <;> cases h' : literals'.lookup name <;>
      simp only [h, h', Option.merge, Option.some.injEq, reduceCtorEq] at hmerged <;>
      subst hmerged
    · exact .inr ⟨name, _, h', hwrite, hid⟩
    · exact .inl ⟨name, _, h, hwrite, hid⟩
    · rcases Finset.mem_union.mp hid with hid | hid
      · exact .inl ⟨name, _, h, hwrite, hid⟩
      · exact .inr ⟨name, _, h', hwrite, hid⟩
  · rintro (⟨name, definitions, h, hwrite, hid⟩ | ⟨name, definitions, h, hwrite, hid⟩)
    · cases h' : literals'.lookup name with
      | none => exact ⟨name, definitions, by rw [h, h']; rfl, hwrite, hid⟩
      | some other =>
        exact ⟨name, definitions ∪ other, by rw [h, h']; rfl, hwrite, Finset.mem_union_left _ hid⟩
    · cases h' : literals.lookup name with
      | none => exact ⟨name, definitions, by rw [h, h']; rfl, hwrite, hid⟩
      | some other =>
        exact ⟨name, other ∪ definitions, by rw [h, h']; rfl, hwrite, Finset.mem_union_right _ hid⟩

/-- What either file may write of the literals of the other is found whichever is merged first. -/
theorem crossMerge_appendCollected : Merging.CrossMerge appendCollected
    (fun self => {id | id ∈ self.fnTable.reboundAfterCapture})
    (fun self later => {id |
      MayRebind later.2.fnTable.captureWrites self.fnTable.captureLiteralBindings id ∨
        MayRebind self.fnTable.captureWrites later.2.fnTable.captureLiteralBindings id})
    (fun later => {id | id ∈ later.2.fnTable.reboundAfterCapture})
    (fun f g => {id |
      MayRebind g.2.fnTable.captureWrites f.2.fnTable.captureLiteralBindings id}) where
  own_op self later := by
    ext id
    simp only [appendCollected, Finset.mem_union, mem_rebindCaptured, Set.mem_ofPred_eq,
      Set.mem_union]
    tauto
  cross_op self later c := by
    ext id
    simp only [appendCollected, mayRebind_extend, mayRebind_mergeWith, Set.mem_ofPred_eq,
      Set.mem_union]
    tauto

theorem mem_rebound_mergeCollected (files : List (IterOrder × CollectedFile)) (id : CaptureId) :
    id ∈ (mergeCollected files).fnTable.reboundAfterCapture ↔
      (∃ f ∈ files, id ∈ f.2.fnTable.reboundAfterCapture) ∨
        Merging.Apart files fun f g =>
          MayRebind g.2.fnTable.captureWrites f.2.fnTable.captureLiteralBindings id := by
  have hfold := crossMerge_appendCollected.mem_foldl .default files id
  have hliterals (w : WriteSet) : ¬MayRebind w ∅ id := by
    rintro ⟨name, definitions, h, -⟩
    rw [Finmap.lookup_empty] at h
    cases h
  have hwrites (literals : Table String (Finset CaptureId)) : ¬MayRebind ⟨∅, false⟩ literals id := by
    rintro ⟨name, definitions, -, h, -⟩
    cases h
  simpa [mergeCollected, CollectedFile.default, FnTable.default, hliterals, hwrites] using hfold

/-! ## The order of the files -/

/-- What does not depend on the order in which files are merged. -/
structure FnTable.SameMarks (t u : FnTable) : Prop where
  rebound : t.reboundAfterCapture = u.reboundAfterCapture
  literals : t.captureLiteralBindings = u.captureLiteralBindings
  writes : t.captureWrites = u.captureWrites
  knownVars : t.knownVars = u.knownVars
  superassigned : t.superassigned = u.superassigned
  unprovenTopLevel : t.unprovenTopLevel = u.unprovenTopLevel
  escapedBindings : t.hasEscapedBindingNames = u.hasEscapedBindingNames
  escapedOperators : t.hasEscapedOperatorNames = u.hasEscapedOperatorNames
  escapedSlots : t.hasEscapedSlotNames = u.hasEscapedSlotNames
  mayInstall : t.mayInstallBindings = u.mayInstallBindings
  s4Incomplete : t.s4.allIncomplete = u.s4.allIncomplete
  s4Computed : t.s4.computedName = u.s4.computedName

instance : Std.Commutative WriteSet.extend where
  comm w w' := by rw [WriteSet.extend, WriteSet.extend, Finset.union_comm, Bool.or_comm]

instance : Std.Associative WriteSet.extend where
  assoc w w' w'' := by simp only [WriteSet.extend, Finset.union_assoc, Bool.or_assoc]

/-- A field that each step combines with that of the later file is the same for every order. -/
theorem mergeCollected_perm {B : Type} {g : B → B → B} [RightCommutative g]
    {f : CollectedFile → B}
    (hstep : ∀ self later, f (appendCollected self later) = g (f self) (f later.2))
    {files files' : List (IterOrder × CollectedFile)}
    (hperm : (files.map Prod.snd).Perm (files'.map Prod.snd)) :
    f (mergeCollected files) = f (mergeCollected files') := by
  have hfold (files : List (IterOrder × CollectedFile)) : f (mergeCollected files) =
      ((files.map Prod.snd).map f).foldl g (f .default) := by
    rw [List.map_map, List.foldl_map]
    exact (List.foldl_hom f fun self later => (hstep self later).symm).symm
  rw [hfold, hfold]
  exact (hperm.map f).foldl_eq _

/-- A flag that is set once some file sets it. -/
theorem mergeCollected_flag {f : CollectedFile → Bool}
    (hstep : ∀ self later, f (appendCollected self later) = (f self || f later.2))
    {files files' : List (IterOrder × CollectedFile)}
    (hperm : (files.map Prod.snd).Perm (files'.map Prod.snd)) :
    f (mergeCollected files) = f (mergeCollected files') :=
  mergeCollected_perm hstep hperm

theorem mergeCollected_rebound {files files' : List (IterOrder × CollectedFile)}
    (hperm : (files.map Prod.snd).Perm (files'.map Prod.snd)) :
    (mergeCollected files).fnTable.reboundAfterCapture =
      (mergeCollected files').fnTable.reboundAfterCapture := by
  have hmem (files : List (IterOrder × CollectedFile)) (id : CaptureId) :
      id ∈ (mergeCollected files).fnTable.reboundAfterCapture ↔
        (∃ c ∈ files.map Prod.snd, id ∈ c.fnTable.reboundAfterCapture) ∨
          Merging.Apart (files.map Prod.snd) fun c d =>
            MayRebind d.fnTable.captureWrites c.fnTable.captureLiteralBindings id := by
    rw [mem_rebound_mergeCollected, Merging.apart_map]
    simp only [List.mem_map, exists_exists_and_eq_and]
  ext id
  rw [hmem, hmem, Merging.Apart.perm hperm]
  simp only [hperm.mem_iff]

/-- The merged set has each file's own literals and those that another file may write, and no field
that the merge combines depends on the order of the files, nor on that of any hash map. -/
theorem mergeCollected_order (files : List (IterOrder × CollectedFile)) :
    (∀ id, id ∈ (mergeCollected files).fnTable.reboundAfterCapture ↔
      (∃ f ∈ files, id ∈ f.2.fnTable.reboundAfterCapture) ∨
        Merging.Apart files fun f g =>
          MayRebind g.2.fnTable.captureWrites f.2.fnTable.captureLiteralBindings id) ∧
    ∀ files', (files.map Prod.snd).Perm (files'.map Prod.snd) →
      (mergeCollected files).fnTable.SameMarks (mergeCollected files').fnTable := by
  refine ⟨mem_rebound_mergeCollected files, fun files' hperm => ?_⟩
  exact {
    rebound := mergeCollected_rebound hperm
    literals := mergeCollected_perm (g := .mergeWith (· ∪ ·))
      (f := fun c => c.fnTable.captureLiteralBindings) (fun _ _ => rfl) hperm
    writes := mergeCollected_perm (g := .extend) (f := fun c => c.fnTable.captureWrites)
      (fun _ _ => rfl) hperm
    knownVars := mergeCollected_perm (g := (· ∪ ·)) (f := fun c => c.fnTable.knownVars)
      (fun _ _ => rfl) hperm
    superassigned := mergeCollected_perm (g := (· ∪ ·)) (f := fun c => c.fnTable.superassigned)
      (fun _ _ => rfl) hperm
    unprovenTopLevel := mergeCollected_flag (f := fun c => c.fnTable.unprovenTopLevel)
      (fun _ _ => rfl) hperm
    escapedBindings := mergeCollected_flag (f := fun c => c.fnTable.hasEscapedBindingNames)
      (fun _ _ => rfl) hperm
    escapedOperators := mergeCollected_flag (f := fun c => c.fnTable.hasEscapedOperatorNames)
      (fun _ _ => rfl) hperm
    escapedSlots := mergeCollected_flag (f := fun c => c.fnTable.hasEscapedSlotNames)
      (fun _ _ => rfl) hperm
    mayInstall := mergeCollected_flag (f := fun c => c.fnTable.mayInstallBindings)
      (fun _ _ => rfl) hperm
    s4Incomplete := mergeCollected_flag (f := fun c => c.fnTable.s4.allIncomplete)
      (fun _ _ => rfl) hperm
    s4Computed := mergeCollected_flag (f := fun c => c.fnTable.s4.computedName)
      (fun _ _ => rfl) hperm }

/-- A file whose global literal `f` is captured. -/
def capturingFile : CollectedFile :=
  ⟨{ FnTable.default with
      captureLiteralBindings := (∅ : Table String (Finset CaptureId)).insert "f" {("a.R", 0, 10)} },
    []⟩

/-- A file that writes `f`. -/
def writingFile : CollectedFile :=
  ⟨{ FnTable.default with captureWrites := ⟨{"f"}, false⟩ }, []⟩

theorem mergeCollected_order_two :
    ("a.R", 0, 10) ∈ (mergeCollected
      [(.sorted, writingFile), (.sorted, capturingFile)]).fnTable.reboundAfterCapture ∧
    (mergeCollected [(.sorted, writingFile), (.sorted, capturingFile)]).fnTable.SameMarks
      (mergeCollected [(.sorted, capturingFile), (.sorted, writingFile)]).fnTable := by
  obtain ⟨hrebound, hperm⟩ := mergeCollected_order
    [(.sorted, writingFile), (.sorted, capturingFile)]
  refine ⟨(hrebound _).mpr (.inr ?_), hperm _ (List.Perm.swap _ _ _)⟩
  exact ⟨1, 0, _, _, by decide, rfl, rfl, "f", {("a.R", 0, 10)}, Finmap.lookup_insert _, rfl,
    Finset.mem_singleton_self _⟩

end Ry
