import Ry.Lib.Pointwise
import Ry.Scope.Visible

/-! # One name at a time

What a mutator that writes one name does, said of that name alone: `Rewrites` gives the
name's new state, says that no other name's changed, and that beside the names only the
flag for escaped slot names may have.  A loop of such writes over distinct names then
rewrites each of them from the state it had before the loop.

A scope is what it records about each name and the `rest`.
-/

namespace Ry

namespace Scope

/-- What a scope holds beside the names and the journal. -/
def rest (s : Scope) : Scope :=
  { s with
    journal := ⟨[], 0⟩
    bindings := .empty
    narrowedBindings := ∅
    parameterBindings := ∅
    scalarAssertedBindings := ∅
    loopVectorBindings := ∅
    listOriginBindings := ∅
    defaultParameterBindings := ∅
    lexicalFunctions := ∅
    lexicalDefinitions := ∅
    functionAliases := ∅
    boxObjects := ∅
    referenceProvenance := s.referenceProvenance.map fun p => { p with bindings := ∅ } }

/-- The escaped-slot flag, raised or left. -/
def raiseEscaped (s : Scope) (raised : Bool) : Scope :=
  { s with uncertainty := { s.uncertainty with
      escapedSlotNames := s.uncertainty.escapedSlotNames || raised } }

@[simp] theorem raiseEscaped_false (s : Scope) : s.raiseEscaped false = s := by
  simp [raiseEscaped]

@[simp] theorem raiseEscaped_raiseEscaped (s : Scope) (a b : Bool) :
    (s.raiseEscaped a).raiseEscaped b = s.raiseEscaped (a || b) := by
  simp [raiseEscaped, Bool.or_assoc]

theorem provenance_eq_of_rest {t s : Scope}
    (hrest : t.referenceProvenance.map (fun p => { p with bindings := ∅ })
      = s.referenceProvenance.map fun p => { p with bindings := ∅ })
    (hnames : ∀ n, t.provenanceOf n = s.provenanceOf n) :
    t.referenceProvenance = s.referenceProvenance := by
  cases ht : t.referenceProvenance with
  | none => simpa [ht, eq_comm] using hrest
  | some p =>
    cases hs : s.referenceProvenance with
    | none => simp [ht, hs] at hrest
    | some q =>
      have hbindings : p.bindings = q.bindings :=
        Finmap.ext_lookup fun n => by simpa [provenanceOf, ht, hs] using hnames n
      obtain ⟨po, pa, pu, pb⟩ := p
      obtain ⟨qo, qa, qu, qb⟩ := q
      simp_all

/-- A scope's tables are its names' states and the rest. -/
theorem visible_eq_of_capture {t s : Scope} (hnames : ∀ n, t.capture n = s.capture n)
    (hrest : t.rest = s.rest) : t.visible = s.visible := by
  have hprov := provenance_eq_of_rest (t := t) (s := s) (congrArg Scope.referenceProvenance hrest)
    fun n => congrArg BindingState.provenance (hnames n)
  have htables : t.rest.tables = s.rest.tables := congrArg tables hrest
  have hflags : t.rest.frame = s.rest.frame := congrArg frame hrest
  have hfacts : ∀ n, t.facts n = s.facts n :=
    fun n => congrArg (fun st : BindingState => { st with provenance := none }) (hnames n)
  exact eq_of_agree (.of_eq hfacts hprov htables) hflags hprov

end Scope

/-! ## What each write makes of a name -/

namespace BindingState

/-- The box object a value written over this one leaves. -/
def boxAfterWrite (st : BindingState) (ty : RType) : Option BoxObject :=
  if ty.mode != .function && st.boxObject.elim false BoxObject.isCall then some .opaqueCall
  else none

/-- The journaling insert has nothing to write. -/
def keepsType (st : BindingState) (ty : RType) : Bool :=
  st.ty.elim false (·.eq ty) && st.markers == .none && st.lexicalDefinition.isNone
    && st.aliasTarget.isNone && st.boxObject.isNone && st.provenance.isNone

def afterInsert (journaling : Bool) (st : BindingState) (ty : RType) : BindingState :=
  { BindingState.default with
    ty := if journaling && st.keepsType ty then st.ty else some ty
    boxObject := st.boxAfterWrite ty }

def afterNarrowed (st : BindingState) (ty : RType) : BindingState where
  ty := some ty
  markers :=
    { st.markers with
      narrowed := true
      lexical := false
      loopVector := st.markers.loopVector &&
        !(ty.cls.hasKnownClass || ty.length == .zero || ty.length == .one) }
  lexicalDefinition := none
  aliasTarget := none
  boxObject := st.boxAfterWrite ty
  provenance := none

def afterParameterDefault (st : BindingState) (ty : RType) : BindingState where
  ty := some ty
  markers :=
    { st.markers with
      narrowed := false
      scalarAsserted := false
      loopVector := false
      parameter := true
      defaultParameter := true }
  lexicalDefinition := none
  aliasTarget := none
  boxObject := st.boxAfterWrite ty
  provenance := none

/-- A package attachment is seen through its alias. -/
def packageAlias : Option BoxObject → Option String
  | some (.attached (some (.package target))) => some target
  | _ => none

def withBoxObject (st : BindingState) (object : Option BoxObject) : BindingState :=
  if st.boxObject == object then st
  else
    { st with
      aliasTarget := packageAlias object <|>
        if (packageAlias st.boxObject).isSome then none else st.aliasTarget
      boxObject := object }

end BindingState

namespace Scope

/-- The step from `s` to `s'` gives `name` the state `st` and leaves every other name;
beside the names it may raise the escaped-slot flag. -/
structure Rewrites (s s' : Scope) (name : String) (st : BindingState) (raised : Bool) : Prop where
  depth : s'.journal.depth = s.journal.depth
  capture : ∀ n, s'.capture n = if n = name then st else s.capture n
  rest : s'.rest = s.rest.raiseEscaped raised

namespace Rewrites

theorem refl (s : Scope) (name : String) : Rewrites s s name (s.capture name) false where
  depth := rfl
  capture n := by
    split
    · rename_i h
      rw [h]
    · rfl
  rest := by simp

theorem trans {a b c : Scope} {name : String} {st st' : BindingState} {r r' : Bool}
    (hab : Rewrites a b name st r) (hbc : Rewrites b c name st' r') :
    Rewrites a c name st' (r || r') where
  depth := hbc.depth.trans hab.depth
  capture n := by
    rw [hbc.capture n, hab.capture n]
    split <;> rfl
  rest := by rw [hbc.rest, hab.rest, raiseEscaped_raiseEscaped]

/-- The state after the step. -/
theorem self {s s' : Scope} {name : String} {st : BindingState} {r : Bool}
    (h : Rewrites s s' name st r) : s'.capture name = st := by
  simpa using h.capture name

/-- A step shows as what it leaves in the tables. -/
theorem of_visible {s s' t : Scope} {name : String} {st : BindingState} {r : Bool}
    (hdepth : s'.journal.depth = s.journal.depth) (hvisible : s'.visible = t.visible)
    (hcapture : ∀ n, t.capture n = if n = name then st else s.capture n)
    (hrest : t.rest = s.rest.raiseEscaped r) : Rewrites s s' name st r where
  depth := hdepth
  capture n := (capture_of_visible hvisible n).trans (hcapture n)
  rest := (read_of_visible Scope.rest (fun _ => rfl) hvisible).trans hrest

end Rewrites

/-- A record shows in the journal alone. -/
theorem record_eq_journal (s : Scope) (u : Undo) :
    ∃ j : Journal, s.record u = { s with journal := j } ∧ j.depth = s.journal.depth := by
  unfold record
  split
  · exact ⟨_, rfl, rfl⟩
  · exact ⟨s.journal, rfl, rfl⟩

section OneFact

variable (s : Scope) (name : String)

theorem rewrites_listOrigin {j : Journal} (hj : j.depth = s.journal.depth) (present : Bool) :
    Rewrites s { s with
        journal := j, listOriginBindings := setMarker s.listOriginBindings name present } name
      { s.capture name with markers := { s.markers name with listOrigin := present } } false := by
  refine ⟨hj, fun n => ?_, (raiseEscaped_false _).symm⟩
  rcases eq_or_ne n name with rfl | h <;>
    simp [*, capture, captureMetadata, markers, marked_setMarker, get, provenanceOf]

theorem rewrites_scalarAsserted {j : Journal} (hj : j.depth = s.journal.depth) (present : Bool) :
    Rewrites s { s with
        journal := j, scalarAssertedBindings := setMarker s.scalarAssertedBindings name present }
      name { s.capture name with markers := { s.markers name with scalarAsserted := present } }
      false := by
  refine ⟨hj, fun n => ?_, (raiseEscaped_false _).symm⟩
  rcases eq_or_ne n name with rfl | h <;>
    simp [*, capture, captureMetadata, markers, marked_setMarker, get, provenanceOf]

theorem rewrites_loopVector {j : Journal} (hj : j.depth = s.journal.depth) (present : Bool) :
    Rewrites s { s with
        journal := j, loopVectorBindings := setMarker s.loopVectorBindings name present } name
      { s.capture name with markers := { s.markers name with loopVector := present } } false := by
  refine ⟨hj, fun n => ?_, (raiseEscaped_false _).symm⟩
  rcases eq_or_ne n name with rfl | h <;>
    simp [*, capture, captureMetadata, markers, marked_setMarker, get, provenanceOf]

theorem rewrites_lexicalDefinition {j : Journal} (hj : j.depth = s.journal.depth)
    (definition : Option Span) :
    Rewrites s { s with
        journal := j, lexicalDefinitions := Table.put s.lexicalDefinitions name definition } name
      { s.capture name with lexicalDefinition := definition } false := by
  refine ⟨hj, fun n => ?_, (raiseEscaped_false _).symm⟩
  rcases eq_or_ne n name with rfl | h <;>
    simp [*, capture, captureMetadata, markers, Table.lookup_put, get, provenanceOf]

theorem rewrites_functionAlias {j : Journal} (hj : j.depth = s.journal.depth)
    (target : Option String) :
    Rewrites s { s with
        journal := j, functionAliases := Table.put s.functionAliases name target } name
      { s.capture name with aliasTarget := target } false := by
  refine ⟨hj, fun n => ?_, (raiseEscaped_false _).symm⟩
  rcases eq_or_ne n name with rfl | h <;>
    simp [*, capture, captureMetadata, markers, Table.lookup_put, get, provenanceOf]

theorem rewrites_boxObject {j : Journal} (hj : j.depth = s.journal.depth)
    (object : Option BoxObject) :
    Rewrites s { s with journal := j, boxObjects := Table.put s.boxObjects name object } name
      { s.capture name with boxObject := object } false := by
  refine ⟨hj, fun n => ?_, (raiseEscaped_false _).symm⟩
  rcases eq_or_ne n name with rfl | h <;>
    simp [*, capture, captureMetadata, markers, Table.lookup_put, get, provenanceOf]

theorem rewrites_markListOrigin :
    Rewrites s (s.markListOrigin name) name
      { s.capture name with markers := { s.markers name with listOrigin := true } } false := by
  obtain ⟨j, hrecord, hj⟩ := record_eq_journal s
    (.marker .listOrigin name (s.markerPresent .listOrigin name))
  simp only [markListOrigin, journalMarker, hrecord]
  exact rewrites_listOrigin s name hj true

theorem rewrites_clearScalarAsserted :
    Rewrites s (s.clearScalarAsserted name) name
      { s.capture name with markers := { s.markers name with scalarAsserted := false } } false := by
  obtain ⟨j, hrecord, hj⟩ := record_eq_journal s
    (.marker .scalarAsserted name (s.markerPresent .scalarAsserted name))
  simp only [clearScalarAsserted, journalMarker, hrecord]
  split
  · exact rewrites_scalarAsserted s name hj false
  · rename_i h
    have herase : setMarker s.scalarAssertedBindings name false = s.scalarAssertedBindings :=
      Finset.erase_eq_of_notMem h
    have hwrite := rewrites_scalarAsserted s name (j := s.journal) rfl false
    rwa [herase] at hwrite

theorem rewrites_markLoopVector :
    Rewrites s (s.markLoopVector name) name
      { s.capture name with markers := { s.markers name with loopVector := true } } false := by
  obtain ⟨j, hrecord, hj⟩ := record_eq_journal s
    (.marker .loopVector name (s.markerPresent .loopVector name))
  simp only [markLoopVector, journalMarker, hrecord]
  split
  · rename_i h
    have hinsert : setMarker s.loopVectorBindings name true = s.loopVectorBindings :=
      Finset.insert_eq_of_mem h
    have hwrite := rewrites_loopVector s name (j := s.journal) rfl true
    rwa [hinsert] at hwrite
  · exact rewrites_loopVector s name hj true

theorem rewrites_clearLoopVector :
    Rewrites s (s.clearLoopVector name) name
      { s.capture name with markers := { s.markers name with loopVector := false } } false := by
  obtain ⟨j, hrecord, hj⟩ := record_eq_journal s
    (.marker .loopVector name (s.markerPresent .loopVector name))
  simp only [clearLoopVector, journalMarker, hrecord]
  split
  · exact rewrites_loopVector s name hj false
  · rename_i h
    have herase : setMarker s.loopVectorBindings name false = s.loopVectorBindings :=
      Finset.erase_eq_of_notMem h
    have hwrite := rewrites_loopVector s name (j := s.journal) rfl false
    rwa [herase] at hwrite

theorem rewrites_forgetLexicalDefinition :
    Rewrites s (s.forgetLexicalDefinition name) name
      { s.capture name with lexicalDefinition := none } false := by
  obtain ⟨j, hrecord, hj⟩ := record_eq_journal s
    (.lexicalDefinition name (s.lexicalDefinitions.lookup name))
  simp only [forgetLexicalDefinition, journalLexicalDefinition, hrecord]
  exact rewrites_lexicalDefinition s name hj none

theorem rewrites_setFunctionAlias (target : String) :
    Rewrites s (s.setFunctionAlias name target) name
      { s.capture name with aliasTarget := some target } false := by
  obtain ⟨j, hrecord, hj⟩ := record_eq_journal s
    (.aliasTarget name (s.functionAliases.lookup name))
  simp only [setFunctionAlias, journalAlias, hrecord]
  exact rewrites_functionAlias s name hj (some target)

theorem rewrites_setBoxObject (object : BoxObject) :
    Rewrites s (s.setBoxObject name object) name
      { s.capture name with boxObject := some object } false := by
  obtain ⟨j, hrecord, hj⟩ := record_eq_journal s (.binding name (s.capture name))
  simp only [setBoxObject, journalBinding, hrecord]
  exact rewrites_boxObject s name hj (some object)

end OneFact

section BoxObjects

variable (s : Scope) (name : String)

theorem rewrites_setBoxAttachment (callable : Option BoxCallable) :
    Rewrites s (s.setBoxAttachment name callable) name
      { s.capture name with
        aliasTarget := BindingState.packageAlias (some (.attached callable)) <|>
          (s.capture name).aliasTarget
        boxObject := some (.attached callable) } false := by
  unfold setBoxAttachment
  split
  · rename_i target
    have halias := rewrites_setFunctionAlias s name target
    have hbox := halias.trans (rewrites_setBoxObject (s.setFunctionAlias name target) name
      (.attached (some (.package target))))
    rw [halias.self] at hbox
    exact hbox
  · rename_i hpackage
    have halias : BindingState.packageAlias (some (.attached callable)) = none := by
      cases callable with
      | none => rfl
      | some c =>
        cases c with
        | function f => rfl
        | package target => exact absurd rfl (hpackage target)
    rw [halias]
    exact rewrites_setBoxObject s name (.attached callable)

/-- Recording a name's state and dropping the alias of a package attachment. -/
theorem rewrites_forgetPackageAlias :
    Rewrites s ((s.journalBinding name).forgetPackageAlias name) name
      { s.capture name with
        aliasTarget := if (BindingState.packageAlias (s.capture name).boxObject).isSome then none
          else (s.capture name).aliasTarget } false := by
  obtain ⟨j, hrecord, hj⟩ := record_eq_journal s (.binding name (s.capture name))
  have hbox : (s.capture name).boxObject = s.boxObjects.lookup name := rfl
  simp only [journalBinding, hrecord, forgetPackageAlias, hbox]
  split
  · rename_i target hobject
    have hsome : (BindingState.packageAlias (s.boxObjects.lookup name)).isSome = true := by
      rw [hobject]
      rfl
    rw [if_pos hsome]
    exact rewrites_functionAlias s name hj none
  · rename_i hobject
    have hnone : BindingState.packageAlias (s.boxObjects.lookup name) = none := by
      unfold BindingState.packageAlias
      split
      · rename_i target ho
        exact absurd ho (hobject target)
      · rfl
    have hsome : ¬ (BindingState.packageAlias (s.boxObjects.lookup name)).isSome = true := by
      simp [hnone]
    rw [if_neg hsome]
    have hsame := rewrites_functionAlias s name hj (s.functionAliases.lookup name)
    rw [Table.put_lookup_self] at hsame
    exact hsame

theorem rewrites_applyBoxObject (object : Option BoxObject) :
    Rewrites s (s.applyBoxObject name object) name ((s.capture name).withBoxObject object) false
    := by
  have hlookup : s.boxObjects.lookup name = (s.capture name).boxObject := rfl
  simp only [applyBoxObject, BindingState.withBoxObject, hlookup]
  split
  · exact .refl s name
  have hforget := rewrites_forgetPackageAlias s name
  have hput : ∀ object : Option BoxObject, BindingState.packageAlias object = none →
      Rewrites s { (s.journalBinding name).forgetPackageAlias name with
          boxObjects := Table.put ((s.journalBinding name).forgetPackageAlias name).boxObjects
            name object } name
        { s.capture name with
          aliasTarget := BindingState.packageAlias object <|>
            if (BindingState.packageAlias (s.capture name).boxObject).isSome then none
            else (s.capture name).aliasTarget
          boxObject := object } false := by
    intro object hobject
    have h := hforget.trans (rewrites_boxObject _ name (j := _) rfl object)
    rw [hforget.self] at h
    rw [hobject]
    exact h
  cases object with
  | none => exact hput none rfl
  | some object =>
    cases object with
    | attached callable =>
      have h := hforget.trans (rewrites_setBoxAttachment _ name callable)
      rw [hforget.self] at h
      exact h
    | package target => exact hput (some (.package target)) rfl
    | module inventory => exact hput (some (.module inventory)) rfl
    | opaqueCall => exact hput (some .opaqueCall) rfl

end BoxObjects

/-! ## Writes of a type

After a merge has dropped the facts about strings, conditions and operators, an insert
has none of them to drop. -/

/-- No facts about strings, conditions or operators. -/
def Blank (s : Scope) : Prop := s.tables = (∅, ∅, ∅, ∅)

theorem Blank.of_rest {s t : Scope} (h : s.Blank) {r : Bool}
    (hrest : t.rest = s.rest.raiseEscaped r) : t.Blank := by
  have htables : t.rest.tables = (s.rest.raiseEscaped r).tables := congrArg tables hrest
  exact htables.trans h

theorem Rewrites.blank {s t : Scope} {name : String} {st : BindingState} {r : Bool}
    (h : Rewrites s t name st r) (hs : s.Blank) : t.Blank :=
  hs.of_rest h.rest

section Blank

variable {s : Scope} (hs : s.Blank)
include hs

theorem clearKnownString_of_blank (name : String) : s.clearKnownString name = s := by
  have hstrings : s.knownStrings = ∅ := congrArg (·.1) hs
  simp [clearKnownString, hstrings]

theorem retainConditionAliases_of_blank (order : IterOrder) (keep : String → Bool) :
    s.retainConditionAliases order keep = s :=
  retainConditionAliases_of_empty order keep (congrArg (·.2.1) hs)

theorem clearOpsBinding_of_blank (rawName : String) : s.clearOpsBinding rawName = s := by
  have hfunctions : s.literalFunctions = ∅ := congrArg (·.2.2.1) hs
  have hvectors : s.plainOpsVectors = ∅ := congrArg (·.2.2.2) hs
  have herase : (∅ : Table String LiteralFunction).erase (semanticArgumentName rawName) = ∅ :=
    Table.erase_of_lookup_none (by simp)
  simp only [clearOpsBinding, hfunctions, hvectors, Finmap.lookup_empty, herase,
    Finset.erase_empty, Option.isSome_none, marked_empty, Bool.or_self, Bool.false_eq_true,
    if_false]
  rw [← hfunctions, ← hvectors]

end Blank

theorem rewrites_noteEscapedSlot (s : Scope) (name : String) :
    Rewrites s (s.noteEscapedSlot name) name (s.capture name) (escapedNameMayMaskSlot name) := by
  have hcapture := (Rewrites.refl s name).capture
  unfold noteEscapedSlot
  split
  · rename_i h
    refine ⟨rfl, hcapture, ?_⟩
    have hrest : s.rest.uncertainty.escapedSlotNames = true := h
    simp only [raiseEscaped, hrest, Bool.true_or]
    rw [← hrest]
  · rename_i h
    refine ⟨rfl, hcapture, ?_⟩
    have hrest : s.rest.uncertainty.escapedSlotNames = false := Bool.eq_false_of_not_eq_true h
    simp only [raiseEscaped, hrest, Bool.false_or]
    rfl

theorem rest_invalidateProvenance (s : Scope) (name : String) :
    (s.invalidateProvenance name).rest = s.rest := by
  simp only [rest, invalidateProvenance]
  cases s.referenceProvenance <;> rfl

theorem capture_eq (s : Scope) (n : String) :
    s.capture n = { s.facts n with provenance := s.provenanceOf n } := rfl

theorem rewrites_forgetBinding (s : Scope) (name : String) :
    Rewrites s (s.forgetBinding name) name { BindingState.default with ty := s.get name } false
    := by
  refine ⟨rfl, fun n => ?_, ?_⟩
  · have hprov : (s.forgetBinding name).provenanceOf n = if n = name then none else s.provenanceOf n :=
      provenanceOf_invalidateProvenance s n name
    rw [capture_eq, facts_forgetBinding, hprov]
    split <;> rfl
  · exact (rest_invalidateProvenance s name).trans (raiseEscaped_false _).symm

theorem rewrites_assign (s : Scope) (name : String) (ty : RType) :
    Rewrites s (s.assign name ty) name { BindingState.default with ty := some ty } false := by
  refine ⟨rfl, fun n => ?_, ?_⟩
  · have hprov : (s.assign name ty).provenanceOf n = if n = name then none else s.provenanceOf n :=
      provenanceOf_invalidateProvenance s n name
    rw [capture_eq, facts_assign, hprov]
    split <;> rfl
  · exact (rest_invalidateProvenance s name).trans (raiseEscaped_false _).symm

theorem keepsType_capture (s : Scope) (name : String) (ty : RType) :
    (s.capture name).keepsType ty =
      ((s.get name).elim false (·.eq ty) && (s.assignmentUndo name).removedNothing) := by
  simp only [BindingState.keepsType, AssignmentUndo.removedNothing, Bool.and_assoc]
  rfl

theorem rewrites_insertWithAssignmentUndo {s : Scope} (hs : s.Blank) (name : String) (ty : RType) :
    Rewrites s (s.insertWithAssignmentUndo name ty) name
      { BindingState.default with
        ty := if (s.capture name).keepsType ty then s.get name else some ty } false := by
  simp only [insertWithAssignmentUndo, clearOpsBinding_of_blank hs, keepsType_capture]
  split
  · exact rewrites_forgetBinding s name
  · have h := rewrites_assign s name ty
    exact ⟨h.depth, h.capture, h.rest⟩

theorem rewrites_insertValue {s : Scope} (hs : s.Blank) (order : IterOrder) (name : String)
    (ty : RType) :
    Rewrites s (s.insertValue order name ty) name
      { BindingState.default with
        ty := if decide (0 < s.journal.depth) && (s.capture name).keepsType ty then s.get name
          else some ty } (escapedNameMayMaskSlot name) := by
  have hnote := rewrites_noteEscapedSlot s name
  simp only [insertValue, clearKnownString_of_blank hs, retainConditionAliases_of_blank hs,
    hnote.depth]
  split
  · rename_i hdepth
    have h := hnote.trans (rewrites_insertWithAssignmentUndo (hnote.blank hs) name ty)
    rw [hnote.self] at h
    simpa only [hdepth, decide_true, Bool.true_and, Bool.or_false,
      show (s.noteEscapedSlot name).get name = s.get name from
        congrArg BindingState.ty hnote.self] using h
  · rename_i hdepth
    have h := hnote.trans (rewrites_assign (s.noteEscapedSlot name) name ty)
    rw [clearOpsBinding_of_blank (hnote.blank hs)]
    simpa [hdepth] using h

theorem rewrites_insert {s : Scope} (hs : s.Blank) (order : IterOrder) (name : String)
    (ty : RType) :
    Rewrites s (s.insert order name ty) name
      ((s.capture name).afterInsert (decide (0 < s.journal.depth)) ty)
      (escapedNameMayMaskSlot name) := by
  have hvalue := rewrites_insertValue hs order name ty
  have hbox : s.boxCallAfterWrite name ty =
      (ty.mode != .function && (s.capture name).boxObject.elim false BoxObject.isCall) := rfl
  simp only [insert, BindingState.afterInsert, BindingState.boxAfterWrite, hbox]
  split
  · have h := hvalue.trans (rewrites_setBoxObject _ name .opaqueCall)
    rw [hvalue.self, Bool.or_false] at h
    exact h
  · exact hvalue

/-! ## Narrowing inserts -/

theorem depth_record (s : Scope) (u : Undo) : (s.record u).journal.depth = s.journal.depth := by
  unfold record
  split <;> rfl

theorem depth_clearOpsBinding (s : Scope) (rawName : String) :
    (s.clearOpsBinding rawName).journal.depth = s.journal.depth := by
  simp only [clearOpsBinding]
  split
  · exact depth_record _ _
  · rfl

theorem depth_beginBindingChange (s : Scope) (name : String) :
    (s.beginBindingChange name).1.journal.depth = s.journal.depth := by
  unfold beginBindingChange
  split <;> rfl

theorem depth_finishBindingChange (s : Scope) (index : Option Nat) (previous : Option RType) :
    (s.finishBindingChange index previous).journal.depth = s.journal.depth := by
  unfold finishBindingChange
  split <;> rfl

theorem depth_insertNarrowed (s : Scope) (name : String) (ty : RType) :
    (s.insertNarrowed name ty).journal.depth = s.journal.depth := by
  refine (depth_finishBindingChange _ _ _).trans ?_
  refine (depth_clearOpsBinding _ name).trans ((depth_beginBindingChange _ name).trans ?_)
  rw [depth_noteEscapedSlot]

theorem depth_insertParameterDefault (s : Scope) (name : String) (ty : RType) :
    (s.insertParameterDefault name ty).journal.depth = s.journal.depth := by
  refine (depth_finishBindingChange _ _ _).trans ?_
  refine (depth_clearOpsBinding _ name).trans ((depth_beginBindingChange _ name).trans ?_)
  rw [depth_noteEscapedSlot]

/-- Outside any snapshot, what `insertNarrowed` writes once the slot is noted. -/
def writeNarrowed (s : Scope) (name : String) (ty : RType) : Scope :=
  let t := (s.invalidateProvenance name).forgetForNarrowing name ty
  { t with
    bindings := t.bindings.insert name ty
    narrowedBindings := Insert.insert name t.narrowedBindings }

/-- Outside any snapshot, what `insertParameterDefault` writes once the slot is noted. -/
def writeParameterDefault (s : Scope) (name : String) (ty : RType) : Scope :=
  let t := (s.invalidateProvenance name).forgetForDefault name ty
  { t with
    bindings := t.bindings.insert name ty
    parameterBindings := Insert.insert name t.parameterBindings
    defaultParameterBindings := Insert.insert name t.defaultParameterBindings }

theorem visible_insertNarrowed {s : Scope} (hs : s.Blank) (name : String) (ty : RType) :
    (s.insertNarrowed name ty).visible = ((s.noteEscapedSlot name).writeNarrowed name ty).visible
    := by
  have hblank := (rewrites_noteEscapedSlot s.visible name).blank (s := s.visible) hs
  have hplain : s.visible.insertNarrowed name ty =
      (s.visible.noteEscapedSlot name).writeNarrowed name ty := by
    simp only [insertNarrowed, beginBindingChange, depth_noteEscapedSlot, finishBindingChange]
    rw [if_pos (by rfl)]
    simp only [clearOpsBinding_of_blank hblank]
    rfl
  have hsame : s.visible.visible = s.visible := rfl
  have hwrite : Blind (writeNarrowed · name ty) := fun _ _ => rfl
  rw [(blind_insertNarrowed name ty).congr hsame.symm, hplain]
  exact hwrite.congr ((blind_noteEscapedSlot name).congr hsame)

theorem visible_insertParameterDefault {s : Scope} (hs : s.Blank) (name : String) (ty : RType) :
    (s.insertParameterDefault name ty).visible =
      ((s.noteEscapedSlot name).writeParameterDefault name ty).visible := by
  have hblank := (rewrites_noteEscapedSlot s.visible name).blank (s := s.visible) hs
  have hplain : s.visible.insertParameterDefault name ty =
      (s.visible.noteEscapedSlot name).writeParameterDefault name ty := by
    simp only [insertParameterDefault, beginBindingChange, depth_noteEscapedSlot,
      finishBindingChange]
    rw [if_pos (by rfl)]
    simp only [clearOpsBinding_of_blank hblank]
    rfl
  have hsame : s.visible.visible = s.visible := rfl
  have hwrite : Blind (writeParameterDefault · name ty) := fun _ _ => rfl
  rw [(blind_insertParameterDefault name ty).congr hsame.symm, hplain]
  exact hwrite.congr ((blind_noteEscapedSlot name).congr hsame)

theorem lookup_replaceBoxCallAfterWrite_self (s : Scope) (name : String) (ty : RType) :
    (s.replaceBoxCallAfterWrite name ty).boxObjects.lookup name =
      (s.capture name).boxAfterWrite ty := by
  have hbox : s.boxCallAfterWrite name ty =
      (ty.mode != .function && (s.capture name).boxObject.elim false BoxObject.isCall) := rfl
  simp only [replaceBoxCallAfterWrite, hbox, BindingState.boxAfterWrite]
  split <;> simp

theorem rewrites_writeNarrowed (s : Scope) (name : String) (ty : RType) :
    Rewrites s (s.writeNarrowed name ty) name ((s.capture name).afterNarrowed ty) false := by
  refine ⟨rfl, fun n => ?_, (rest_invalidateProvenance s name).trans (raiseEscaped_false _).symm⟩
  have hprov : (s.writeNarrowed name ty).provenanceOf n = if n = name then none else s.provenanceOf n :=
    provenanceOf_invalidateProvenance s n name
  have hloop : marked (s.writeNarrowed name ty).loopVectorBindings n =
      if n = name then marked s.loopVectorBindings n &&
        !(ty.cls.hasKnownClass || ty.length == .zero || ty.length == .one)
      else marked s.loopVectorBindings n := by
    simp only [writeNarrowed, forgetForNarrowing]
    split <;> rename_i hty <;> simp only [hty]
    · exact (marked_erase _ n name).trans (by simp; rfl)
    · simp
      rfl
  rcases eq_or_ne n name with rfl | h
  · have hbox : (s.writeNarrowed n ty).boxObjects.lookup n = (s.capture n).boxAfterWrite ty :=
      lookup_replaceBoxCallAfterWrite_self _ n ty
    simp only [capture, captureMetadata, markers, hprov, hloop, hbox]
    simp [BindingState.afterNarrowed, writeNarrowed, forgetForNarrowing, replaceBoxCallAfterWrite,
      invalidateProvenance, get, marked_insert, marked_erase]
  · have hbox : (s.writeNarrowed name ty).boxObjects.lookup n = s.boxObjects.lookup n :=
      lookup_replaceBoxCallAfterWrite _ h ty
    simp only [capture, captureMetadata, markers, hprov, hloop, hbox]
    simp [h, writeNarrowed, forgetForNarrowing, replaceBoxCallAfterWrite,
      invalidateProvenance, get, marked_insert, marked_erase]

theorem rewrites_writeParameterDefault (s : Scope) (name : String) (ty : RType) :
    Rewrites s (s.writeParameterDefault name ty) name
      ((s.capture name).afterParameterDefault ty) false := by
  refine ⟨rfl, fun n => ?_, (rest_invalidateProvenance s name).trans (raiseEscaped_false _).symm⟩
  have hprov : (s.writeParameterDefault name ty).provenanceOf n =
      if n = name then none else s.provenanceOf n :=
    provenanceOf_invalidateProvenance s n name
  rcases eq_or_ne n name with rfl | h
  · have hbox : (s.writeParameterDefault n ty).boxObjects.lookup n =
        (s.capture n).boxAfterWrite ty :=
      lookup_replaceBoxCallAfterWrite_self _ n ty
    simp only [capture, captureMetadata, markers, hprov, hbox]
    simp [BindingState.afterParameterDefault, writeParameterDefault, forgetForDefault,
      replaceBoxCallAfterWrite, invalidateProvenance, get, marked_insert, marked_erase]
  · have hbox : (s.writeParameterDefault name ty).boxObjects.lookup n = s.boxObjects.lookup n :=
      lookup_replaceBoxCallAfterWrite _ h ty
    simp only [capture, captureMetadata, markers, hprov, hbox]
    simp [h, writeParameterDefault, forgetForDefault, replaceBoxCallAfterWrite,
      invalidateProvenance, get, marked_insert, marked_erase]

theorem rewrites_insertNarrowed {s : Scope} (hs : s.Blank) (name : String) (ty : RType) :
    Rewrites s (s.insertNarrowed name ty) name ((s.capture name).afterNarrowed ty)
      (escapedNameMayMaskSlot name) := by
  have hnote := rewrites_noteEscapedSlot s name
  have h := hnote.trans (rewrites_writeNarrowed _ name ty)
  rw [hnote.self, Bool.or_false] at h
  exact .of_visible (depth_insertNarrowed s name ty) (visible_insertNarrowed hs name ty)
    h.capture h.rest

theorem rewrites_insertParameterDefault {s : Scope} (hs : s.Blank) (name : String) (ty : RType) :
    Rewrites s (s.insertParameterDefault name ty) name
      ((s.capture name).afterParameterDefault ty) (escapedNameMayMaskSlot name) := by
  have hnote := rewrites_noteEscapedSlot s name
  have h := hnote.trans (rewrites_writeParameterDefault _ name ty)
  rw [hnote.self, Bool.or_false] at h
  exact .of_visible (depth_insertParameterDefault s name ty)
    (visible_insertParameterDefault hs name ty) h.capture h.rest

/-! ## Loops -/

/-- The step from `s` to `s'` gives each of `names` the state `F` makes of its own, and
leaves every other name. -/
structure RewritesAll (s s' : Scope) (names : List String)
    (F : String → BindingState → BindingState) (raised : Bool) : Prop where
  depth : s'.journal.depth = s.journal.depth
  capture : ∀ n, s'.capture n = if n ∈ names then F n (s.capture n) else s.capture n
  rest : s'.rest = s.rest.raiseEscaped raised

theorem RewritesAll.blank {s t : Scope} {names : List String}
    {F : String → BindingState → BindingState} {r : Bool} (h : RewritesAll s t names F r)
    (hs : s.Blank) : t.Blank :=
  hs.of_rest h.rest

/-- A loop over distinct names, each pass of which rewrites its own name.  `P` is what a
pass may assume beside the names. -/
theorem rewritesAll_foldl {f : Scope → String → Scope}
    {F : String → BindingState → BindingState} {R : String → BindingState → Bool}
    {P : Scope → Prop} (hP : ∀ s s' n st r, Rewrites s s' n st r → P s → P s')
    (hf : ∀ s n, P s → Rewrites s (f s n) n (F n (s.capture n)) (R n (s.capture n)))
    {names : List String} (hnames : names.Nodup) {s : Scope} (hs : P s) :
    RewritesAll s (names.foldl f s) names F (names.any fun n => R n (s.capture n)) where
  depth := by
    have hkeep := Pointwise.foldl_inv (f := f) (P := fun t => P t ∧ t.journal.depth = s.journal.depth)
      (fun t n ht => ⟨hP t _ n _ _ (hf t n ht.1) ht.1, (hf t n ht.1).depth.trans ht.2⟩) names
      ⟨hs, rfl⟩
    exact hkeep.2
  capture n :=
    Pointwise.foldl_read Scope.capture (fun t n ht => hP t _ n _ _ (hf t n ht) ht)
      (fun t n k ht => (hf t n ht).capture k) hnames hs n
  rest := by
    induction names generalizing s with
    | nil => simp
    | cons n names ih =>
      obtain ⟨hn, hnames⟩ := List.nodup_cons.mp hnames
      have hstep := hf s n hs
      rw [List.foldl_cons, ih hnames (hP s _ n _ _ hstep hs), hstep.rest,
        raiseEscaped_raiseEscaped, List.any_cons]
      -- the names still to come have the states they had at the start
      have hlater : (names.any fun k => R k ((f s n).capture k))
          = names.any fun k => R k (s.capture k) := by
        refine Bool.eq_iff_iff.mpr ?_
        rw [List.any_eq_true, List.any_eq_true]
        refine exists_congr fun k => and_congr_right fun hk => ?_
        have hne : k ≠ n := fun h => hn (h ▸ hk)
        rw [hstep.capture k, if_neg hne]
      rw [hlater]

/-! ## What a scope holds -/

/-- The scope's depth, what it records about each name, and its rest. -/
structure Holds (s : Scope) (depth : Nat) (names : String → BindingState) (rest : Scope) :
    Prop where
  depth : s.journal.depth = depth
  capture : ∀ n, s.capture n = names n
  rest : s.rest = rest

namespace Holds

theorem self (s : Scope) : s.Holds s.journal.depth s.capture s.rest := ⟨rfl, fun _ => rfl, rfl⟩

/-- Two scopes that hold the same have the same tables. -/
theorem visible_eq {s t : Scope} {i j : Nat} {names names' : String → BindingState} {r r' : Scope}
    (hs : s.Holds i names r) (ht : t.Holds j names' r') (hnames : ∀ n, names n = names' n)
    (hr : r = r') : s.visible = t.visible :=
  visible_eq_of_capture (fun n => (hs.capture n).trans ((hnames n).trans (ht.capture n).symm))
    (hs.rest.trans (hr.trans ht.rest.symm))

theorem congr {s : Scope} {i : Nat} {names names' : String → BindingState} {r r' : Scope}
    (hs : s.Holds i names r) (hnames : ∀ n, names n = names' n) (hr : r = r') :
    s.Holds i names' r' :=
  ⟨hs.depth, fun n => (hs.capture n).trans (hnames n), hs.rest.trans hr⟩

/-- A loop over distinct names: each is rewritten in place. -/
theorem foldl {f : Scope → String → Scope} {F : String → BindingState → BindingState}
    {R : String → BindingState → Bool} {P : Scope → Prop}
    (hP : ∀ s s' n st r, Rewrites s s' n st r → P s → P s')
    (hf : ∀ s n, P s → Rewrites s (f s n) n (F n (s.capture n)) (R n (s.capture n)))
    {l : List String} (hl : l.Nodup) {s : Scope} {i : Nat} {names : String → BindingState}
    {r : Scope} (hs : s.Holds i names r) (hPs : P s) :
    (l.foldl f s).Holds i (fun n => if n ∈ l then F n (names n) else names n)
      (r.raiseEscaped (l.any fun n => R n (names n))) := by
  have hall := rewritesAll_foldl hP hf hl hPs
  refine ⟨hall.depth.trans hs.depth, fun n => (hall.capture n).trans ?_, hall.rest.trans ?_⟩
  · rw [hs.capture n]
  · have hraised : (fun n => R n (s.capture n)) = fun n => R n (names n) :=
      funext fun n => by rw [hs.capture n]
    rw [hs.rest, hraised]

/-- A loop that writes no type. -/
theorem foldl_quiet {f : Scope → String → Scope} {F : String → BindingState → BindingState}
    {P : Scope → Prop} (hP : ∀ s s' n st r, Rewrites s s' n st r → P s → P s')
    (hf : ∀ s n, P s → Rewrites s (f s n) n (F n (s.capture n)) false)
    {l : List String} (hl : l.Nodup) {s : Scope} {i : Nat} {names : String → BindingState}
    {r : Scope} (hs : s.Holds i names r) (hPs : P s) :
    (l.foldl f s).Holds i (fun n => if n ∈ l then F n (names n) else names n) r := by
  have hall := hs.foldl (R := fun _ _ => false) hP hf hl hPs
  have hany : (l.any fun _ => false) = false := by simp
  rwa [hany, raiseEscaped_false] at hall

end Holds

/-! ## Dropping the tables -/

/-- No facts about strings, conditions or operators, whatever there were. -/
def blanked (s : Scope) : Scope :=
  { s with
    literalFunctions := ∅
    plainOpsVectors := ∅
    knownStrings := ∅
    conditionAliases := ∅ }

def clearTables (s : Scope) : Scope :=
  s.clearOpsFacts.clearKnownStrings.clearConditionAliases

theorem visible_clearOpsFacts (s : Scope) :
    s.clearOpsFacts.visible = { s with literalFunctions := ∅, plainOpsVectors := ∅ }.visible := by
  simp only [clearOpsFacts]
  split
  · exact visible_record _ _
  · rfl

theorem visible_clearKnownStrings (s : Scope) :
    s.clearKnownStrings.visible = { s with knownStrings := ∅ }.visible := by
  simp only [clearKnownStrings]
  split
  · exact visible_record _ _
  · rfl

theorem visible_clearConditionAliases (s : Scope) :
    s.clearConditionAliases.visible = { s with conditionAliases := ∅ }.visible := by
  simp only [clearConditionAliases]
  split
  · exact visible_record _ _
  · rfl

theorem visible_clearTables (s : Scope) : s.clearTables.visible = s.blanked.visible := by
  rw [clearTables, visible_clearConditionAliases]
  exact congrArg (fun v : Scope => { v with conditionAliases := ∅ })
    ((visible_clearKnownStrings _).trans
      (congrArg (fun v : Scope => { v with knownStrings := ∅ }) (visible_clearOpsFacts s)))

theorem depth_clearTables (s : Scope) : s.clearTables.journal.depth = s.journal.depth := by
  have hops : s.clearOpsFacts.journal.depth = s.journal.depth := by
    simp only [clearOpsFacts]
    split
    · exact depth_record _ _
    · rfl
  have hstrings : ∀ t : Scope, t.clearKnownStrings.journal.depth = t.journal.depth := by
    intro t
    simp only [clearKnownStrings]
    split
    · exact depth_record _ _
    · rfl
  have haliases : ∀ t : Scope, t.clearConditionAliases.journal.depth = t.journal.depth := by
    intro t
    simp only [clearConditionAliases]
    split
    · exact depth_record _ _
    · rfl
  exact (haliases _).trans ((hstrings _).trans hops)

theorem Holds.clearTables {s : Scope} {i : Nat} {names : String → BindingState} {r : Scope}
    (hs : s.Holds i names r) : s.clearTables.Holds i names r.blanked where
  depth := (depth_clearTables s).trans hs.depth
  capture n := (capture_of_visible (visible_clearTables s) n).trans (hs.capture n)
  rest := by
    rw [read_of_visible Scope.rest (fun _ => rfl) (visible_clearTables s), ← hs.rest]
    rfl

theorem Holds.blank {s : Scope} {i : Nat} {names : String → BindingState} {r : Scope}
    (hs : s.Holds i names r) (hr : r.Blank) : s.Blank := by
  have htables : s.rest.tables = r.tables := congrArg tables hs.rest
  exact htables.trans hr

end Scope

end Ry
