import Mathlib.Data.Finset.Sort
import Mathlib.Data.String.Basic
import Ry.Scope.State

/-! # The scope's mutators

Every function that writes a scope's tables, as `lib.rs`, `scope_journal.rs`,
`literal_values.rs`, `box_imports.rs` and `reference_facts.rs` write them: the state
is passed through, and a record is pushed where the source pushes one.

The tables are hash maps and sets in the source, so a loop over one visits its names
in no particular order.  Each such loop takes its order as an `IterOrder`.
-/

namespace Ry

/-- An order in which a loop visits a set of names. -/
structure IterOrder where
  list : Finset String → List String
  nodup : ∀ s, (list s).Nodup
  mem : ∀ s name, name ∈ list s ↔ name ∈ s

def IterOrder.sorted : IterOrder where
  list s := s.sort (· ≤ ·)
  nodup s := s.sort_nodup (· ≤ ·)
  mem s _ := s.mem_sort (· ≤ ·)

/-- A call through the name still reaches an attachment in a parent environment. -/
def BoxObject.isCall : BoxObject → Bool
  | .attached _ | .opaqueCall => true
  | _ => false

def AssignmentUndo.removedNothing (a : AssignmentUndo) : Bool :=
  a.removedMarkers == .none && a.lexicalDefinition.isNone && a.aliasTarget.isNone
    && a.boxObject.isNone && a.provenance.isNone

def ScopeProvenance.noteUnsafeRead (p : ScopeProvenance) (span : Span) : ScopeProvenance :=
  { p with
    afterUnsafeRead := true
    unsafeReadBlocker :=
      if p.afterUnsafeRead then p.unsafeReadBlocker
      else some ⟨"prior_read", "unsafe_read", some span, p.owner⟩ }

namespace Scope

/-! ## Records -/

def pushUndo (s : Scope) (u : Undo) : Scope :=
  { s with journal := { s.journal with undo := u :: s.journal.undo } }

/-- Push a record if a snapshot is open. -/
def record (s : Scope) (u : Undo) : Scope :=
  if 0 < s.journal.depth then s.pushUndo u else s

def journalBinding (s : Scope) (name : String) : Scope :=
  s.record (.binding name (s.capture name))

def markerPresent (s : Scope) (kind : MarkerKind) (name : String) : Bool :=
  match kind with
  | .listOrigin => marked s.listOriginBindings name
  | .lexical => marked s.lexicalFunctions name
  | .parameter => marked s.parameterBindings name
  | .scalarAsserted => marked s.scalarAssertedBindings name
  | .loopVector => marked s.loopVectorBindings name

def journalMarker (s : Scope) (name : String) (kind : MarkerKind) : Scope :=
  s.record (.marker kind name (s.markerPresent kind name))

def journalLexicalDefinition (s : Scope) (name : String) : Scope :=
  s.record (.lexicalDefinition name (s.lexicalDefinitions.lookup name))

def journalAlias (s : Scope) (name : String) : Scope :=
  s.record (.aliasTarget name (s.functionAliases.lookup name))

def journalReferenceBinding (s : Scope) (name : String) : Scope :=
  s.record (.reference name (s.provenanceOf name))

def journalOpsBinding (s : Scope) (name : String) : Scope :=
  s.record (.opsBinding name (s.literalFunctions.lookup name) (marked s.plainOpsVectors name))

/-- Push the metadata of a name about to change; the index of the record, if one was
pushed. -/
def beginBindingChange (s : Scope) (name : String) : Scope × Option Nat :=
  if s.journal.depth = 0 then (s, none)
  else (s.pushUndo (.binding name (s.captureMetadata name)), some s.journal.undo.length)

/-- Complete the record at `index`, counted from the oldest, with the type the change
replaced. -/
def finishBindingChange (s : Scope) (index : Option Nat) (previous : Option RType) : Scope :=
  match index with
  | none => s
  | some i =>
    { s with journal := { s.journal with
        undo := s.journal.undo.modify (s.journal.undo.length - 1 - i) fun
          | .binding name state => .binding name { state with ty := previous }
          | u => u } }

/-! ## Facts about operators, strings and conditions -/

def clearOpsBinding (s : Scope) (rawName : String) : Scope :=
  let name := semanticArgumentName rawName
  let function := s.literalFunctions.lookup name
  let vector := marked s.plainOpsVectors name
  let s' := { s with
    literalFunctions := s.literalFunctions.erase name
    plainOpsVectors := s.plainOpsVectors.erase name }
  if function.isSome || vector then s'.record (.opsBinding name function vector) else s'

def setLiteralFunction (s : Scope) (name : String) (function : LiteralFunction) : Scope :=
  let s := s.journalOpsBinding name
  { s with literalFunctions := s.literalFunctions.insert name function }

def markPlainOpsVector (s : Scope) (name : String) : Scope :=
  let s := s.journalOpsBinding name
  { s with plainOpsVectors := insert name s.plainOpsVectors }

def clearOpsFacts (s : Scope) : Scope :=
  let s' := { s with literalFunctions := ∅, plainOpsVectors := ∅ }
  if !s.literalFunctions.isEmpty || decide (s.plainOpsVectors ≠ ∅) then
    s'.record (.opsTables s.literalFunctions s.plainOpsVectors)
  else s'

def setKnownString (s : Scope) (name value : String) : Scope :=
  if s.uncertainty.effects || s.uncertainty.literalValues then s
  else
    let name := semanticArgumentName name
    { s with knownStrings := s.knownStrings.insert name value }.record
      (.knownString name (s.knownStrings.lookup name))

def clearKnownString (s : Scope) (rawName : String) : Scope :=
  let name := semanticArgumentName rawName
  match s.knownStrings.lookup name with
  | none => s
  | some value =>
    { s with knownStrings := s.knownStrings.erase name }.record (.knownString name (some value))

def clearKnownStrings (s : Scope) : Scope :=
  let s' := { s with knownStrings := ∅ }
  if !s.knownStrings.isEmpty then s'.record (.knownStrings s.knownStrings) else s'

/-- A predicate that reads its own name describes the old value and is not recorded. -/
def setConditionAlias (s : Scope) (rawName : String) (cond : Expr) : Scope :=
  let reads := cond.idents.map semanticArgumentName
  let name := semanticArgumentName rawName
  if name ∈ reads then s
  else
    { s with conditionAliases := s.conditionAliases.insert name ⟨cond, reads⟩ }.record
      (.conditionAlias name (s.conditionAliases.lookup name))

def removeConditionAlias (s : Scope) (name : String) : Scope :=
  { s with conditionAliases := s.conditionAliases.erase name }.record
    (.conditionAlias name (s.conditionAliases.lookup name))

/-- Drop each alias whose own name, or a name its predicate reads, `keep` rejects. -/
def retainConditionAliases (s : Scope) (order : IterOrder) (keep : String → Bool) : Scope :=
  let lost := s.conditionAliases.keys.filter fun name =>
    !keep name || ((s.conditionAliases.lookup name).elim false fun a => a.reads.any (!keep ·))
  (order.list lost).foldl removeConditionAlias s

def clearConditionAliases (s : Scope) : Scope :=
  let s' := { s with conditionAliases := ∅ }
  if !s.conditionAliases.isEmpty then s'.record (.conditionAliases s.conditionAliases) else s'

def invalidateLiteralValues (s : Scope) : Scope :=
  let s := s.clearKnownStrings
  { s with uncertainty := { s.uncertainty with literalValues := true } }

def invalidateLiteralValuesForDispatch (s : Scope) (value : RType) : Scope :=
  if value.cls.isUnknown || value.cls.hasKnownClass || value.mode.isUnknownOrNonVector
      || value.mode == .union then
    s.invalidateLiteralValues
  else s

def invalidateOpsEnvironment (s : Scope) : Scope :=
  let s := s.clearKnownStrings.clearOpsFacts
  { s with uncertainty := { s.uncertainty with opsEnvironment := true } }

/-! ## Provenance -/

def invalidateProvenance (s : Scope) (name : String) : Scope :=
  { s with referenceProvenance := s.referenceProvenance.map fun p =>
      { p with bindings := p.bindings.erase name } }

/-- `ScopeProvenance::invalidate_all` -/
def invalidateAllProvenance (s : Scope) : Scope :=
  { s with referenceProvenance := s.referenceProvenance.map fun p =>
      { p with
        bindings := ∅
        afterUnsafeRead := true
        unsafeReadBlocker :=
          if p.afterUnsafeRead then p.unsafeReadBlocker
          else some ⟨"semantic_effect", "unknown_effect", none, p.owner⟩ } }

def clearReferenceBindings (s : Scope) : Scope :=
  match s.referenceProvenance with
  | none => s
  | some p =>
    { s with referenceProvenance := some { p with bindings := ∅ } }.record (.provenance p.bindings)

def startReferenceScope (s : Scope) (owner : Span) : Scope :=
  match s.referenceProvenance with
  | some p => { s with referenceProvenance := some { p with owner } }
  | none => { s with referenceProvenance := some ⟨owner, false, none, ∅⟩ }

/-- `definition` is the declaration the capture holds for this name in an eligible
scope, if there is one. -/
def installReferenceDefinition (s : Scope) (name : String) (definition : Option DefinitionId)
    (typeKnown : Bool) : Scope :=
  if s.referenceProvenance.isNone then s
  else
    let s := s.journalReferenceBinding name
    match s.referenceProvenance, definition with
    | some p, some definition =>
      if p.afterUnsafeRead then s
      else
        { s with referenceProvenance := some { p with
            bindings := p.bindings.insert name ⟨definition, p.owner, typeKnown⟩ } }
    | _, _ => s

/-- A formal, inherited or untracked read may run arbitrary code. -/
def finishReferenceRead (s : Scope) (name : String) (span : Span) : Scope :=
  match s.referenceProvenance with
  | none => s
  | some p =>
    let ordinaryLocal := (p.bindings.lookup name).elim false (·.owner == p.owner)
    if marked s.parameterBindings name || !ordinaryLocal then
      clearReferenceBindings { s with referenceProvenance := some (p.noteUnsafeRead span) }
    else s

/-! ## Box objects -/

def boxCallAfterWrite (s : Scope) (name : String) (value : RType) : Bool :=
  value.mode != .function && (s.boxObjects.lookup name).elim false BoxObject.isCall

def replaceBoxCallAfterWrite (s : Scope) (name : String) (value : RType) : Scope :=
  { s with boxObjects :=
      if s.boxCallAfterWrite name value then s.boxObjects.insert name .opaqueCall
      else s.boxObjects.erase name }

/-- Effect invalidation forgets values, not the attachments beneath them. -/
def keepBoxCallsAfterWrites (s : Scope) : Scope :=
  { s with boxObjects :=
      Table.mapValues (Table.retain s.boxObjects fun _ object => object.isCall) fun _ _ =>
        BoxObject.opaqueCall }

def setFunctionAlias (s : Scope) (name target : String) : Scope :=
  let s := s.journalAlias name
  { s with functionAliases := s.functionAliases.insert name target }

def setBoxObject (s : Scope) (name : String) (object : BoxObject) : Scope :=
  let s := s.journalBinding name
  { s with boxObjects := s.boxObjects.insert name object }

/-- Other call stages see a package function through its alias. -/
def setBoxAttachment (s : Scope) (name : String) (callable : Option BoxCallable) : Scope :=
  let s := match callable with
    | some (.package target) => s.setFunctionAlias name target
    | _ => s
  s.setBoxObject name (.attached callable)

/-- A package attachment is about to go; so does the alias it set. -/
def forgetPackageAlias (s : Scope) (name : String) : Scope :=
  match s.boxObjects.lookup name with
  | some (.attached (some (.package _))) =>
    { s with functionAliases := s.functionAliases.erase name }
  | _ => s

/-- One name of `apply_box_provenance`. -/
def applyBoxObject (s : Scope) (name : String) (object : Option BoxObject) : Scope :=
  if s.boxObjects.lookup name == object then s
  else
    let s := (s.journalBinding name).forgetPackageAlias name
    match object with
    | some (.attached callable) => s.setBoxAttachment name callable
    | some object => { s with boxObjects := s.boxObjects.insert name object }
    | none => { s with boxObjects := s.boxObjects.erase name }

def applyBoxProvenance (s : Scope) (joined : List (String × Option BoxObject)) : Scope :=
  joined.foldl (fun s entry => s.applyBoxObject entry.1 entry.2) s

/-! ## Writing a binding -/

def noteEscapedSlot (s : Scope) (name : String) : Scope :=
  if s.uncertainty.escapedSlotNames then s
  else
    { s with uncertainty := { s.uncertainty with
        escapedSlotNames := escapedNameMayMaskSlot name } }

/-- What an ordinary assignment forgets about a name. -/
def forgetBinding (s : Scope) (name : String) : Scope :=
  { s.invalidateProvenance name with
    functionAliases := s.functionAliases.erase name
    boxObjects := s.boxObjects.erase name
    lexicalFunctions := s.lexicalFunctions.erase name
    lexicalDefinitions := s.lexicalDefinitions.erase name
    listOriginBindings := s.listOriginBindings.erase name
    parameterBindings := s.parameterBindings.erase name
    scalarAssertedBindings := s.scalarAssertedBindings.erase name
    loopVectorBindings := s.loopVectorBindings.erase name
    defaultParameterBindings := s.defaultParameterBindings.erase name
    narrowedBindings := s.narrowedBindings.erase name }

def assign (s : Scope) (name : String) (ty : RType) : Scope :=
  { s.forgetBinding name with bindings := s.bindings.insert name ty }

/-- What an assignment to `name` is about to remove, and the type it replaces. -/
def assignmentUndo (s : Scope) (name : String) : AssignmentUndo where
  ty := s.get name
  removedMarkers := s.markers name
  lexicalDefinition := s.lexicalDefinitions.lookup name
  aliasTarget := s.functionAliases.lookup name
  boxObject := s.boxObjects.lookup name
  provenance := s.provenanceOf name

/-- The journaling assignment: one compact record for all it removes, and none at all
when it removes nothing and the type compares equal. -/
def insertWithAssignmentUndo (s : Scope) (name : String) (ty : RType) : Scope :=
  let s := s.clearOpsBinding name
  let undo := s.assignmentUndo name
  if (s.get name).elim false (·.eq ty) && undo.removedNothing then s.forgetBinding name
  else (s.assign name ty).pushUndo (.assignment name undo)

def insertValue (s : Scope) (order : IterOrder) (name : String) (ty : RType) : Scope :=
  let s := s.clearKnownString name
  let s := s.retainConditionAliases order (· != semanticArgumentName name)
  let s := s.noteEscapedSlot name
  if 0 < s.journal.depth then s.insertWithAssignmentUndo name ty
  else (s.clearOpsBinding name).assign name ty

def insert (s : Scope) (order : IterOrder) (name : String) (ty : RType) : Scope :=
  if s.boxCallAfterWrite name ty then
    (s.insertValue order name ty).setBoxObject name .opaqueCall
  else s.insertValue order name ty

/-- Preserves the parameter, default-parameter and list-origin markers. -/
def insertNarrowed (s : Scope) (name : String) (ty : RType) : Scope :=
  let excludesUnclassedVector :=
    ty.cls.hasKnownClass || ty.length == .zero || ty.length == .one
  let s := s.noteEscapedSlot name
  let (s, journal) := s.beginBindingChange name
  let s := (s.clearOpsBinding name).invalidateProvenance name
  let s := { s with functionAliases := s.functionAliases.erase name }
  let s := s.replaceBoxCallAfterWrite name ty
  let s := { s with
    lexicalFunctions := s.lexicalFunctions.erase name
    loopVectorBindings :=
      if excludesUnclassedVector then s.loopVectorBindings.erase name else s.loopVectorBindings
    lexicalDefinitions := s.lexicalDefinitions.erase name }
  let previous := s.get name
  let s := { s with bindings := s.bindings.insert name ty }.finishBindingChange journal previous
  { s with narrowedBindings := Insert.insert name s.narrowedBindings }

def insertParameter (s : Scope) (order : IterOrder) (name : String) (ty : RType) : Scope :=
  let s := (s.insert order name ty).journalMarker name .parameter
  { s with parameterBindings := Insert.insert name s.parameterBindings }

/-- Preserves the lexical-function and list-origin markers. -/
def insertParameterDefault (s : Scope) (name : String) (ty : RType) : Scope :=
  let s := s.noteEscapedSlot name
  let (s, journal) := s.beginBindingChange name
  let s := (s.clearOpsBinding name).invalidateProvenance name
  let s := { s with functionAliases := s.functionAliases.erase name }
  let s := s.replaceBoxCallAfterWrite name ty
  let s := { s with
    narrowedBindings := s.narrowedBindings.erase name
    scalarAssertedBindings := s.scalarAssertedBindings.erase name
    loopVectorBindings := s.loopVectorBindings.erase name
    lexicalDefinitions := s.lexicalDefinitions.erase name }
  let previous := s.get name
  let s := { s with bindings := s.bindings.insert name ty }.finishBindingChange journal previous
  { s with
    parameterBindings := Insert.insert name s.parameterBindings
    defaultParameterBindings := Insert.insert name s.defaultParameterBindings }

def replaceBindingOnly (s : Scope) (name : String) (ty : Option RType) : Scope :=
  let s := s.journalBinding name
  { s with bindings := s.bindings.put name ty }

/-! ## Markers -/

def markListOrigin (s : Scope) (name : String) : Scope :=
  let s := s.journalMarker name .listOrigin
  { s with listOriginBindings := Insert.insert name s.listOriginBindings }

def markScalarAsserted (s : Scope) (name : String) : Scope :=
  if name ∈ s.scalarAssertedBindings then s
  else
    let s := s.journalMarker name .scalarAsserted
    { s with scalarAssertedBindings := Insert.insert name s.scalarAssertedBindings }

def clearScalarAsserted (s : Scope) (name : String) : Scope :=
  if name ∈ s.scalarAssertedBindings then
    let s := s.journalMarker name .scalarAsserted
    { s with scalarAssertedBindings := s.scalarAssertedBindings.erase name }
  else s

def retainScalarAssertions (s : Scope) (order : IterOrder) (keep : String → Bool) : Scope :=
  (order.list (s.scalarAssertedBindings.filter (!keep ·))).foldl clearScalarAsserted s

def clearScalarAssertions (s : Scope) (order : IterOrder) : Scope :=
  s.retainScalarAssertions order fun _ => false

def invalidateScalarAssertions (s : Scope) (order : IterOrder) : Scope :=
  { s with uncertainty := { s.uncertainty with dynamicBindings := true } }.clearScalarAssertions
    order

def markLoopVector (s : Scope) (name : String) : Scope :=
  if name ∈ s.loopVectorBindings then s
  else
    let s := s.journalMarker name .loopVector
    { s with loopVectorBindings := Insert.insert name s.loopVectorBindings }

def clearLoopVector (s : Scope) (name : String) : Scope :=
  if name ∈ s.loopVectorBindings then
    let s := s.journalMarker name .loopVector
    { s with loopVectorBindings := s.loopVectorBindings.erase name }
  else s

def markBoundFunctionDefinition (s : Scope) (name : String) (definition : Span) : Scope :=
  let s := s.journalLexicalDefinition name
  { s with lexicalDefinitions := s.lexicalDefinitions.insert name definition }

def markLexicalCallable (s : Scope) (name : String) : Scope :=
  let s := s.journalMarker name .lexical
  { s with lexicalFunctions := Insert.insert name s.lexicalFunctions }

def markLexicalFunction (s : Scope) (name : String) (definition : Span) : Scope :=
  (s.markLexicalCallable name).markBoundFunctionDefinition name definition

def forgetLexicalDefinition (s : Scope) (name : String) : Scope :=
  let s := s.journalLexicalDefinition name
  { s with lexicalDefinitions := s.lexicalDefinitions.erase name }

/-! ## Unknown effects -/

def dataMaskEnvUnknown (s : Scope) : Bool := s.dataMask.elim false (·.envUnknown)

def invalidateDataMaskEnv (s : Scope) : Scope :=
  { s with dataMask := s.dataMask.map fun frame => { frame with envUnknown := true } }

def markDataMaskColumn (s : Scope) (name : String) : Scope :=
  { s with dataMask := s.dataMask.map fun frame =>
      { frame with columns := Insert.insert name frame.columns } }

/-- Every name the scope records something about. -/
def recordedNames (s : Scope) : Finset String :=
  s.bindings.map.keys ∪ s.narrowedBindings ∪ s.parameterBindings ∪ s.scalarAssertedBindings
    ∪ s.loopVectorBindings ∪ s.defaultParameterBindings ∪ s.listOriginBindings
    ∪ s.lexicalFunctions ∪ s.lexicalDefinitions.keys ∪ s.functionAliases.keys
    ∪ s.boxObjects.keys

def journalRecordedNames (s : Scope) (order : IterOrder) : Scope :=
  if 0 < s.journal.depth then (order.list s.recordedNames).foldl journalBinding s else s

/-- The names stay, and nothing is known about them. -/
def forgetAll (s : Scope) : Scope :=
  { s.keepBoxCallsAfterWrites with
    bindings := s.bindings.mapTypes fun _ => RType.unknown
    narrowedBindings := ∅
    parameterBindings := ∅
    scalarAssertedBindings := ∅
    loopVectorBindings := ∅
    listOriginBindings := ∅
    defaultParameterBindings := ∅
    functionAliases := ∅
    lexicalFunctions := ∅
    lexicalDefinitions := ∅ }

def clearFailedNamespaces (s : Scope) : Scope := { s with failedNamespaces := ∅ }

/-- The flags an unknown effect leaves. -/
def noteEffects (s : Scope) : Scope :=
  { s.invalidateDataMaskEnv with
    uncertainty := { s.uncertainty with effects := true }
    dataMaskUnknown := true
    searchPathUnknown := true }

/-- Unknown code may mutate values or install active bindings. -/
def invalidateUnknownEffects (s : Scope) (order : IterOrder) : Scope :=
  let s := s.clearKnownStrings.clearConditionAliases.journalRecordedNames order
  let s := s.clearFailedNamespaces.clearReferenceBindings.forgetAll
  s.invalidateAllProvenance.noteEffects.invalidateOpsEnvironment

end Scope

end Ry
