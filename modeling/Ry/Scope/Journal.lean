import Ry.Scope.Mutators

/-! # Snapshots

`scope_journal.rs`: a branch is walked in place between `beginSnapshot` and
`finishSnapshot`.  The latter reads the branch's delta off its records and the final
tables, then replays the records newest first.

`Step` and `Walk` are what runs between the two: the journaled mutators in any order,
with further snapshots nested to any depth.
-/

namespace Ry

def setMarker (set : Finset String) (name : String) (present : Bool) : Finset String :=
  if present then insert name set else set.erase name

theorem marked_setMarker (set : Finset String) (n name : String) (present : Bool) :
    marked (setMarker set name present) n = if n = name then present else marked set n := by
  cases present
  · exact marked_erase set n name
  · exact marked_insert set n name

theorem setMarker_marked {set set' : Finset String} {name : String}
    (h : ∀ n, n ≠ name → marked set' n = marked set n) :
    setMarker set' name (marked set name) = set := by
  refine marked_ext fun n => ?_
  rw [marked_setMarker]
  split
  · rename_i hn
    rw [hn]
  · rename_i hn
    exact h n hn

@[simp] theorem setMarker_self (set : Finset String) (name : String) :
    setMarker set name (marked set name) = set :=
  setMarker_marked fun _ _ => rfl

@[simp] theorem setMarker_insert_marked (set : Finset String) (name : String) :
    setMarker (insert name set) name (marked set name) = set :=
  setMarker_marked fun n hn => by rw [marked_insert, if_neg hn]

@[simp] theorem setMarker_erase_marked (set : Finset String) (name : String) :
    setMarker (set.erase name) name (marked set name) = set :=
  setMarker_marked fun n hn => by rw [marked_erase, if_neg hn]

namespace Scope

def putProvenance (s : Scope) (name : String) (p : Option BindingProvenance) : Scope :=
  { s with referenceProvenance := s.referenceProvenance.map fun table =>
      { table with bindings := Table.put table.bindings name p } }

end Scope

/-- Write every fact about a name back. -/
def BindingState.restore (state : BindingState) (s : Scope) (name : String) : Scope :=
  { s.putProvenance name state.provenance with
    narrowedBindings := setMarker s.narrowedBindings name state.markers.narrowed
    parameterBindings := setMarker s.parameterBindings name state.markers.parameter
    scalarAssertedBindings := setMarker s.scalarAssertedBindings name state.markers.scalarAsserted
    loopVectorBindings := setMarker s.loopVectorBindings name state.markers.loopVector
    listOriginBindings := setMarker s.listOriginBindings name state.markers.listOrigin
    defaultParameterBindings :=
      setMarker s.defaultParameterBindings name state.markers.defaultParameter
    lexicalFunctions := setMarker s.lexicalFunctions name state.markers.lexical
    lexicalDefinitions := Table.put s.lexicalDefinitions name state.lexicalDefinition
    functionAliases := Table.put s.functionAliases name state.aliasTarget
    boxObjects := Table.put s.boxObjects name state.boxObject
    bindings := s.bindings.put name state.ty }

/-- Add back what the assignment removed; after the later records are replayed,
absent facts need no work. -/
def AssignmentUndo.restore (state : AssignmentUndo) (s : Scope) (name : String) : Scope :=
  let readd (set : Finset String) (removed : Bool) := if removed then insert name set else set
  let s := match state.provenance with
    | some p => s.putProvenance name (some p)
    | none => s
  { s with
    narrowedBindings := readd s.narrowedBindings state.removedMarkers.narrowed
    parameterBindings := readd s.parameterBindings state.removedMarkers.parameter
    scalarAssertedBindings := readd s.scalarAssertedBindings state.removedMarkers.scalarAsserted
    loopVectorBindings := readd s.loopVectorBindings state.removedMarkers.loopVector
    listOriginBindings := readd s.listOriginBindings state.removedMarkers.listOrigin
    defaultParameterBindings :=
      readd s.defaultParameterBindings state.removedMarkers.defaultParameter
    lexicalFunctions := readd s.lexicalFunctions state.removedMarkers.lexical
    lexicalDefinitions := Table.put s.lexicalDefinitions name state.lexicalDefinition
    functionAliases := state.aliasTarget.elim s.functionAliases (s.functionAliases.insert name ·)
    boxObjects := state.boxObject.elim s.boxObjects (s.boxObjects.insert name ·)
    bindings := s.bindings.put name state.ty }

namespace Undo

def replay (u : Undo) (s : Scope) : Scope :=
  match u with
  | .knownString name previous =>
    { s with knownStrings := Table.put s.knownStrings name previous }
  | .knownStrings previous => { s with knownStrings := previous }
  | .conditionAlias name previous =>
    { s with conditionAliases := Table.put s.conditionAliases name previous }
  | .conditionAliases previous => { s with conditionAliases := previous }
  | .assignment name state => state.restore s name
  | .binding name state => state.restore s name
  | .marker kind name present =>
    match kind with
    | .listOrigin =>
      { s with listOriginBindings := setMarker s.listOriginBindings name present }
    | .lexical => { s with lexicalFunctions := setMarker s.lexicalFunctions name present }
    | .parameter => { s with parameterBindings := setMarker s.parameterBindings name present }
    | .scalarAsserted =>
      { s with scalarAssertedBindings := setMarker s.scalarAssertedBindings name present }
    | .loopVector =>
      { s with loopVectorBindings := setMarker s.loopVectorBindings name present }
  | .lexicalDefinition name previous =>
    { s with lexicalDefinitions := Table.put s.lexicalDefinitions name previous }
  | .aliasTarget name previous =>
    { s with functionAliases := Table.put s.functionAliases name previous }
  | .reference name previous => s.putProvenance name previous
  | .opsBinding name function vector =>
    { s with
      literalFunctions := Table.put s.literalFunctions name function
      plainOpsVectors := setMarker s.plainOpsVectors name vector }
  | .opsTables functions vectors =>
    { s with literalFunctions := functions, plainOpsVectors := vectors }
  | .provenance bindings =>
    { s with referenceProvenance := s.referenceProvenance.map fun p => { p with bindings } }

end Undo

/-- The fields a snapshot saves whole. -/
structure FrameFlags where
  uncertainty : Uncertainty
  loopFrame : Option Nat
  failedNamespaces : Finset String
  dataMaskUnknown : Bool
  dataMask : Option DataMaskFrame
  tidyInjection : Option InjectionMode
  searchPathUnknown : Bool
  unreachable : Bool

structure Mark where
  len : Nat
  flags : FrameFlags
  provenance : Option (Span × Bool × Option ReferenceBlocker)

structure BranchDelta where
  changed : Table String BindingState
  unreachable : Bool
  uncertainty : Uncertainty
  dataMaskEnvUnknown : Bool

namespace Scope

def flags (s : Scope) : FrameFlags where
  uncertainty := s.uncertainty
  loopFrame := s.loopFrame
  failedNamespaces := s.failedNamespaces
  dataMaskUnknown := s.dataMaskUnknown
  dataMask := s.dataMask
  tidyInjection := s.tidyInjection
  searchPathUnknown := s.searchPathUnknown
  unreachable := s.unreachable

def writeFlags (s : Scope) (f : FrameFlags) : Scope :=
  { s with
    uncertainty := f.uncertainty
    loopFrame := f.loopFrame
    failedNamespaces := f.failedNamespaces
    dataMaskUnknown := f.dataMaskUnknown
    dataMask := f.dataMask
    tidyInjection := f.tidyInjection
    searchPathUnknown := f.searchPathUnknown
    unreachable := f.unreachable }

def beginSnapshot (s : Scope) : Scope × Mark :=
  ({ s with journal := { s.journal with depth := s.journal.depth + 1 } },
    { len := s.journal.undo.length
      flags := s.flags
      provenance := s.referenceProvenance.map fun p =>
        (p.owner, p.afterUnsafeRead, p.unsafeReadBlocker) })

/-- The latest record met for a name decides its entry.  An ordinary assignment
clears all binding metadata, so its entry is the type alone, which is moved out. -/
def captureRecord (acc : Scope × Table String BindingState) (u : Undo) :
    Scope × Table String BindingState :=
  match u with
  | .assignment name _ =>
    if (acc.2.lookup name).isSome then acc
    else
      ({ acc.1 with bindings := acc.1.bindings.remove name },
        acc.2.insert name { BindingState.default with ty := acc.1.get name })
  | .binding name _ | .marker _ name _ | .lexicalDefinition name _ | .aliasTarget name _
  | .reference name _ =>
    if (acc.2.lookup name).isSome then acc else (acc.1, acc.2.insert name (acc.1.capture name))
  | .provenance _ | .opsBinding .. | .opsTables .. | .knownString .. | .knownStrings _
  | .conditionAlias .. | .conditionAliases _ => acc

/-- The delta of the branch whose records are `records`, newest first, and the scope
with the moved types taken out. -/
def captureDelta (s : Scope) (records : List Undo) : Scope × BranchDelta :=
  let captured := records.foldl captureRecord (s, ∅)
  (captured.1,
    { changed := captured.2
      unreachable := s.unreachable
      uncertainty := s.uncertainty
      dataMaskEnvUnknown := s.dataMaskEnvUnknown })

def restoreProvenance (s : Scope) (mark : Option (Span × Bool × Option ReferenceBlocker)) :
    Scope :=
  match mark with
  | none => { s with referenceProvenance := none }
  | some (owner, afterUnsafeRead, unsafeReadBlocker) =>
    let bindings := s.referenceProvenance.elim ∅ (·.bindings)
    { s with referenceProvenance := some ⟨owner, afterUnsafeRead, unsafeReadBlocker, bindings⟩ }

def finishSnapshot (s : Scope) (mark : Mark) : Scope × BranchDelta :=
  let count := s.journal.undo.length - mark.len
  let records := s.journal.undo.take count
  let (moved, delta) := s.captureDelta records
  let s := records.foldl (fun s u => u.replay s)
    { moved with journal := { moved.journal with undo := moved.journal.undo.drop count } }
  let s := (s.writeFlags mark.flags).restoreProvenance mark.provenance
  ({ s with journal := { s.journal with depth := s.journal.depth - 1 } }, delta)

end Scope

/-! ## Runs -/

/-- One call of a journaled mutator, or a direct write of a field that snapshots save
whole. -/
inductive Step
  | insert (name : String) (ty : RType)
  | insertNarrowed (name : String) (ty : RType)
  | insertParameter (name : String) (ty : RType)
  | insertParameterDefault (name : String) (ty : RType)
  | replaceBindingOnly (name : String) (ty : Option RType)
  | markListOrigin (name : String)
  | markScalarAsserted (name : String)
  | clearScalarAsserted (name : String)
  | retainScalarAssertions (keep : String → Bool)
  | invalidateScalarAssertions
  | markLoopVector (name : String)
  | clearLoopVector (name : String)
  | setFunctionAlias (name target : String)
  | setBoxObject (name : String) (object : BoxObject)
  | setBoxAttachment (name : String) (callable : Option BoxCallable)
  | applyBoxProvenance (joined : List (String × Option BoxObject))
  | markLexicalFunction (name : String) (definition : Span)
  | markBoundFunctionDefinition (name : String) (definition : Span)
  | markLexicalCallable (name : String)
  | forgetLexicalDefinition (name : String)
  | invalidateUnknownEffects
  | invalidateDataMaskEnv
  | markDataMaskColumn (name : String)
  | invalidateOpsEnvironment
  | clearOpsBinding (rawName : String)
  | setLiteralFunction (name : String) (function : LiteralFunction)
  | markPlainOpsVector (name : String)
  | clearOpsFacts
  | setKnownString (name value : String)
  | clearKnownString (name : String)
  | clearKnownStrings
  | setConditionAlias (name : String) (cond : Expr)
  | retainConditionAliases (keep : String → Bool)
  | clearConditionAliases
  | invalidateLiteralValues
  | invalidateLiteralValuesForDispatch (value : RType)
  | startReferenceScope (owner : Span)
  | installReferenceDefinition (name : String) (definition : Option DefinitionId)
      (typeKnown : Bool)
  | finishReferenceRead (name : String) (span : Span)
  | writeFlags (flags : FrameFlags)
  | noteBlockWrite (name : String)

namespace Step

/-- `order` is the order in which the call's own loops visit their names. -/
def apply (order : IterOrder) (s : Scope) : Step → Scope
  | insert name ty => s.insert order name ty
  | insertNarrowed name ty => s.insertNarrowed name ty
  | insertParameter name ty => s.insertParameter order name ty
  | insertParameterDefault name ty => s.insertParameterDefault name ty
  | replaceBindingOnly name ty => s.replaceBindingOnly name ty
  | markListOrigin name => s.markListOrigin name
  | markScalarAsserted name => s.markScalarAsserted name
  | clearScalarAsserted name => s.clearScalarAsserted name
  | retainScalarAssertions keep => s.retainScalarAssertions order keep
  | invalidateScalarAssertions => s.invalidateScalarAssertions order
  | markLoopVector name => s.markLoopVector name
  | clearLoopVector name => s.clearLoopVector name
  | setFunctionAlias name target => s.setFunctionAlias name target
  | setBoxObject name object => s.setBoxObject name object
  | setBoxAttachment name callable => s.setBoxAttachment name callable
  | applyBoxProvenance joined => s.applyBoxProvenance joined
  | markLexicalFunction name definition => s.markLexicalFunction name definition
  | markBoundFunctionDefinition name definition => s.markBoundFunctionDefinition name definition
  | markLexicalCallable name => s.markLexicalCallable name
  | forgetLexicalDefinition name => s.forgetLexicalDefinition name
  | invalidateUnknownEffects => s.invalidateUnknownEffects order
  | invalidateDataMaskEnv => s.invalidateDataMaskEnv
  | markDataMaskColumn name => s.markDataMaskColumn name
  | invalidateOpsEnvironment => s.invalidateOpsEnvironment
  | clearOpsBinding rawName => s.clearOpsBinding rawName
  | setLiteralFunction name function => s.setLiteralFunction name function
  | markPlainOpsVector name => s.markPlainOpsVector name
  | clearOpsFacts => s.clearOpsFacts
  | setKnownString name value => s.setKnownString name value
  | clearKnownString name => s.clearKnownString name
  | clearKnownStrings => s.clearKnownStrings
  | setConditionAlias name cond => s.setConditionAlias name cond
  | retainConditionAliases keep => s.retainConditionAliases order keep
  | clearConditionAliases => s.clearConditionAliases
  | invalidateLiteralValues => s.invalidateLiteralValues
  | invalidateLiteralValuesForDispatch value => s.invalidateLiteralValuesForDispatch value
  | startReferenceScope owner => s.startReferenceScope owner
  | installReferenceDefinition name definition typeKnown =>
    s.installReferenceDefinition name definition typeKnown
  | finishReferenceRead name span => s.finishReferenceRead name span
  | writeFlags flags => s.writeFlags flags
  | noteBlockWrite name =>
    { s with possibleBlockWrites := Insert.insert name s.possibleBlockWrites }

end Step

/-- What runs in a branch: mutator calls, and whole nested snapshots. -/
inductive Walk
  | done
  | step (order : IterOrder) (st : Step) (rest : Walk)
  /-- `begin_snapshot`, `branch`, the matching `finish_snapshot`, then `rest`. -/
  | snapshot (branch rest : Walk)

/-- Run the walk on a scope. -/
def Walk.run : Walk → Scope → Scope
  | done, s => s
  | step order st rest, s => rest.run (st.apply order s)
  | snapshot branch rest, s =>
    let (opened, mark) := s.beginSnapshot
    rest.run ((branch.run opened).finishSnapshot mark).1

end Ry
