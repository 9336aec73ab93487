import Mathlib.Data.Finset.Card
import Mathlib.Data.Finset.Filter
import Ry.Lib.Table
import Ry.Core.Ast
import Ry.Core.Join

/-! # The scope and its journal

`Scope` is one frame's binding table with its parallel per-name tables: about ten
facts about a name live in as many sets and maps beside `bindings`.  A branch is
walked in place and rolled back from the journal, so the journal's records are part
of the state.

The frame's outward chain and the subscript being inferred are left out: no function
modelled here reads them.
-/

namespace Ry

/-- The source's derived `==` on everything that holds a type. -/
instance : BEq RType := ⟨RType.eq⟩

/-- The byte `\`. -/
def backslash : Char := Char.ofNat 92

/-- Strip one pair of equal quotes from a name. -/
def semanticArgumentName (name : String) : String :=
  match name.toList with
  | c :: rest =>
    if rest.getLast? = some c ∧ c ∈ ['"', Char.ofNat 39, Char.ofNat 96] then
      String.ofList rest.dropLast
    else name
  | [] => name

/-- Whether a raw spelling holds an escape. -/
def hasEscape (name : String) : Bool := name.toList.contains backslash

/-- Whether an escaped raw name may decode to the replacement slot `@<-`. -/
def escapedNameMayMaskSlot (name : String) : Bool :=
  let name := (semanticArgumentName name).toList
  (name.head? == some '@' || name.head? == some backslash)
    && name.contains backslash
    && (name.takeWhile (· != backslash)).isPrefixOf ['@', '<', '-']

/-! ## Bindings -/

/-- Name to type, with the number of escaped names kept beside the map. -/
structure Bindings where
  map : Table String RType
  escapedNames : Nat
  counted : escapedNames = (map.keys.filter (hasEscape ·)).card

namespace Bindings

@[ext] theorem ext {a b : Bindings} (h : ∀ name, a.map.lookup name = b.map.lookup name) :
    a = b := by
  obtain ⟨m, n, hn⟩ := a
  obtain ⟨m', n', hn'⟩ := b
  obtain rfl : m = m' := Finmap.ext_lookup h
  subst hn hn'
  rfl

def empty : Bindings := ⟨∅, 0, by decide⟩

def get (b : Bindings) (name : String) : Option RType := b.map.lookup name

def insert (b : Bindings) (name : String) (ty : RType) : Bindings where
  map := b.map.insert name ty
  escapedNames :=
    if hasEscape name && (b.map.lookup name).isNone then b.escapedNames + 1 else b.escapedNames
  counted := by
    rw [Table.keys_insert, Finset.filter_insert, b.counted]
    by_cases he : hasEscape name = true
    · have hmem : name ∈ b.map.keys.filter (hasEscape ·) ↔ (b.map.lookup name).isSome := by
        simp [Table.mem_keys_iff, he]
      cases hlookup : b.map.lookup name with
      | none =>
        have hnot := mt hmem.mp (by simp [hlookup])
        simp [he, Finset.card_insert_of_notMem hnot]
      | some t => simp [he, Finset.insert_eq_of_mem (hmem.mpr (by simp [hlookup]))]
    · simp [he]

def remove (b : Bindings) (name : String) : Bindings where
  map := b.map.erase name
  escapedNames :=
    if (b.map.lookup name).isSome && hasEscape name then b.escapedNames - 1 else b.escapedNames
  counted := by
    rw [Table.keys_erase, Finset.filter_erase, b.counted]
    have hmem : name ∈ b.map.keys.filter (hasEscape ·) ↔
        ((b.map.lookup name).isSome && hasEscape name) = true := by
      simp [Table.mem_keys_iff]
    by_cases h : ((b.map.lookup name).isSome && hasEscape name) = true
    · rw [if_pos h, Finset.card_erase_of_mem (hmem.mpr h)]
    · rw [if_neg h, Finset.erase_eq_of_notMem (mt hmem.mp h)]

/-- `iter_mut` over the types; the names stay. -/
def mapTypes (b : Bindings) (f : RType → RType) : Bindings where
  map := Table.mapValues b.map fun _ => f
  escapedNames := b.escapedNames
  counted := by
    rw [b.counted, Table.keys_mapValues]

def hasEscapedNames (b : Bindings) : Bool := 0 < b.escapedNames

def put (b : Bindings) (name : String) : Option RType → Bindings
  | some ty => b.insert name ty
  | none => b.remove name

@[simp] theorem get_insert (b : Bindings) (n name : String) (ty : RType) :
    (b.insert name ty).get n = if n = name then some ty else b.get n :=
  Table.lookup_insert b.map n name ty

@[simp] theorem get_remove (b : Bindings) (n name : String) :
    (b.remove name).get n = if n = name then none else b.get n :=
  Table.lookup_erase b.map n name

@[simp] theorem get_put (b : Bindings) (n name : String) (ty : Option RType) :
    (b.put name ty).get n = if n = name then ty else b.get n := by
  cases ty with
  | none => exact get_remove b n name
  | some ty => exact get_insert b n name ty

@[simp] theorem get_mapTypes (b : Bindings) (f : RType → RType) (n : String) :
    (b.mapTypes f).get n = (b.get n).map f :=
  Table.lookup_mapValues b.map (fun _ => f) n

theorem ext_get {a b : Bindings} (h : ∀ name, a.get name = b.get name) : a = b := ext h

end Bindings

/-! ## What a scope records beside types -/

/-- What unmodeled code on some path into the current point may have done. -/
structure Uncertainty where
  opsEnvironment : Bool
  effects : Bool
  dynamicBindings : Bool
  literalValues : Bool
  unseenRebinds : Bool
  escapedSlotNames : Bool
deriving DecidableEq, Repr

namespace Uncertainty

/-- What an `if` arm passes to the continuation. -/
def continuing (u : Uncertainty) (diverges : Bool) : Uncertainty :=
  { u with dynamicBindings := u.dynamicBindings && !diverges }

/-- `|` -/
def or (a b : Uncertainty) : Uncertainty where
  opsEnvironment := a.opsEnvironment || b.opsEnvironment
  effects := a.effects || b.effects
  dynamicBindings := a.dynamicBindings || b.dynamicBindings
  literalValues := a.literalValues || b.literalValues
  unseenRebinds := a.unseenRebinds || b.unseenRebinds
  escapedSlotNames := a.escapedSlotNames || b.escapedSlotNames

end Uncertainty

/-- A local bound to a guard predicate: the predicate, and every name it reads. -/
structure ConditionAlias where
  cond : Expr
  reads : List String

/-- Evidence about a function value.  Aliases share one allocation, which is its
identity. -/
structure LiteralFunction where
  allocation : Nat
deriving DecidableEq

/-- File-local identity of a definition. -/
structure DefinitionId where
  index : Nat
deriving DecidableEq

structure BindingProvenance where
  definition : DefinitionId
  owner : Span
  typeKnown : Bool
deriving DecidableEq

/-- Why a reference could not be resolved. -/
structure ReferenceBlocker where
  kind : String
  cause : String
  span : Option Span
  scopeSpan : Span
deriving DecidableEq

structure ScopeProvenance where
  owner : Span
  afterUnsafeRead : Bool
  unsafeReadBlocker : Option ReferenceBlocker
  bindings : Table String BindingProvenance

structure UserParam where
  name : String
  type : RType
  required : Bool
  defaulted : Bool
  defused : Bool
  forcingDefaults : List String
  quoting : Bool
  unforced : Bool
  missingOnly : Bool
  injection : Option InjectionMode
deriving BEq

structure BoxFunction where
  params : List UserParam
  returnType : RType
deriving BEq

inductive BoxCallable
  | function (f : BoxFunction)
  /-- A package function, by its qualified name. -/
  | package (target : String)
deriving BEq

structure BoxExport where
  value : RType
  callable : Option BoxCallable
deriving BEq

structure BoxInventory where
  exports : List (String × BoxExport)
  complete : Bool
deriving BEq

/-- Box provenance of a binding, stored beside its value type. -/
inductive BoxObject
  | package (name : String)
  | module (inventory : BoxInventory)
  /-- A selected or wildcard attachment, with its call target if known. -/
  | attached (callable : Option BoxCallable)
  /-- A binding whose call target is unknown. -/
  | opaqueCall
deriving BEq

/-- Name resolution inside a data mask. -/
structure DataMaskFrame where
  id : Nat
  columnsFirst : Bool
  columns : Finset String
  /-- The lexical bindings when the mask was entered. -/
  env : Bindings
  envUnknown : Bool

/-! ## The journal -/

/-- `contains` on a marker set. -/
def marked (set : Finset String) (name : String) : Bool := decide (name ∈ set)

@[simp] theorem marked_empty (n : String) : marked ∅ n = false := rfl

theorem marked_insert (set : Finset String) (n name : String) :
    marked (insert name set) n = if n = name then true else marked set n := by
  by_cases h : n = name <;> simp [marked, h]

theorem marked_erase (set : Finset String) (n name : String) :
    marked (set.erase name) n = if n = name then false else marked set n := by
  by_cases h : n = name <;> simp [marked, h]

theorem marked_ext {a b : Finset String} (h : ∀ n, marked a n = marked b n) : a = b := by
  ext n
  simpa [marked] using h n

/-- The seven marker sets an ordinary assignment clears, as one bit each. -/
structure Markers where
  narrowed : Bool
  parameter : Bool
  scalarAsserted : Bool
  loopVector : Bool
  listOrigin : Bool
  defaultParameter : Bool
  lexical : Bool
deriving DecidableEq, Repr

def Markers.none : Markers := ⟨false, false, false, false, false, false, false⟩

/-- Everything a scope records about one name. -/
structure BindingState where
  ty : Option RType
  markers : Markers
  lexicalDefinition : Option Span
  aliasTarget : Option String
  boxObject : Option BoxObject
  provenance : Option BindingProvenance

def BindingState.default : BindingState := ⟨none, .none, none, none, none, none⟩

/-- What an ordinary assignment removed. -/
structure AssignmentUndo where
  ty : Option RType
  removedMarkers : Markers
  lexicalDefinition : Option Span
  aliasTarget : Option String
  boxObject : Option BoxObject
  provenance : Option BindingProvenance

inductive MarkerKind
  | listOrigin | lexical | parameter | scalarAsserted | loopVector
deriving DecidableEq, Repr

inductive Undo
  | knownString (name : String) (previous : Option String)
  | knownStrings (previous : Table String String)
  | conditionAlias (name : String) (previous : Option ConditionAlias)
  | conditionAliases (previous : Table String ConditionAlias)
  | assignment (name : String) (state : AssignmentUndo)
  | binding (name : String) (state : BindingState)
  | marker (kind : MarkerKind) (name : String) (present : Bool)
  | lexicalDefinition (name : String) (previous : Option Span)
  | aliasTarget (name : String) (previous : Option String)
  | reference (name : String) (previous : Option BindingProvenance)
  | provenance (bindings : Table String BindingProvenance)
  | opsBinding (name : String) (function : Option LiteralFunction) (vector : Bool)
  | opsTables (functions : Table String LiteralFunction) (vectors : Finset String)

/-- Undo records of the active branch snapshots, newest first. -/
structure Journal where
  undo : List Undo
  depth : Nat

/-- One frame's binding table. -/
structure Scope where
  uncertainty : Uncertainty
  journal : Journal
  loopFrame : Option Nat
  plainOpsVectors : Finset String
  knownStrings : Table String String
  conditionAliases : Table String ConditionAlias
  literalFunctions : Table String LiteralFunction
  referenceProvenance : Option ScopeProvenance
  bindings : Bindings
  narrowedBindings : Finset String
  parameterBindings : Finset String
  scalarAssertedBindings : Finset String
  loopVectorBindings : Finset String
  listOriginBindings : Finset String
  defaultParameterBindings : Finset String
  functionAliases : Table String String
  boxObjects : Table String BoxObject
  lexicalFunctions : Finset String
  lexicalDefinitions : Table String Span
  possibleBlockWrites : Finset String
  failedNamespaces : Finset String
  dataMaskUnknown : Bool
  dataMask : Option DataMaskFrame
  tidyInjection : Option InjectionMode
  searchPathUnknown : Bool
  unreachable : Bool

namespace Scope

/-- `Scope::default()` -/
def default : Scope where
  uncertainty := ⟨false, false, false, false, false, false⟩
  journal := ⟨[], 0⟩
  loopFrame := none
  plainOpsVectors := ∅
  knownStrings := ∅
  conditionAliases := ∅
  literalFunctions := ∅
  referenceProvenance := none
  bindings := .empty
  narrowedBindings := ∅
  parameterBindings := ∅
  scalarAssertedBindings := ∅
  loopVectorBindings := ∅
  listOriginBindings := ∅
  defaultParameterBindings := ∅
  functionAliases := ∅
  boxObjects := ∅
  lexicalFunctions := ∅
  lexicalDefinitions := ∅
  possibleBlockWrites := ∅
  failedNamespaces := ∅
  dataMaskUnknown := false
  dataMask := none
  tidyInjection := none
  searchPathUnknown := false
  unreachable := false

def get (s : Scope) (name : String) : Option RType := s.bindings.get name

def markers (s : Scope) (name : String) : Markers where
  narrowed := marked s.narrowedBindings name
  parameter := marked s.parameterBindings name
  scalarAsserted := marked s.scalarAssertedBindings name
  loopVector := marked s.loopVectorBindings name
  listOrigin := marked s.listOriginBindings name
  defaultParameter := marked s.defaultParameterBindings name
  lexical := marked s.lexicalFunctions name

def provenanceOf (s : Scope) (name : String) : Option BindingProvenance :=
  s.referenceProvenance.bind (·.bindings.lookup name)

/-- `BindingState::capture_metadata` -/
def captureMetadata (s : Scope) (name : String) : BindingState where
  ty := none
  markers := s.markers name
  lexicalDefinition := s.lexicalDefinitions.lookup name
  aliasTarget := s.functionAliases.lookup name
  boxObject := s.boxObjects.lookup name
  provenance := s.provenanceOf name

/-- `BindingState::capture` -/
def capture (s : Scope) (name : String) : BindingState :=
  { s.captureMetadata name with ty := s.get name }

/-- The scope as its readers see it: everything but the undo history. -/
def visible (s : Scope) : Scope := { s with journal := ⟨[], 0⟩ }

end Scope

end Ry
