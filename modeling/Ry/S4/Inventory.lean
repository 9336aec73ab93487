import Ry.Core.Ast
import Ry.Infer.Args
import Ry.Project.Definitions

/-! # S4 registrations and the selection of a method

`definitions/s4.rs`: what the project's `setGeneric` and `setMethod` calls register, how the
tables of several files merge, and `select_s4`, which answers a call with a method only where
that method provably runs.
-/

namespace Ry.S4

inductive GenericDecl
  /-- No recognized declaration: the implicit generic of an existing function. -/
  | absent
  | literal (formals signature : List String)
  /-- A declaration whose formals, signature or result are not established. -/
  | opaqueDecl
  deriving DecidableEq

def mergeDecl : GenericDecl → GenericDecl → GenericDecl
  | .absent, decl => decl
  | decl, .absent => decl
  | earlier, later => if earlier = later then earlier else .opaqueDecl

/-- The entries of a `setMethod` signature: a class, and the formal it is for if named. -/
abbrev Entries := List (Option String × String)

structure S4Method where
  entries : Entries
  /-- The definition's binding; `none` for a definition that is not a function literal. -/
  function : Option String

structure S4Generic where
  decl : GenericDecl
  /-- In registration order. -/
  methods : List S4Method
  /-- Some registration's signature could not be interpreted. -/
  incomplete : Bool

def S4Generic.default : S4Generic := ⟨.absent, [], false⟩

@[ext]
structure S4Inventory where
  generics : Table String S4Generic
  allIncomplete : Bool
  computedName : Bool

namespace S4Inventory

def empty : S4Inventory := ⟨∅, false, false⟩

def entry (s4 : S4Inventory) (name : String) : S4Generic :=
  (s4.generics.lookup name).getD .default

def declareGeneric (s4 : S4Inventory) (name : String) (decl : GenericDecl) : S4Inventory :=
  let generic := s4.entry name
  { s4 with generics := s4.generics.insert name { generic with decl := mergeDecl generic.decl decl } }

def registerMethod (s4 : S4Inventory) (name : String) (entries : Option Entries)
    (function : Option String) : S4Inventory :=
  let generic := s4.entry name
  { s4 with
    generics := s4.generics.insert name
      (match entries with
        | some entries => { generic with methods := generic.methods ++ [⟨entries, function⟩] }
        | none => { generic with incomplete := true }) }

def markComputedName (s4 : S4Inventory) : S4Inventory :=
  { s4 with computedName := true, allIncomplete := true }

def markAllIncomplete (s4 : S4Inventory) : S4Inventory := { s4 with allIncomplete := true }

/-- A method, interpretable or not, is registered for the generic. -/
def definesMethod (s4 : S4Inventory) (name : String) : Bool :=
  s4.allIncomplete ||
    (s4.generics.lookup name).any fun entry => entry.incomplete || !entry.methods.isEmpty

/-- `new("A")` returns an instance of exactly `A`. -/
def instancesExact (s4 : S4Inventory) : Bool := !s4.definesMethod "initialize"

/-- A later file's entry after an earlier one. -/
def mergeEntry (earlier later : S4Generic) : S4Generic where
  decl := mergeDecl earlier.decl later.decl
  methods := earlier.methods ++ later.methods
  incomplete := earlier.incomplete || later.incomplete

/-- Merge a later file's registrations after this table's. -/
def append (s4 later : S4Inventory) : S4Inventory where
  generics := s4.generics.extend
    (later.generics.mapValues fun name entry => mergeEntry (s4.entry name) entry)
  allIncomplete := s4.allIncomplete || later.allIncomplete
  computedName := s4.computedName || later.computedName

end S4Inventory

inductive Registration
  | declareGeneric (name : String) (decl : GenericDecl)
  | registerMethod (generic : String) (entries : Option Entries) (function : Option String)
  | markComputedName
  | markAllIncomplete

def S4Inventory.register (s4 : S4Inventory) : Registration → S4Inventory
  | .declareGeneric name decl => s4.declareGeneric name decl
  | .registerMethod generic entries function => s4.registerMethod generic entries function
  | .markComputedName => s4.markComputedName
  | .markAllIncomplete => s4.markAllIncomplete

/-- The inventory of the registrations of one file. -/
def inventory (registrations : List Registration) : S4Inventory :=
  registrations.foldl S4Inventory.register .empty

/-- The inventories of several files, merged in order. -/
def merged (files : List (List Registration)) : S4Inventory :=
  files.foldl (fun s4 registrations => s4.append (inventory registrations)) .empty

/-! ## One generic -/

namespace S4Generic

/-- The formals and the dispatch signature, when established. -/
def established (generic : S4Generic) (coreFormals : Option (List String)) :
    Option (List String × List String) :=
  let found :=
    match generic.decl with
    | .literal formals signature => some (formals, signature)
    | .absent =>
      coreFormals.bind fun formals =>
        if formals.head? = some "..." then none else some (formals, formals.filter (· ≠ "..."))
    | .opaqueDecl => none
  found.filter fun (_, signature) => !signature.isEmpty

end S4Generic

/-- The dispatch position an entry is for. -/
def entryPosition (signature : List String) (name : Option String) (index : Nat) : Option Nat :=
  match name with
  | some name => signature.findIdx? (· == name)
  | none => some index

def placeEntry (signature : List String) (classes : List String) :
    (Option String × String) × Nat → Option (List String)
  | ((name, cls), index) =>
    (entryPosition signature name index).bind fun position =>
      if position < classes.length then some (classes.set position cls) else none

/-- One class per dispatch position, padded with `ANY`. -/
def normalizeEntries (signature : List String) (entries : Entries) : Option (List String) :=
  let named := entries.countP (·.1.isSome)
  if named ≠ 0 ∧ named ≠ entries.length then none
  else entries.zipIdx.foldlM (placeEntry signature) (List.replicate signature.length "ANY")

/-- The methods by normalized signature; the last registration of a signature wins. -/
def normalized (signature : List String) (methods : List S4Method) :
    Option (List (List String × Option String)) :=
  methods.foldlM (fun earlier method =>
    (normalizeEntries signature method.entries).map fun classes =>
      earlier.filter (·.1 ≠ classes) ++ [(classes, method.function)]) []

/-! ## One call -/

inductive Callee
  | bare (name : String)
  | qualified (package member : String)

def Callee.member : Callee → String
  | .bare member => member
  | .qualified _ member => member

structure S4Call where
  head : Callee
  ownPackage : Option String
  args : List Arg
  argTypes : List RType
  /-- Per actual: a `new()` call whose head is proven to be `methods::new`. -/
  instances : List Bool
  /-- The formals of the base function of this name, if any. -/
  coreFormals : Option (List String)

/-- The head names a function of another package. -/
def S4Call.isForeign (call : S4Call) : Bool :=
  match call.head with
  | .qualified package _ => call.ownPackage != some package
  | .bare _ => false

def S4Call.tags (call : S4Call) : List (Option String) := call.args.map Arg.name

def literalClasses : List String := ["numeric", "integer", "character", "logical"]

/-- The class of a plain literal. -/
def literalClass : Expr → Option String
  | .double .. => literalClasses[0]?
  | .integer .. => literalClasses[1]?
  | .string .. => literalClasses[2]?
  | .logical .. => literalClasses[3]?
  | _ => none

/-- An omitted actual, or the caller's dots. -/
def isUnmatchable : Expr → Bool
  | .missing _ => true
  | .ident name _ => name == "..."
  | _ => false

/-- The class one dispatch position receives; `none` when not known exactly. -/
def dispatchClass (formals : List String) (call : S4Call) (instancesExact : Bool)
    (matched : ArgumentMatch) : String × Nat → Option String
  | (formal, position) =>
    (formals.findIdx? (· == formal)).bind fun index =>
      match matched.argForParam index with
      | none => some "missing"
      | some actual =>
        call.argTypes[actual]?.bind fun type =>
          if instancesExact && call.instances[actual]? == some true && type.cls.hasKnownClass then
            type.cls.names.head?
          else
            (call.args[actual]?.bind fun argument => literalClass argument.value).filter fun _ =>
              decide (0 < position)

def dispatchClasses (formals signature : List String) (call : S4Call) (instancesExact : Bool) :
    Option (List (Option String)) :=
  if call.args.any fun argument => isUnmatchable argument.value then none
  else
    let matched := matchArgumentNames formals call.tags
    if !matched.unmatchedNamed.isEmpty then none
    else some (signature.zipIdx.map (dispatchClass formals call instancesExact matched))

inductive S4Selection
  /-- R provably dispatches to this method. -/
  | method (function : UserFn)
  /-- A project method may answer the call. -/
  | uncertain
  /-- No project method can be shown to apply. -/
  | noCandidate

/-- Every position is known, and one signature names exactly those classes. -/
def exactMethod (methods : List (List String × Option String)) (classes : List (Option String)) :
    Option (List String × Option String) :=
  if classes.all (·.isSome) then
    methods.find? fun method => (method.1.zip classes).all fun (entry, cls) => cls == some entry
  else none

/-- Every method has `ANY` after the receiver, and one names the receiver's class. -/
def receiverMethod (methods : List (List String × Option String)) (classes : List (Option String)) :
    Option (List String × Option String) :=
  classes.head?.join.bind fun receiver =>
    if methods.all fun method => method.1.tail.all (· == "ANY") then
      methods.find? fun method => method.1.head? == some receiver
    else none

/-- The project's method a call provably dispatches to. -/
def selectS4 (s4 : S4Inventory) (live : Table String UserFn) (call : S4Call) : S4Selection :=
  match (s4.generics.lookup call.head.member).filter fun generic =>
      generic.incomplete || !generic.methods.isEmpty with
  | none =>
    if s4.computedName && (call.instances.contains true ||
        call.argTypes.any (·.cls.hasKnownClass)) then .uncertain
    else .noCandidate
  | some generic =>
    let named := fun cls => call.argTypes.any fun actual => actual.cls.names.head? == some cls
    let classed := call.argTypes.any fun actual => actual.cls.names.head?.isSome
    if !((generic.incomplete || s4.allIncomplete) && classed) &&
        !generic.methods.any fun method => method.entries.any fun entry => named entry.2 then
      .noCandidate
    else if call.isForeign then
      match generic.decl with
      | .literal .. => .noCandidate
      | _ => .uncertain
    else if s4.allIncomplete || generic.incomplete then .uncertain
    else
      match generic.established call.coreFormals with
      | none => .uncertain
      | some (formals, signature) =>
        match normalized signature generic.methods,
            dispatchClasses formals signature call s4.instancesExact with
        | some methods, some classes =>
          match (exactMethod methods classes).or (receiverMethod methods classes) with
          | some (_, some function) => (live.lookup function).elim .uncertain .method
          | _ => .uncertain
        | _, _ => .uncertain

end Ry.S4
