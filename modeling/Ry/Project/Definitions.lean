import Ry.Scope.Mutators

/-! # Which literal a spelling denotes

`definitions.rs`: every raw spelling names the last function literal bound to it, and a
literal is addressed by its identity, whatever names it has.  Beside the live entries the
table keeps an index from a literal to one spelling that binds it, the literals that were
replaced, and the names with several literals or with literals of different formals.

The S4 inventory is left out: no lookup by identity or name reads it.
-/

namespace Ry

/-- Source identity of one function literal. -/
structure FunctionId where
  path : String
  start : Nat
  stop : Nat
deriving DecidableEq

structure UserFn where
  params : List UserParam
  sourcePath : String
  sourcePackage : Option String
  definitionSpan : Span
  returnSlot : Nat

namespace UserFn

def id (f : UserFn) : FunctionId := ⟨f.sourcePath, f.definitionSpan.start, f.definitionSpan.stop⟩

/-- Same formal names, order, and requiredness. -/
def formalsAgree (f g : UserFn) : Bool :=
  f.params.length == g.params.length
    && (f.params.zip g.params).all fun (l, r) => l.name == r.name && l.required == r.required

def shift (f : UserFn) (slotOffset : Nat) : UserFn :=
  { f with returnSlot := f.returnSlot + slotOffset }

end UserFn

/-- A name between two quotes. -/
def quoted (quote : Char) (name : String) : String := String.ofList (quote :: name.toList ++ [quote])

/-- The raw spellings of a name: bare, and in each kind of quotes. -/
def spellings (name : String) : List String :=
  [name, quoted (Char.ofNat 96) name, quoted (Char.ofNat 39) name, quoted '"' name]

/-- The parts of a spelling that end before a dot. -/
def methodPrefixes (raw : String) : List String :=
  (raw.toList.inits.filter fun before => (raw.toList.drop before.length).head? == some '.').map
    String.ofList

structure Definitions where
  /-- The last definition bound to each raw spelling. -/
  live : Table String UserFn
  /-- The raw spelling whose live entry is each definition. -/
  liveIds : Table FunctionId String
  /-- Literals a later same-spelling binding replaced. -/
  replaced : Table FunctionId UserFn
  /-- Names whose live entry need not be the function a call reaches. -/
  unstable : Finset String
  /-- Names more than one literal binds. -/
  redefined : Finset String
  methodPrefixes : Finset String

namespace Definitions

def empty : Definitions := ⟨∅, ∅, ∅, ∅, ∅, ∅⟩

/-- Any recorded direct literal, live or replaced, by source identity. -/
def get (d : Definitions) (id : FunctionId) : Option UserFn :=
  match d.liveIds.lookup id with
  | some name => d.live.lookup name
  | none => d.replaced.lookup id

/-- Whether the literal is still the last definition of some spelling. -/
def isLive (d : Definitions) (id : FunctionId) : Bool := (d.liveIds.lookup id).isSome

def hasMethodPrefix (d : Definitions) (generic : String) : Bool := marked d.methodPrefixes generic

/-- Whether every binding of `name` is a literal with the same formals. -/
def hasSingleContract (d : Definitions) (name : String) : Bool :=
  !marked d.unstable (semanticArgumentName name)

/-- Whether `name` has a single contract and only one literal binds it. -/
def hasSingleDefinition (d : Definitions) (name : String) : Bool :=
  d.hasSingleContract name && !marked d.redefined (semanticArgumentName name)

/-- Note that a non-literal or outward write may rebind `name`. -/
def markUnstable (d : Definitions) (name : String) : Definitions :=
  { d with unstable := insert name d.unstable }

/-- The other literals that bind the name `raw` spells. -/
def others (d : Definitions) (raw : String) (id : FunctionId) : List UserFn :=
  ((spellings (semanticArgumentName raw)).filterMap d.live.lookup).filter (·.id != id)

/-- What a binding makes known of its name. -/
def noteBinding (d : Definitions) (raw : String) (f : UserFn) : Definitions :=
  let semantic := semanticArgumentName raw
  let others := d.others raw f.id
  { d with
    unstable := if others.any (!·.formalsAgree f) then insert semantic d.unstable else d.unstable
    redefined := if others.isEmpty then d.redefined else insert semantic d.redefined
    methodPrefixes := d.methodPrefixes ∪ (Ry.methodPrefixes raw).toFinset }

/-- Bind without recording which spelling names the new literal. -/
def bindLive (d : Definitions) (raw : String) (f : UserFn) : Definitions × Option Nat :=
  let d := d.noteBinding raw f
  let bound := { d with live := d.live.insert raw f }
  match d.live.lookup raw with
  | none => (bound, none)
  | some previous =>
    -- another spelling may still bind the same literal
    if previous.id ≠ f.id ∧ d.liveIds.lookup previous.id = some raw then
      ({ bound with
          liveIds := d.liveIds.erase previous.id
          replaced := d.replaced.insert previous.id previous }, some previous.returnSlot)
    else (bound, some previous.returnSlot)

/-- Bind `raw` to `f`; the replaced entry's return slot. -/
def bind (d : Definitions) (raw : String) (f : UserFn) : Definitions × Option Nat :=
  let (d, previous) := d.bindLive raw f
  ({ d with liveIds := d.liveIds.insert f.id raw }, previous)

/-- One live entry of a later table. -/
def appendLive (later : Definitions) (slotOffset : Nat) (d : Definitions) (raw : String) :
    Definitions :=
  (later.live.lookup raw).elim d fun f => (d.bindLive raw (f.shift slotOffset)).1

/-- Merge a later file's definitions. -/
def append (d later : Definitions) (order : IterOrder) (slotOffset : Nat) : Definitions :=
  let d := (order.list later.live.keys).foldl (later.appendLive slotOffset) d
  { d with
    liveIds := Table.extend d.liveIds later.liveIds
    replaced := Table.extend d.replaced (Table.mapValues later.replaced fun _ f => f.shift slotOffset)
    unstable := d.unstable ∪ later.unstable
    redefined := d.redefined ∪ later.redefined }

end Definitions

/-- How a table was built.  The marks are those the collector makes between bindings. -/
inductive Build
  | new
  | bind (earlier : Build) (raw : String) (f : UserFn)
  | append (earlier later : Build) (order : IterOrder) (slotOffset : Nat)
  | markUnstable (earlier : Build) (name : String)

namespace Build

def table : Build → Definitions
  | new => .empty
  | bind earlier raw f => (earlier.table.bind raw f).1
  | append earlier later order slotOffset => earlier.table.append later.table order slotOffset
  | markUnstable earlier name => earlier.table.markUnstable name

/-- Every binding ever made, those of appended tables included. -/
def bound : Build → List (String × UserFn)
  | new => []
  | bind earlier raw f => (raw, f) :: earlier.bound
  | append earlier later _ _ => earlier.bound ++ later.bound
  | markUnstable earlier _ => earlier.bound

/-- Every table on the way. -/
def reached : Build → List Build
  | new => [new]
  | bind earlier raw f => bind earlier raw f :: earlier.reached
  | append earlier later order slotOffset =>
    append earlier later order slotOffset :: (earlier.reached ++ later.reached)
  | markUnstable earlier name => markUnstable earlier name :: earlier.reached

end Build

end Ry
