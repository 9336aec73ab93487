import Ry.Lib.Asking
import Ry.Workspace.Paths
import Mathlib.Logic.Function.Basic

/-! # Loading box modules

`box_imports.rs`: `box_module_inventory` finds the file an import names, analyses it with a
nested checker and caches what it exports.  The nested checker asks for the modules its file
imports in the same way, so the model is a function with a bound on the nesting; `Host` holds
what surrounds it, the analysis of one file among it.
-/

namespace Ry.Box

structure SourceFile (Finding Code : Type) where
  leadingBom : Bool
  invalidUtf8 : List Finding
  parseErrors : List Finding
  syntaxViolations : List Finding
  nativePath : Option Path
  code : Code

/-- What asking for an entry's kind tells. -/
inductive Probe
  | present
  | notFound
  | failed

def maxModuleBytes : Nat := 1048576

/-- The buffers and the disk as one run finds them. -/
structure Host (Finding Code Inventory : Type) where
  pathIdentity : Path → Option Path
  /-- Buffers by identity; `none` inside marks an open buffer that this run does not read. -/
  sources : Path → Option (Option (SourceFile Finding Code))
  symlinkMetadata : Path → Probe
  metadata : Path → Option Metadata
  /-- Reading, decoding and parsing the file at a path. -/
  parse : Path → Option (SourceFile Finding Code)
  /-- What a nested checker makes of a module's file; it asks for the modules it imports. -/
  analysis : SourceFile Finding Code → Asking (List String) (Option Inventory) Inventory

structure Module (Finding Code : Type) where
  identity : Path
  file : SourceFile Finding Code

variable {Finding Code Inventory : Type}

/-- R's parser rejects the file. -/
def rejectedByR (file : SourceFile Finding Code) : Bool :=
  file.leadingBom || !file.invalidUtf8.isEmpty || !file.parseErrors.isEmpty ||
    !file.syntaxViolations.isEmpty

/-- The text of a path with something after it. -/
def suffixed (stem : Path) (extension : String) : Path :=
  { stem with names := stem.names.dropLast ++ [(stem.names.getLast?.getD "") ++ extension] }

def moduleCandidates (caller : Path) (segments : List String) : Option (List Path) :=
  caller.parent.bind fun parent =>
    if segments.any fun segment => segment ≠ "." && segment ≠ ".." &&
        (segment.isEmpty || segment.toList.any fun c => c = '/' || c = '\\') then none
    else
      let stem := parent.below segments
      some [suffixed stem ".r", suffixed stem ".R", stem.join "__init__.r", stem.join "__init__.R"]

/-- A module runs from its canonical path. -/
def canonical (identity : Path) (file : SourceFile Finding Code) : SourceFile Finding Code :=
  if file.nativePath = some identity then file else { file with nativePath := some identity }

/-- Where the source of a candidate is. -/
inductive Located (Finding Code : Type)
  | file (file : SourceFile Finding Code)
  | unreadable
  | nextCandidate

namespace Host

variable (host : Host Finding Code Inventory)

def readModule (path identity : Path) : Option (SourceFile Finding Code) :=
  match host.metadata path with
  | none => none
  | some metadata =>
    if metadata.fileType ≠ .file ∨ maxModuleBytes < metadata.len then none
    else (host.parse path).map fun file => { file with nativePath := some identity }

/-- A buffer is preferred to the disk, and only an absent file permits the next spelling. -/
def locate (candidate identity : Path) : Located Finding Code :=
  match host.sources identity with
  | some (some source) => .file source
  | some none => .unreadable
  | none =>
    match host.symlinkMetadata candidate with
    | .present =>
      match host.readModule candidate identity with
      | some file => .file file
      | none => .unreadable
    | .notFound => .nextCandidate
    | .failed => .unreadable

end Host

/-! ## The checkers of one run -/

/-- The cache that the checkers of one run share; `none` inside marks a module whose imports lead
into a cycle. -/
abbrev Inventories (Inventory : Type) := Path → Option (Option Inventory)

/-- What a checker's requests change: the shared cache and its own cycle flag. -/
structure Checking (Inventory : Type) where
  inventories : Inventories Inventory
  boxCycle : Bool

/-- A nested checker at work on one file; `request` is what it does for an import. -/
def analyze (request : List String → Checking Inventory →
      Option (Option Inventory × Checking Inventory)) :
    Asking (List String) (Option Inventory) Inventory → Checking Inventory →
      Option (Inventory × Checking Inventory)
  | .done inventory, checking => some (inventory, checking)
  | .ask segments next, checking =>
    (request segments checking).bind fun (answer, checking) =>
      analyze request (next answer) checking

section Requests

variable (host : Host Finding Code Inventory)

/-- The loop over the candidates; `load` analyses a module's file and tells whether that met a
cycle. -/
def tryCandidates (load : Module Finding Code → Inventories Inventory →
      Option (Inventory × Checking Inventory)) (boxLoading : List Path) :
    List Path → Checking Inventory → Option (Option Inventory × Checking Inventory)
  | [], checking => some (none, checking)
  | candidate :: candidates, checking =>
    match host.pathIdentity candidate with
    | none => some (none, checking)
    | some identity =>
      -- a module that is still loading closes an import cycle
      if identity ∈ boxLoading then some (none, { checking with boxCycle := true })
      else
        match checking.inventories identity with
        | some inventory =>
          some (inventory, { checking with boxCycle := checking.boxCycle || inventory.isNone })
        | none =>
          match host.locate candidate identity with
          | .unreadable => some (none, checking)
          | .nextCandidate => tryCandidates load boxLoading candidates checking
          | .file file =>
            if rejectedByR file then some (none, checking)
            else
              (load ⟨identity, canonical identity file⟩ checking.inventories).map
                fun (inventory, nested) =>
                  let inventory := if nested.boxCycle then none else some inventory
                  (inventory,
                    { inventories := Function.update nested.inventories identity (some inventory)
                      boxCycle := checking.boxCycle || nested.boxCycle })

/-- `none` outside means that modules nest deeper than `depth`. -/
def boxModuleInventory : Nat → List Path → Path → List String → Checking Inventory →
    Option (Option Inventory × Checking Inventory)
  | 0, _, _, _, _ => none
  | depth + 1, boxLoading, caller, segments, checking =>
    match moduleCandidates caller segments with
    | none => some (none, checking)
    | some candidates =>
      tryCandidates host (fun m inventories =>
          analyze (boxModuleInventory depth (boxLoading ++ [m.identity]) m.identity)
            (host.analysis m.file) ⟨inventories, false⟩)
        boxLoading candidates checking

/-- What the checkers of files checked in their own right do, one after the other. -/
inductive Event
  /-- A checker asks for a module; its flag may be set from earlier. -/
  | request (boxCycle : Bool) (caller : Path) (segments : List String)
  /-- A checker starts on a file. -/
  | forgetInventories

/-- The answers to the requests among the events. -/
def answers (depth : Nat) : List Event → Inventories Inventory →
    Option (List (Option Inventory))
  | [], _ => some []
  | .forgetInventories :: events, _ => answers depth events fun _ => none
  | .request boxCycle caller segments :: events, inventories =>
    (boxModuleInventory host depth [] caller segments ⟨inventories, boxCycle⟩).bind
      fun (answer, checking) =>
        (answers depth events checking.inventories).map (answer :: ·)

end Requests

end Ry.Box
