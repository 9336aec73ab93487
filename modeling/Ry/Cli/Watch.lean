import Ry.Cli.Inputs

/-! # Watch mode

`run_check` with `--watch`: the state that a configuration change reloads, and the loop that polls
the time stamps of its inputs.  Editors write while the loop reads, so every read of a round is at
a moment of its own.
-/

namespace Ry

inductive OutputFormat
  | full
  | concise
  | json
  | github
  | gitlab
  | junit

def OutputFormat.parse : String → Option OutputFormat
  | "full" => some .full
  | "concise" => some .concise
  | "json" => some .json
  | "github" => some .github
  | "gitlab" => some .gitlab
  | "junit" => some .junit
  | _ => none

/-- Read by people, not by programs. -/
def OutputFormat.isHuman : OutputFormat → Bool
  | .full => true
  | .concise => true
  | _ => false

namespace Watch

open Discovery (Glob dedupAdjacent)

/-! ## Loading -/

/-- What the command line fixes, and the code that is not the command's own: globs, the TOML and
JSON readers. -/
structure Invocation (Pattern Stub : Type) where
  /-- The working directory. -/
  here : Path
  searchStart : Path
  searchRoots : List Path
  overrides : CliOverrides
  glob : Glob Pattern
  toml : String → Option (Config Pattern)
  baselineJson : String → Option Baseline
  stubPackage : Stub → Option String
  parseTypeshed : String → Option Stub
  rooted : here.rooted = true

/-- What a load of the configuration gives. -/
structure Inputs (Pattern Stub : Type) where
  configRoot : Option Path
  cfg : Config Pattern
  format : OutputFormat
  filter : SeverityFilter
  scopedPolicy : ScopedRulePolicy Pattern
  userStubs : Table String Stub

/-- Everything a pass reads besides the sources and the package metadata. -/
structure WatchState (Pattern Stub : Type) where
  inputs : Inputs Pattern Stub
  baseline : Option Baseline
  configBroken : Bool
  baselineBroken : Bool

section Loading

variable {Pattern Stub : Type} (inv : Invocation Pattern Stub)

/-- `--baseline` was given. -/
def Invocation.baselineFromCli : Bool := inv.overrides.baseline.isSome

/-- The nearest configuration under the flags, with its directory; a machine-readable format counts
as a failure. -/
def loadSettings (d : Disk) : Option (Option Path × Config Pattern × OutputFormat) :=
  match Config.discover d.toFileSystem inv.glob inv.toml inv.here inv.searchStart with
  | .error _ => none
  | .ok found =>
    let cfg := ((found.map (·.2)).getD Config.default).mergeCli inv.overrides
    match OutputFormat.parse cfg.outputFormat with
    | none => none
    | some format =>
      if format.isHuman then some (found.bind fun file => file.1.parent, cfg, format) else none

/-- The settings, and everything that is derived from them. -/
def loadInputs (d : Disk) : Option (Inputs Pattern Stub) :=
  (loadSettings inv d).map fun (configRoot, cfg, format) =>
    { configRoot
      cfg
      format
      filter := filterFromConfig cfg
      scopedPolicy := scopedPolicy cfg inv.overrides
      userStubs := loadStubDirs inv.stubPackage inv.parseTypeshed d.toFileSystem cfg.typeshed }

def loadBaseline (d : Disk) (path : Path) : Option Baseline :=
  ((d.readToString path).bind inv.baselineJson).filter fun baseline => baseline.version = 1

/-- A broken baseline keeps the last good entries; a deleted one of the configuration settles to
none, but not one of the command line. -/
def reloadBaseline (d : Disk) (s : WatchState Pattern Stub) : WatchState Pattern Stub :=
  match s.inputs.cfg.baseline with
  | none => { s with baseline := none, baselineBroken := false }
  | some path =>
    match loadBaseline inv d path with
    | some value => { s with baseline := some value, baselineBroken := false }
    | none =>
      if !d.pathExists path && !inv.baselineFromCli then
        { s with baseline := none, baselineBroken := false }
      else { s with baselineBroken := true }

/-- Failures keep the last good inputs. -/
def reload (d : Disk) (s : WatchState Pattern Stub) : WatchState Pattern Stub :=
  match loadInputs inv d with
  | some inputs => reloadBaseline inv d { s with inputs, configBroken := false }
  | none => { s with configBroken := true }

/-- At startup a baseline of the command line that does not load ends the run. -/
def startBaseline (d : Disk) (cfg : Config Pattern) : Option (Option Baseline) :=
  match cfg.baseline with
  | none => some none
  | some path =>
    match loadBaseline inv d path with
    | some value => some (some value)
    | none => if inv.baselineFromCli then none else some none

/-- `none` where the run ends instead of watching. -/
def startState (d : Disk) : Option (WatchState Pattern Stub) := do
  let inputs ← loadInputs inv d
  let baseline ← startBaseline inv d inputs.cfg
  return ⟨inputs, baseline, false, false⟩

/-! ## The inputs -/

/-- The candidates, also those that are absent, the baseline and the stub files. -/
def configPaths (d : Disk) (cfg : Config Pattern) : List Path :=
  configCandidates d.toFileSystem inv.here inv.searchStart ++ cfg.baseline.toList ++
    stubFiles d.toFileSystem cfg.typeshed

def configInputs (d : Disk) (s : WatchState Pattern Stub) : List (Path × Option Nat) :=
  stamps d (configPaths inv d s.inputs.cfg)

structure Scan where
  paths : List Path
  readErrors : List (Path × String)

/-- The sources below the roots. -/
def rescan (d : Disk) (inputs : Inputs Pattern Stub) : Scan :=
  let found := inv.searchRoots.map fun root =>
    Discovery.discoverRFiles d.toFileSystem inv.glob root inputs.configRoot inputs.cfg.discovery
      inputs.cfg.checkTestFixtures
  { paths := dedupAdjacent ((found.flatMap (·.files)).mergeSort Discovery.Path.le)
    readErrors := dedupAdjacent ((found.flatMap (·.readErrors)).mergeSort fun a b =>
      if a.1 = b.1 then decide (a.2 ≤ b.2) else Discovery.Path.le a.1 b.1) }

/-- The sources and the package metadata that they resolve against. -/
def sourcePaths (d : Disk) (inputs : Inputs Pattern Stub) (discovered : List Path) : List Path :=
  discovered ++
    packageMetaPaths d.toFileSystem inv.here inv.searchRoots discovered inputs.configRoot

def sourceInputs (d : Disk) (inputs : Inputs Pattern Stub) (discovered : List Path) :
    List (Path × Option Nat) :=
  stamps d (sourcePaths inv d inputs discovered)

end Loading

/-! ## The loop -/

/-- The file system over time. -/
structure Timeline where
  disk : Nat → Disk
  lawful : ∀ t, (disk t).Lawful
  /-- A path with the same time at two moments was not touched in between. -/
  kept : ∀ {i j k : Nat} (p : Path), i ≤ j → j ≤ k →
    (disk i).mtime p = (disk k).mtime p → Disk.SameAt (disk i) (disk j) p

/-- When the reads of a round happen. -/
structure Moments where
  compared : Nat
  loaded : Nat
  restamped : Nat
  rescanned : Nat
  stamped : Nat
  checked : Nat

/-- A round polls first and checks last. -/
structure Moments.InRound (m : Moments) (now : Nat) : Prop where
  compared : now ≤ m.compared
  loaded : m.compared ≤ m.loaded
  restamped : m.loaded ≤ m.restamped
  rescanned : m.restamped ≤ m.rescanned
  stamped : m.rescanned ≤ m.stamped
  checked : m.stamped ≤ m.checked

/-- At startup the sources are discovered before anything is stamped. -/
structure Moments.AtStart (m : Moments) : Prop where
  rescanned : m.loaded ≤ m.rescanned
  restamped : m.rescanned ≤ m.restamped
  stamped : m.restamped ≤ m.stamped
  checked : m.stamped ≤ m.checked

/-- What a check ran on: its settings, its files and the disk that it read. -/
structure Pass (Pattern Stub : Type) where
  state : WatchState Pattern Stub
  paths : List Path
  moment : Nat

structure Loop (Pattern Stub : Type) where
  state : WatchState Pattern Stub
  configStamps : List (Path × Option Nat)
  sourceStamps : List (Path × Option Nat)
  /-- What is on the screen. -/
  shown : Pass Pattern Stub
  /-- When the last load happened; the program does not keep this. -/
  loadedAt : Nat

section Looping

variable {Pattern Stub : Type} (τ : Timeline) (inv : Invocation Pattern Stub)

/-- Up to the loop.  A root that is missing, or that cannot be read and leaves no file, ends the
run. -/
def start (m : Moments) : Option (Loop Pattern Stub) := do
  let state ← startState inv (τ.disk m.loaded)
  let scan := rescan inv (τ.disk m.rescanned) state.inputs
  if !inv.searchRoots.all (τ.disk m.rescanned).pathExists then none
  else if scan.paths.isEmpty && !scan.readErrors.isEmpty then none
  else
    return {
      state
      configStamps := configInputs inv (τ.disk m.restamped) state
      sourceStamps := sourceInputs inv (τ.disk m.stamped) state.inputs scan.paths
      shown := ⟨state, scan.paths, m.checked⟩
      loadedAt := m.loaded }

/-- The sources as a round finds them. -/
def discovered (m : Moments) (l : Loop Pattern Stub) : List Path :=
  (rescan inv (τ.disk m.rescanned) l.state.inputs).paths

def sourcesAt (m : Moments) (l : Loop Pattern Stub) : List (Path × Option Nat) :=
  sourceInputs inv (τ.disk m.stamped) l.state.inputs (discovered τ inv m l)

def recheck (m : Moments) (l : Loop Pattern Stub) : Loop Pattern Stub :=
  { l with
    sourceStamps := sourcesAt τ inv m l
    shown := ⟨l.state, discovered τ inv m l, m.checked⟩ }

/-- The stamps are taken again after the load, which can move the baseline and the stub
directories. -/
def reloaded (m : Moments) (l : Loop Pattern Stub) : Loop Pattern Stub :=
  let state := reload inv (τ.disk m.loaded) l.state
  { l with state, configStamps := configInputs inv (τ.disk m.restamped) state, loadedAt := m.loaded }

/-- One round after the sleep. -/
def round (m : Moments) (l : Loop Pattern Stub) : Loop Pattern Stub :=
  if configInputs inv (τ.disk m.compared) l.state ≠ l.configStamps then
    recheck τ inv m (reloaded τ inv m l)
  else if sourcesAt τ inv m l = l.sourceStamps then l
  else recheck τ inv m l

/-- A run up to a moment, with any edits between any two reads. -/
inductive Watches : Nat → Loop Pattern Stub → Prop
  | start (m : Moments) {l : Loop Pattern Stub} (hm : m.AtStart) (h : start τ inv m = some l) :
      Watches m.checked l
  | round (m : Moments) {now : Nat} {l : Loop Pattern Stub} (hl : Watches now l)
      (hm : m.InRound now) : Watches m.checked (round τ inv m l)

end Looping

end Watch

end Ry
