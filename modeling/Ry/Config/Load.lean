import Ry.Workspace.Discovery

/-! # Configuration

`config.rs`: the settings of a `ry.toml`, how one is found and checked, and how command line
flags are merged over it.  The TOML reader is a parameter; patterns are compiled by the glob
crate.
-/

namespace Ry

open Discovery (Glob ScopedPaths IndexConfig)

def configFilename : String := "ry.toml"

/-- The typehint release whose semantics are audited. -/
def auditedTypehintVersion : String := "0.1.0"

def maxSerializedLimit : Nat := 256 * 1024 * 1024

/-! ## The settings -/

structure EnvironmentConfig (Pattern : Type) where
  name : String
  bindings : List String
  paths : List String
  scope : ScopedPaths Pattern

structure TypehintConfig (Pattern : Type) where
  adopt : Bool
  version : Option String
  paths : List String
  scope : ScopedPaths Pattern

structure RuleOverrideConfig (Pattern : Type) where
  paths : List String
  error : List String
  warn : List String
  ignore : List String
  scope : ScopedPaths Pattern

structure Config (Pattern : Type) where
  errorOnWarning : Bool
  exitZero : Bool
  error : List String
  warn : List String
  ignore : List String
  ruleOverrides : List (RuleOverrideConfig Pattern)
  /-- Replaces the rules that are on by default. -/
  select : Option (List String)
  extendSelect : List String
  exclude : List String
  includeBuildIgnored : List String
  checkTestFixtures : Bool
  outputFormat : String
  verbose : Nat
  quiet : Nat
  packages : List String
  globals : List String
  maxSerializedBytes : Nat
  environments : List (EnvironmentConfig Pattern)
  typehint : TypehintConfig Pattern
  reportsEnabled : Bool
  typeshed : List Path
  baseline : Option Path
  index : IndexConfig
  /-- The directory of the loaded file. -/
  root : Option Path

section Settings

variable {Pattern : Type}

/-- A scope that matches nothing. -/
def noScope : ScopedPaths Pattern := ⟨none, []⟩

/-- Built-in defaults, as if no file were present. -/
def Config.default : Config Pattern where
  errorOnWarning := false
  exitZero := false
  error := []
  warn := []
  ignore := []
  ruleOverrides := []
  select := none
  extendSelect := []
  exclude := []
  includeBuildIgnored := []
  checkTestFixtures := false
  outputFormat := "full"
  verbose := 0
  quiet := 0
  packages := []
  globals := []
  maxSerializedBytes := 16 * 1024 * 1024
  environments := []
  typehint := ⟨false, none, [], noScope⟩
  reportsEnabled := false
  typeshed := []
  baseline := none
  index := ⟨20000, 2 * 1024 * 1024, 64⟩
  root := none

/-- What the discovery walk reads of the settings. -/
def Config.discovery (cfg : Config Pattern) : Discovery.Config :=
  ⟨cfg.exclude, cfg.includeBuildIgnored, cfg.index, cfg.reportsEnabled⟩

def TypehintConfig.adoptionIsComplete (t : TypehintConfig Pattern) : Bool :=
  t.adopt && t.version == some auditedTypehintVersion && !t.paths.isEmpty

/-- The audited, explicitly adopted source scope. -/
def TypehintConfig.adoptedScope (t : TypehintConfig Pattern) : Option (ScopedPaths Pattern) :=
  if t.adoptionIsComplete then some t.scope else none

end Settings

/-! ## Loading -/

inductive ConfigError
  | read (path : Path)
  | parse (path : Path)
  | invalidPattern (path : Path) (key : String) (pattern : Option String)
  | emptyRuleOverridePaths (path : Path) (index : Nat)
  | invalidTypehintAdoption (path : Path)
  | invalidSerializedLimit (path : Path)
  | invalidIndex (path : Path) (field : String)

/-- `root.join(p)`, which an absolute `p` replaces. -/
def Path.joinPath (root p : Path) : Path := if p.rooted then p else root.below p.names

section Load

variable {Pattern : Type} (fs : FileSystem) (glob : Glob Pattern)
  (toml : String → Option (Config Pattern))

/-- The patterns of one key, against the root; the error names the pattern that fails. -/
def scopeAt (path root : Path) (key : String) (patterns : List String) :
    Except ConfigError (ScopedPaths Pattern) :=
  match ScopedPaths.new fs glob root patterns with
  | some scope => .ok scope
  | none => .error (.invalidPattern path key
      (patterns.find? fun pattern => (glob.new pattern).isNone))

def environmentScope (path root : Path) (profile : EnvironmentConfig Pattern) :
    Except ConfigError (EnvironmentConfig Pattern) := do
  let scope ← scopeAt fs glob path root ("environments `" ++ profile.name ++ "` paths") profile.paths
  return { profile with scope }

/-- A table must say its paths; `index` counts from one. -/
def ruleOverrideScope (path root : Path) (table : RuleOverrideConfig Pattern) (index : Nat) :
    Except ConfigError (RuleOverrideConfig Pattern) :=
  if table.paths.isEmpty then .error (.emptyRuleOverridePaths path index)
  else do
    let scope ← scopeAt fs glob path root ("rule-overrides #" ++ toString index ++ " paths")
      table.paths
    return { table with scope }

/-- Reject resource limits outside their documented ranges. -/
def Config.validateLimits (cfg : Config Pattern) (path : Path) : Except ConfigError Unit :=
  if ¬ (1 ≤ cfg.maxSerializedBytes ∧ cfg.maxSerializedBytes ≤ maxSerializedLimit) then
    .error (.invalidSerializedLimit path)
  else
    match [("index.max-files", cfg.index.maxFiles), ("index.max-file-bytes", cfg.index.maxFileBytes),
        ("index.max-depth", cfg.index.maxDepth)].find? fun limit => limit.2 = 0 with
    | some limit => .error (.invalidIndex path limit.1)
    | none => .ok ()

/-- The parsed settings with their scopes compiled and their paths anchored at the file's
directory. -/
def Config.anchored (cfg : Config Pattern) (path root : Path) :
    Except ConfigError (Config Pattern) := do
  let environments ← cfg.environments.mapM (environmentScope fs glob path root)
  let ruleOverrides ← (cfg.ruleOverrides.zipIdx 1).mapM fun table =>
    ruleOverrideScope fs glob path root table.1 table.2
  let _ ← scopeAt fs glob path root "include-build-ignored" cfg.includeBuildIgnored
  let scope ← scopeAt fs glob path root "annotations.typehint paths" cfg.typehint.paths
  if cfg.typehint.adopt && !cfg.typehint.adoptionIsComplete then
    .error (.invalidTypehintAdoption path)
  else do
    cfg.validateLimits path
    return { cfg with
      environments
      ruleOverrides
      typehint := { cfg.typehint with scope }
      typeshed := cfg.typeshed.map root.joinPath
      baseline := cfg.baseline.map root.joinPath
      root := some root }

/-- Read and parse one file. -/
def Config.loadFile (path : Path) : Except ConfigError (Config Pattern) :=
  match fs.readToString path with
  | none => .error (.read path)
  | some text =>
    match toml text with
    | none => .error (.parse path)
    | some cfg =>
      -- a bare file name is anchored at the working directory
      match fs.absolute (path.parent.getD ⟨false, []⟩) with
      | none => .error (.read path)
      | some root => cfg.anchored fs glob path root

def FileSystem.pathExists (fs : FileSystem) (path : Path) : Bool := (fs.metadata path).isSome

/-- Every path that discovery probes, nearest first. -/
def configCandidates (here start : Path) : List Path :=
  let abs := here.joinPath start
  let first := if fs.isFile abs then abs.parent.getD ⟨false, []⟩ else abs
  first.ancestors.map (·.join configFilename)

/-- The nearest file there is; its errors are not passed over. -/
def Config.discover (here start : Path) : Except ConfigError (Option (Path × Config Pattern)) :=
  match (configCandidates fs here start).find? fs.pathExists with
  | some path => (Config.loadFile fs glob toml path).map fun cfg => some (path, cfg)
  | none => .ok none

end Load

/-! ## Flags -/

structure CliOverrides where
  error : List String
  warn : List String
  ignore : List String
  typeshed : List Path
  baseline : Option Path
  errorOnWarning : Option Bool
  exitZero : Option Bool
  outputFormat : Option String
  verbose : Nat
  quiet : Nat

/-- `u8::saturating_add` -/
def saturatingAdd (a b : Nat) : Nat := min 255 (a + b)

/-- Lists are appended to; a scalar is replaced when its flag was given. -/
def Config.mergeCli {Pattern : Type} (cfg : Config Pattern) (cli : CliOverrides) : Config Pattern :=
  { cfg with
    error := cfg.error ++ cli.error
    warn := cfg.warn ++ cli.warn
    ignore := cfg.ignore ++ cli.ignore
    typeshed := cfg.typeshed ++ cli.typeshed
    baseline := cli.baseline.or cfg.baseline
    errorOnWarning := cli.errorOnWarning.getD cfg.errorOnWarning
    exitZero := cli.exitZero.getD cfg.exitZero
    outputFormat := cli.outputFormat.getD cfg.outputFormat
    verbose := saturatingAdd cfg.verbose cli.verbose
    quiet := saturatingAdd cfg.quiet cli.quiet }

end Ry
