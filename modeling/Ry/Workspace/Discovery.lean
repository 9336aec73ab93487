import Mathlib
import Ry.Workspace.Paths

/-! # Source discovery

`discovery.rs`: the recursive walk that lists the sources below a directory, and the
single-file question whether that walk would list one path.  The glob crate compiles and
matches the patterns; it is a parameter.
-/

namespace Ry.Discovery

structure Glob (Pattern : Type) where
  new : String → Option Pattern
  matchesText : Pattern → String → Bool
  /-- `require_literal_separator`: a wildcard stays within one component. -/
  matchesWithin : Pattern → String → Bool

/-! ## Patterns from the configuration -/

structure IndexConfig where
  maxFiles : Nat
  maxFileBytes : Nat
  maxDepth : Nat

structure Config where
  exclude : List String
  includeBuildIgnored : List String
  index : IndexConfig
  reportsEnabled : Bool

structure Excludes (Pattern : Type) where
  patterns : List Pattern

structure ScopedPaths (Pattern : Type) where
  root : Option Path
  patterns : List Pattern

section Patterns

variable {Pattern : Type} (fs : FileSystem) (glob : Glob Pattern)

def Excludes.fromConfig (cfg : Config) : Excludes Pattern := ⟨cfg.exclude.filterMap glob.new⟩

def Excludes.isEmpty (e : Excludes Pattern) : Bool := e.patterns.isEmpty

def Excludes.matches (e : Excludes Pattern) (relative : String) : Bool :=
  e.patterns.any (glob.matchesText · relative)

def ScopedPaths.new (root : Path) (patterns : List String) : Option (ScopedPaths Pattern) :=
  (patterns.mapM glob.new).map fun patterns => ⟨fs.scopedPathIdentity root, patterns⟩

def ScopedPaths.isEmpty (s : ScopedPaths Pattern) : Bool := s.patterns.isEmpty

def ScopedPaths.matches (s : ScopedPaths Pattern) (source : Path) : Bool :=
  match s.root, fs.scopedPathIdentity source with
  | some root, some source =>
    match source.stripPrefix root with
    | some relative => s.patterns.any (glob.matchesWithin · ("/".intercalate relative))
    | none => false
  | _, _ => false

def compileBuildIgnoredIncludes (anchor : Path) (patterns : List String) : ScopedPaths Pattern :=
  (ScopedPaths.new fs glob anchor patterns).getD ⟨none, []⟩

end Patterns

/-! ## File rules -/

structure DiscoveryLimits where
  maxFiles : Nat
  maxFileBytes : Nat
  maxDepth : Nat
  reportsEnabled : Bool

def DiscoveryLimits.fromConfig (config : Config) : DiscoveryLimits where
  maxFiles := config.index.maxFiles
  maxFileBytes := config.index.maxFileBytes
  maxDepth := config.index.maxDepth
  reportsEnabled := config.reportsEnabled

def reportExtensions : List String := ["rmd", "qmd"]

def isReportPath (path : Path) : Bool :=
  path.extension.any fun ext => reportExtensions.any (ext.toLower == ·)

def DiscoveryLimits.admitsReport (limits : DiscoveryLimits) (path : Path) : Bool :=
  limits.reportsEnabled || !isReportPath path

def rExtensions : List String := ["R", "r", "S", "s", "q"]

def isSourcePath (path : Path) : Bool :=
  isReportPath path || path.extension.any (rExtensions.contains ·)

def relativeDepth (path root : Path) : Option Nat := (path.stripPrefix root).map List.length

def isWithinDepth (path root : Path) (maxDepth : Nat) : Bool :=
  (relativeDepth (path.parent.getD path) root).all (· ≤ maxDepth)

def isRSourceName (name : String) : Bool :=
  (nameExtension name).any fun ext => ext == "R" || ext == "r"

def isTestthatCodeName (name : String) : Bool :=
  ["test-", "test_", "helper", "setup", "teardown"].any fun start =>
    ((nameStem name).getD name).startsWith start

section Rules

variable {Pattern : Type} (fs : FileSystem) (glob : Glob Pattern)

def isFileEligibleWithExcludes (path root : Path) (excludes : Excludes Pattern) : Bool :=
  if excludes.isEmpty then true
  else
    let path := (fs.absolute path).getD path
    let root := (fs.absolute root).getD root
    !excludes.matches glob (slashed ((path.stripPrefix root).getD path.names))

def isFileEligibleWithLimits (path depthRoot : Path) (excludeAnchor : Option Path)
    (excludes : Excludes Pattern) (limits : DiscoveryLimits) (contentLen : Option Nat) : Bool :=
  if !limits.admitsReport path then false
  else if excludeAnchor.any fun anchor => !isFileEligibleWithExcludes fs glob path anchor excludes
    then false
  else if !isWithinDepth path depthRoot limits.maxDepth then false
  else contentLen.all (· ≤ limits.maxFileBytes)

/-- Test data under a package's `tests/`, which no test runner executes. -/
def isTestFixture (path : Path) : Bool :=
  match path.parent.bind fun parent =>
      parent.ancestors.find? fun p => fs.isFile (p.join "DESCRIPTION") with
  | none => false
  | some root =>
    match path.stripPrefix root with
    | none => false
    | some components =>
      if components.head? ≠ some "tests" then false
      else
        match components with
        | [_, file] => !isRSourceName file
        | [_, "testthat", file] => !(isRSourceName file && isTestthatCodeName file)
        | _ => true

/-! ## `.Rbuildignore` -/

/-- The glob for a regular expression without its anchors; `none` for one that ends in a
backslash. -/
def globBody : List Char → Option (List Char)
  | [] => some []
  | '\\' :: [] => none
  | '\\' :: ch :: rest => (globBody rest).map (ch :: ·)
  | '.' :: '*' :: rest => (globBody rest).map ('*' :: ·)
  | '.' :: rest => (globBody rest).map ('?' :: ·)
  | ch :: rest => (globBody rest).map (ch :: ·)

/-- The glob for a line of the file, unless it uses an unsupported construct. -/
def rbuildignorePattern (regex : String) : Option Pattern :=
  let chars := regex.toList
  if chars.any (['(', ')', '|', '\x7b', '\x7d', '+'].contains ·) then none
  else
    let anchoredStart := chars.head? == some '^'
    let trailingBackslashes :=
      if chars.getLast? == some '$' then (chars.dropLast.reverse.takeWhile (· == '\\')).length
      else 0
    let anchoredEnd := chars.getLast? == some '$' && trailingBackslashes % 2 == 0
    let body := if anchoredStart then chars.tail else chars
    let body := if anchoredEnd && body.getLast? == some '$' then body.dropLast else body
    (globBody body).bind fun text =>
      glob.new (String.ofList ((if anchoredStart then [] else ['*']) ++ text ++
        if anchoredEnd then [] else ['*']))

/-- The lines of a text, with `\n` and `\r\n` as ends. -/
def textLines (text : List Char) : List (List Char) :=
  let lines := text.splitOn '\n'
  let lines := if lines.getLast? == some [] then lines.dropLast else lines
  lines.map fun line => if line.getLast? == some '\r' then line.dropLast else line

/-- Unicode's `White_Space`. -/
def isWhiteSpace (c : Char) : Bool :=
  (9 ≤ c.toNat && c.toNat ≤ 13) || [0x20, 0x85, 0xA0, 0x1680].contains c.toNat ||
    (0x2000 ≤ c.toNat && c.toNat ≤ 0x200A) ||
    [0x2028, 0x2029, 0x202F, 0x205F, 0x3000].contains c.toNat

def trimChars (line : List Char) : List Char :=
  ((line.dropWhile isWhiteSpace).reverse.dropWhile isWhiteSpace).reverse

def readRbuildignore (root : Path) : List Pattern :=
  match fs.readToString (root.join ".Rbuildignore") with
  | none => []
  | some contents =>
    (((textLines contents.toList).map trimChars).filter fun line =>
      !line.isEmpty && line.head? != some '#').filterMap fun line =>
        rbuildignorePattern glob (String.ofList line)

def isRbuildignored (root path : Path) (patterns : List Pattern) : Bool :=
  match path.stripPrefix root with
  | none => false
  | some relative =>
    if relative.head? = some "R" ∨ relative.head? = some "tests" then false
    else patterns.any (glob.matchesText · (slashed relative))

/-! ## Directories the walk leaves out -/

def isPrunedDirectoryName (name : String) (inPackage : Bool) : Bool :=
  name.startsWith "." || name == "target" || name == "node_modules" ||
    (name == "renv" && inPackage) || name.endsWith ".Rcheck"

def isExcludedPackageDirectory (packageRoot path : Path) : Bool :=
  match path.stripPrefix packageRoot with
  | none => false
  | some components =>
    components == ["revdep"] || components == ["src"] ||
      components == ["tests", "testthat", "_snaps"]

/-- What a directory hands down: whether it is build-ignored, the package it is in, and that
package's patterns. -/
structure Level (Pattern : Type) where
  inheritedBuildignore : Bool
  packageRoot : Option Path
  buildignore : List Pattern

/-- The outermost level: the nearest `DESCRIPTION` at or above the walk root. -/
def outermostLevel (walkRoot : Path) : Level Pattern :=
  let packageRoot := walkRoot.ancestors.find? fun p => fs.isFile (p.join "DESCRIPTION")
  ⟨false, packageRoot, packageRoot.elim [] (readRbuildignore fs glob)⟩

/-- The fixed directory shapes, at the level the directory is found in. -/
def Level.prunes (level : Level Pattern) (dir : Path) : Bool :=
  (dir.fileName.any fun name => isPrunedDirectoryName name level.packageRoot.isSome) ||
    level.packageRoot.any (isExcludedPackageDirectory · dir)

/-- A nested package swaps the pattern set; the verdict of the outer one stays. -/
def Level.enter (level : Level Pattern) (dir : Path) (buildIgnored : Bool) : Level Pattern :=
  if fs.isFile (dir.join "DESCRIPTION") then ⟨buildIgnored, some dir, readRbuildignore fs glob dir⟩
  else { level with inheritedBuildignore := buildIgnored }

end Rules

/-! ## The single-file question -/

section Question

variable {Pattern : Type} (fs : FileSystem) (glob : Glob Pattern) (walkRoot : Path)
  (excludeAnchor : Option Path) (excludes : Excludes Pattern) (includes : ScopedPaths Pattern)
  (limits : DiscoveryLimits)

/-- The level below one ancestor of the file; `none` where the walk would not enter it. -/
def admitAncestor (level : Level Pattern) (dir : Path) : Option (Level Pattern) :=
  if fs.isSymlink dir then none
  else if !excludes.isEmpty &&
      excludeAnchor.any fun anchor => !isFileEligibleWithExcludes fs glob dir anchor excludes then
    none
  else if level.prunes dir then none
  else if (relativeDepth dir walkRoot).any (limits.maxDepth < ·) then none
  else
    let inheritedBuildignore := level.inheritedBuildignore ||
      level.packageRoot.any fun root => isRbuildignored glob root dir level.buildignore
    if inheritedBuildignore && includes.isEmpty then none
    else some (level.enter fs glob dir inheritedBuildignore)

/-- The ancestors of the file, from the walk root's child to the file's parent. -/
def ancestorChain (path : Path) : List Path :=
  (((path.parent.map Path.ancestors).getD []).takeWhile (· != walkRoot)).reverse

/-- Whether the walk would enter every ancestor and keep the file by its build-ignore rule. -/
def ancestorsAdmit (path : Path) : Bool :=
  match (ancestorChain walkRoot path).foldlM
      (admitAncestor fs glob walkRoot excludeAnchor excludes includes limits)
      (outermostLevel fs glob walkRoot) with
  | none => false
  | some level =>
    let buildIgnored := level.inheritedBuildignore ||
      level.packageRoot.any fun root => isRbuildignored glob root path level.buildignore
    !(buildIgnored && !includes.matches fs glob path)

def isSingleFileWalkAdmitted (path walkRoot : Path) (excludeAnchor : Option Path)
    (excludes : Excludes Pattern) (includeBuildIgnored : List String) (limits : DiscoveryLimits)
    (checkTestFixtures : Bool) : Bool :=
  if !isSourcePath path || !limits.admitsReport path then false
  else if fs.isSymlink path then false
  else if !walkRoot.isEmpty && (path.stripPrefix walkRoot).isNone then false
  else if !walkRoot.isEmpty && !ancestorsAdmit fs glob walkRoot excludeAnchor excludes
      (compileBuildIgnoredIncludes fs glob (excludeAnchor.getD walkRoot) includeBuildIgnored)
      limits path then false
  else if !checkTestFixtures && isTestFixture fs path then false
  else if !isFileEligibleWithLimits fs glob path walkRoot excludeAnchor excludes limits none then
    false
  else if (fs.metadata path).any fun m =>
      decide (m.fileType ≠ .file) || decide (limits.maxFileBytes < m.len) then false
  else true

end Question

/-! ## The walk -/

structure SkippedPaths where
  entries : List (Path × String)
  omitted : Nat

def SkippedPaths.record (s : SkippedPaths) (path : Path) (directory : Bool) (reason : String)
    (limit : Nat) : SkippedPaths :=
  if !directory && !isSourcePath path then s
  else if s.entries.length < limit then { s with entries := s.entries ++ [(path, reason)] }
  else { s with omitted := s.omitted + 1 }

/-- What the walk has found, and what it left out. -/
structure Found where
  files : List Path
  maxFilesHit : Bool
  oversizedFiles : List (Path × Nat)
  depthPrunedDirs : List Path
  skipped : SkippedPaths
  readErrors : List (Path × String)

def Found.nothing : Found := ⟨[], false, [], [], ⟨[], 0⟩, []⟩

def Found.skip (found : Found) (path : Path) (directory : Bool) (reason : String) (limit : Nat) :
    Found :=
  { found with skipped := found.skipped.record path directory reason limit }

section Walk

variable {Pattern : Type} (fs : FileSystem) (glob : Glob Pattern) (walkRoot : Path)
  (excludeRoot : Option Path) (excludes : Excludes Pattern) (includes : ScopedPaths Pattern)
  (limits : DiscoveryLimits) (checkTestFixtures : Bool)

/-- Build-ignored by itself or by a directory above it. -/
def buildIgnoredAt (level : Level Pattern) (path : Path) : Bool :=
  level.inheritedBuildignore || level.packageRoot.any fun root =>
    (path.ancestors.takeWhile fun p => p != root && p != walkRoot).any fun ancestor =>
      isRbuildignored glob root ancestor level.buildignore

/-- A file that no directory rule leaves out; the walk stops at the file cap. -/
def discoverFile (path : Path) (found : Found) : Found × Bool :=
  if !isSourcePath path then (found, false)
  else if !limits.admitsReport path then
    (found.skip path false "reports.enabled = false" limits.maxFiles, false)
  else if !checkTestFixtures && isTestFixture fs path then
    (found.skip path false "test fixture" limits.maxFiles, false)
  else if limits.maxFiles ≤ found.files.length then ({ found with maxFilesHit := true }, true)
  else
    match (fs.metadata path).filter (limits.maxFileBytes < ·.len) with
    | some m => ({ found with oversizedFiles := found.oversizedFiles ++ [(path, m.len)] }, false)
    | none => ({ found with files := found.files ++ [path] }, false)

/-- One entry of a directory, and whether the walk stops in it. -/
def discoverEntry (descend : Path → Level Pattern → Found → Found) (level : Level Pattern)
    (depth : Nat) (path : Path) (found : Found) : Found × Bool :=
  match fs.symlinkMetadata path with
  | none => (found, false)
  | some entry =>
    let directory := decide (entry.fileType = .dir)
    if entry.fileType = .symlink then (found.skip path false "symlink" limits.maxFiles, false)
    else if !excludes.isEmpty && excludeRoot.any fun anchor =>
        !isFileEligibleWithExcludes fs glob path anchor excludes then
      (found.skip path directory "ry.toml exclude" limits.maxFiles, false)
    else
      let buildIgnored := buildIgnoredAt glob walkRoot level path
      if buildIgnored && ((directory && includes.isEmpty) ||
          (!directory && !includes.matches fs glob path)) then
        (found.skip path directory ".Rbuildignore" limits.maxFiles, false)
      else if fs.isDir path then
        if path.fileName.any fun name => isPrunedDirectoryName name level.packageRoot.isSome then
          (found.skip path true "hidden or generated directory" limits.maxFiles, false)
        else if level.packageRoot.any (isExcludedPackageDirectory · path) then
          (found.skip path true "package support directory" limits.maxFiles, false)
        else if limits.maxDepth ≤ depth then
          ({ found with depthPrunedDirs := found.depthPrunedDirs ++ [path] }, false)
        else (descend path (level.enter fs glob path buildIgnored) found, false)
      else discoverFile fs limits checkTestFixtures path found

def discoverEntries (descend : Path → Level Pattern → Found → Found) (dir : Path)
    (level : Level Pattern) (depth : Nat) : List String → Found → Found
  | [], found => found
  | name :: names, found =>
    match discoverEntry fs glob walkRoot excludeRoot excludes includes limits checkTestFixtures
        descend level depth (dir.join name) found with
    | (found, true) => found
    | (found, false) => discoverEntries descend dir level depth names found

def discoverRecursive (dir : Path) (level : Level Pattern) (depth : Nat) (found : Found) : Found :=
  match fs.readDir dir with
  | .error error => { found with readErrors := found.readErrors ++ [(dir, error)] }
  | .ok names =>
    discoverEntries fs glob walkRoot excludeRoot excludes includes limits checkTestFixtures
      (fun path level found =>
        if depth < limits.maxDepth then discoverRecursive path level (depth + 1) found else found)
      dir level depth names found
termination_by limits.maxDepth - depth

/-- Adjacent equal elements become one. -/
def dedupAdjacent {A : Type} [DecidableEq A] : List A → List A
  | [] => []
  | [a] => [a]
  | a :: b :: rest => if a = b then dedupAdjacent (b :: rest) else a :: dedupAdjacent (b :: rest)

/-- Component by component. -/
def Path.le (p q : Path) : Bool :=
  if p.rooted = q.rooted then decide (p.names ≤ q.names) else p.rooted

def discoverRFiles (walkRoot : Path) (excludeRoot : Option Path) (config : Config)
    (checkTestFixtures : Bool) : Found :=
  let limits := DiscoveryLimits.fromConfig config
  if fs.isFile walkRoot then
    if limits.admitsReport walkRoot then { Found.nothing with files := [walkRoot] }
    else
      { Found.nothing with
        skipped := Found.nothing.skipped.record walkRoot false "reports.enabled = false"
          (2 ^ 64 - 1) }
  else
    let found := discoverRecursive fs glob walkRoot excludeRoot (Excludes.fromConfig glob config)
      (compileBuildIgnoredIncludes fs glob (excludeRoot.getD walkRoot) config.includeBuildIgnored)
      limits checkTestFixtures walkRoot (outermostLevel fs glob walkRoot) 0 Found.nothing
    { found with
      files := dedupAdjacent (found.files.mergeSort Path.le)
      skipped := { found.skipped with
        entries := found.skipped.entries.mergeSort fun a b => Path.le a.1 b.1 }
      readErrors := dedupAdjacent (found.readErrors.mergeSort fun a b =>
        if a.1 = b.1 then decide (a.2 ≤ b.2) else Path.le a.1 b.1) }

end Walk

end Ry.Discovery
