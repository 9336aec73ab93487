import Ry.Workspace.Discovery

/-! # The walk and the single-file question agree

The walk carries a level down and collects files; the question replays one path.  Between the
two stands `lands`, the walk's decision about one path below a directory: `Collects` says that
the walk collects exactly the paths that land, and `lands_iff` that the replay over the
ancestors decides the same.

The walk asks the patterns about every ancestor of an entry, the replay about each ancestor
once.  `Reached` is why that is one question: a level that is not build-ignored has no
build-ignored ancestor.
-/

namespace Ry.Discovery

variable {Pattern : Type} (fs : FileSystem) (glob : Glob Pattern) (walkRoot : Path)
  (excludeRoot : Option Path) (excludes : Excludes Pattern) (includes : ScopedPaths Pattern)
  (limits : DiscoveryLimits) (checkTestFixtures : Bool)

/-! ## What the walk collects -/

/-- Running `f` adds the paths in `L` and no others, unless it hits the file cap. -/
def Collects (f : Found → Found) (L : Path → Prop) : Prop :=
  ∀ found, (f found).maxFilesHit = false →
    found.maxFilesHit = false ∧ ∀ p, p ∈ (f found).files ↔ p ∈ found.files ∨ L p

namespace Collects

variable {f g : Found → Found} {L M : Path → Prop}

theorem nothing (hhit : ∀ found, (f found).maxFilesHit = found.maxFilesHit)
    (hfiles : ∀ found, (f found).files = found.files) (hL : ∀ p, ¬ L p) : Collects f L := by
  intro found h
  refine ⟨(hhit found).symm.trans h, fun p => ?_⟩
  rw [hfiles]
  exact (or_iff_left (hL p)).symm

theorem congr (h : Collects f L) (hLM : ∀ p, L p ↔ M p) : Collects f M := by
  intro found hhit
  obtain ⟨hstart, hfiles⟩ := h found hhit
  exact ⟨hstart, fun p => (hfiles p).trans (or_congr_right (hLM p))⟩

theorem andThen (hf : Collects f L) (hg : Collects g M) :
    Collects (fun found => g (f found)) fun p => L p ∨ M p := by
  intro found hhit
  obtain ⟨hmiddle, hfilesg⟩ := hg _ hhit
  obtain ⟨hstart, hfilesf⟩ := hf _ hmiddle
  refine ⟨hstart, fun p => ?_⟩
  rw [hfilesg, hfilesf, or_assoc]

end Collects

/-- The file rules behind the directory rules. -/
def landsFile (path : Path) : Bool :=
  isSourcePath path && limits.admitsReport path &&
    (checkTestFixtures || !isTestFixture fs path) &&
    (fs.metadata path).all (·.len ≤ limits.maxFileBytes)

/-- The rules for entries of any kind: links, excludes and build-ignore patterns. -/
def keepsEntry (level : Level Pattern) (path : Path) : Bool :=
  (fs.symlinkMetadata path).any fun entry =>
    decide (entry.fileType ≠ .symlink) &&
      !(!excludes.isEmpty && excludeRoot.any fun anchor =>
        !isFileEligibleWithExcludes fs glob path anchor excludes) &&
      !(buildIgnoredAt glob walkRoot level path &&
        ((decide (entry.fileType = .dir) && includes.isEmpty) ||
          (!decide (entry.fileType = .dir) && !includes.matches fs glob path)))

/-- The walk's decision about one path below `dir`. -/
def lands (level : Level Pattern) (depth : Nat) (dir : Path) : List String → Bool
  | [] => false
  | name :: names =>
    keepsEntry fs glob walkRoot excludeRoot excludes includes level (dir.join name) &&
      if fs.isDir (dir.join name) then
        !level.prunes (dir.join name) && decide (depth < limits.maxDepth) &&
          lands (level.enter fs glob (dir.join name)
            (buildIgnoredAt glob walkRoot level (dir.join name))) (depth + 1) (dir.join name) names
      else names.isEmpty && landsFile fs limits checkTestFixtures (dir.join name)

theorem collects_file (path : Path) :
    Collects (fun found => (discoverFile fs limits checkTestFixtures path found).1) fun p =>
      p = path ∧ landsFile fs limits checkTestFixtures path = true := by
  intro found hhit
  dsimp only at hhit ⊢
  unfold discoverFile at hhit ⊢
  unfold landsFile
  by_cases hsource : isSourcePath path = true
  · by_cases hreport : limits.admitsReport path = true
    · by_cases hfixture : (!checkTestFixtures && isTestFixture fs path) = true
      · simp only [hsource, hreport, hfixture] at hhit ⊢
        refine ⟨hhit, fun p => (or_iff_left ?_).symm⟩
        rintro ⟨-, hlands⟩
        cases checkTestFixtures <;> simp_all
      · have hkeeps : (checkTestFixtures || !isTestFixture fs path) = true := by
          cases checkTestFixtures <;> simp_all
        by_cases hcap : limits.maxFiles ≤ found.files.length
        · simp [hsource, hreport, hfixture, hcap] at hhit
        · simp only [hsource, hreport, hfixture, hcap, hkeeps] at hhit ⊢
          cases hmeta : fs.metadata path with
          | none =>
            simp only [hmeta] at hhit ⊢
            exact ⟨hhit, fun p => by simp⟩
          | some m =>
            by_cases hsize : limits.maxFileBytes < m.len
            · simp only [hmeta, Option.filter, hsize] at hhit ⊢
              refine ⟨hhit, fun p => (or_iff_left ?_).symm⟩
              rintro ⟨-, hlands⟩
              simp only [Option.all_some, Bool.true_and, decide_eq_true_eq] at hlands
              omega
            · simp only [hmeta, Option.filter, hsize] at hhit ⊢
              refine ⟨hhit, fun p => by simp [Nat.not_lt.mp hsize]⟩
    · simp only [hsource, hreport] at hhit ⊢
      exact ⟨hhit, fun p => by simp [Found.skip]⟩
  · simp only [hsource] at hhit ⊢
    exact ⟨hhit, fun p => by simp⟩

/-- The walk stops in a directory only at the file cap. -/
theorem hit_of_stop_file {path : Path} {found : Found}
    (h : (discoverFile fs limits checkTestFixtures path found).2 = true) :
    (discoverFile fs limits checkTestFixtures path found).1.maxFilesHit = true := by
  unfold discoverFile at h ⊢
  by_cases hcap : limits.maxFiles ≤ found.files.length
  · split_ifs at h ⊢ with hsource hreport hfixture
    rfl
  · split_ifs at h
    split at h <;> cases h

section Entries

variable {fs glob walkRoot excludeRoot excludes includes limits checkTestFixtures}
  {descend : Path → Level Pattern → Found → Found} {level : Level Pattern} {depth : Nat}
  {dir path : Path}

variable (limits) in
/-- An entry that a rule for all entries leaves out changes no list of files. -/
theorem discoverEntry_of_not_keeps
    (h : keepsEntry fs glob walkRoot excludeRoot excludes includes level path = false)
    (found : Found) :
    ∃ skipped, discoverEntry fs glob walkRoot excludeRoot excludes includes limits
      checkTestFixtures descend level depth path found = ({ found with skipped }, false) := by
  unfold discoverEntry
  unfold keepsEntry at h
  cases hentry : fs.symlinkMetadata path with
  | none => exact ⟨found.skipped, rfl⟩
  | some entry =>
    simp only [hentry, Option.any_some] at h ⊢
    by_cases hlink : entry.fileType = .symlink
    · exact ⟨_, if_pos hlink⟩
    · rw [if_neg hlink]
      split
      · exact ⟨_, rfl⟩
      · rename_i hexcluded
        split
        · exact ⟨_, rfl⟩
        · rename_i hignored
          simp_all

theorem isSome_of_keepsEntry
    (h : keepsEntry fs glob walkRoot excludeRoot excludes includes level path = true) :
    (fs.symlinkMetadata path).isSome = true := by
  unfold keepsEntry at h
  cases hentry : fs.symlinkMetadata path with
  | none => simp [hentry] at h
  | some entry => rfl

theorem discoverEntry_of_keeps
    (h : keepsEntry fs glob walkRoot excludeRoot excludes includes level path = true)
    (found : Found) :
    discoverEntry fs glob walkRoot excludeRoot excludes includes limits checkTestFixtures descend
      level depth path found =
    if fs.isDir path then
      if path.fileName.any fun name => isPrunedDirectoryName name level.packageRoot.isSome then
        (found.skip path true "hidden or generated directory" limits.maxFiles, false)
      else if level.packageRoot.any (isExcludedPackageDirectory · path) then
        (found.skip path true "package support directory" limits.maxFiles, false)
      else if limits.maxDepth ≤ depth then
        ({ found with depthPrunedDirs := found.depthPrunedDirs ++ [path] }, false)
      else
        (descend path (level.enter fs glob path (buildIgnoredAt glob walkRoot level path)) found,
          false)
    else discoverFile fs limits checkTestFixtures path found := by
  unfold discoverEntry
  unfold keepsEntry at h
  cases hentry : fs.symlinkMetadata path with
  | none => simp [hentry] at h
  | some entry =>
    simp only [hentry, Option.any_some, Bool.and_eq_true, decide_eq_true_eq,
      Bool.not_eq_true'] at h
    obtain ⟨⟨hlink, hexcluded⟩, hignored⟩ := h
    dsimp only
    rw [if_neg hlink, hexcluded, hignored]
    rfl

/-- The walk stops in a directory only at the file cap. -/
theorem hit_of_stop {found : Found}
    (h : (discoverEntry fs glob walkRoot excludeRoot excludes includes limits checkTestFixtures
      descend level depth path found).2 = true) :
    (discoverEntry fs glob walkRoot excludeRoot excludes includes limits checkTestFixtures
      descend level depth path found).1.maxFilesHit = true := by
  cases hkeeps : keepsEntry fs glob walkRoot excludeRoot excludes includes level path with
  | false =>
    obtain ⟨skipped, heq⟩ := discoverEntry_of_not_keeps limits hkeeps found
    rw [heq] at h
    cases h
  | true =>
    rw [discoverEntry_of_keeps hkeeps] at h ⊢
    by_cases hdir : fs.isDir path = true
    · rw [if_pos hdir] at h
      split_ifs at h
    · rw [if_neg hdir] at h ⊢
      exact hit_of_stop_file fs limits checkTestFixtures h

variable (level) in
/-- One entry: the paths below it that land. -/
theorem collects_entry {name : String}
    (hdescend : fs.isDir (dir.join name) = true → depth < limits.maxDepth →
      ∀ level, Collects (descend (dir.join name) level) fun p => ∃ names,
        p = (dir.join name).below names ∧ lands fs glob walkRoot excludeRoot excludes includes
          limits checkTestFixtures level (depth + 1) (dir.join name) names = true) :
    Collects (fun found => (discoverEntry fs glob walkRoot excludeRoot excludes includes limits
        checkTestFixtures descend level depth (dir.join name) found).1) fun p =>
      ∃ names, p = dir.below (name :: names) ∧ lands fs glob walkRoot excludeRoot excludes includes
        limits checkTestFixtures level depth dir (name :: names) = true := by
  have hquiet : ∀ {f : Found → Found}, (∀ found, (f found).maxFilesHit = found.maxFilesHit) →
      (∀ found, (f found).files = found.files) → (∀ names, lands fs glob walkRoot excludeRoot
        excludes includes limits checkTestFixtures level depth dir (name :: names) = false) →
      Collects f fun p => ∃ names, p = dir.below (name :: names) ∧ lands fs glob walkRoot
        excludeRoot excludes includes limits checkTestFixtures level depth dir (name :: names) =
          true := by
    intro f hhit hfiles hlands
    refine Collects.nothing hhit hfiles ?_
    rintro p ⟨names, -, h⟩
    rw [hlands] at h
    cases h
  cases hkeeps : keepsEntry fs glob walkRoot excludeRoot excludes includes level (dir.join name) with
  | false =>
    refine hquiet (fun found => ?_) (fun found => ?_) fun names => ?_
    · obtain ⟨skipped, heq⟩ := discoverEntry_of_not_keeps limits hkeeps found
      rw [heq]
    · obtain ⟨skipped, heq⟩ := discoverEntry_of_not_keeps limits hkeeps found
      rw [heq]
    · rw [lands, hkeeps, Bool.false_and]
  | true =>
    simp only [discoverEntry_of_keeps hkeeps]
    have hlands : ∀ names, lands fs glob walkRoot excludeRoot excludes includes limits
        checkTestFixtures level depth dir (name :: names) = _ := fun names => by
      rw [lands, hkeeps, Bool.true_and]
    by_cases hdir : fs.isDir (dir.join name) = true
    · simp only [if_pos hdir] at hlands ⊢
      cases hprunes : level.prunes (dir.join name) with
      | true =>
        have hnone : ∀ names, lands fs glob walkRoot excludeRoot excludes includes limits
            checkTestFixtures level depth dir (name :: names) = false := fun names => by
          rw [hlands, hprunes]
          rfl
        rw [Level.prunes, Bool.or_eq_true] at hprunes
        by_cases hname : ((dir.join name).fileName.any fun name =>
            isPrunedDirectoryName name level.packageRoot.isSome) = true
        · simp only [if_pos hname]
          exact hquiet (fun _ => rfl) (fun _ => rfl) hnone
        · simp only [if_neg hname, if_pos (hprunes.resolve_left hname)]
          exact hquiet (fun _ => rfl) (fun _ => rfl) hnone
      | false =>
        have hparts := hprunes
        rw [Level.prunes, Bool.or_eq_false_iff] at hparts
        simp only [hparts.1, hparts.2, Bool.false_eq_true, if_false]
        by_cases hdepth : limits.maxDepth ≤ depth
        · simp only [if_pos hdepth]
          refine hquiet (fun _ => rfl) (fun _ => rfl) fun names => ?_
          rw [hlands, decide_eq_false (by omega)]
          simp
        · simp only [if_neg hdepth]
          refine (hdescend hdir (by omega) _).congr fun p => ?_
          constructor
          · rintro ⟨names, rfl, h⟩
            refine ⟨names, (Path.below_cons dir name names).symm, ?_⟩
            rw [hlands, hprunes, decide_eq_true (by omega)]
            exact h
          · rintro ⟨names, rfl, h⟩
            refine ⟨names, Path.below_cons dir name names, ?_⟩
            rw [hlands, hprunes, decide_eq_true (by omega)] at h
            exact h
    · simp only [if_neg hdir] at hlands ⊢
      refine (collects_file fs limits checkTestFixtures (dir.join name)).congr fun p => ?_
      constructor
      · rintro ⟨rfl, h⟩
        refine ⟨[], rfl, ?_⟩
        rw [hlands]
        exact h
      · rintro ⟨names, rfl, h⟩
        rw [hlands, Bool.and_eq_true, List.isEmpty_iff] at h
        obtain ⟨rfl, h⟩ := h
        exact ⟨rfl, h⟩

/-- The entries of one directory, one after the other. -/
theorem collects_entries {names : List String}
    (hdescend : ∀ name, fs.isDir (dir.join name) = true → depth < limits.maxDepth →
      ∀ level, Collects (descend (dir.join name) level) fun p => ∃ names,
        p = (dir.join name).below names ∧ lands fs glob walkRoot excludeRoot excludes includes
          limits checkTestFixtures level (depth + 1) (dir.join name) names = true) :
    Collects (discoverEntries fs glob walkRoot excludeRoot excludes includes limits
        checkTestFixtures descend dir level depth names) fun p =>
      ∃ name ∈ names, ∃ rest, p = dir.below (name :: rest) ∧ lands fs glob walkRoot excludeRoot
        excludes includes limits checkTestFixtures level depth dir (name :: rest) = true := by
  induction names with
  | nil => exact Collects.nothing (fun _ => rfl) (fun _ => rfl) fun p h => by simp at h
  | cons name names ih =>
    intro found hhit
    have hentry := collects_entry level (hdescend name) found
    have hstop : (discoverEntry fs glob walkRoot excludeRoot excludes includes limits
        checkTestFixtures descend level depth (dir.join name) found).2 = false := by
      by_contra hstop
      rw [Bool.not_eq_false] at hstop
      have hcap := hit_of_stop hstop
      unfold discoverEntries at hhit
      split at hhit
      · rename_i heq
        rw [heq] at hcap
        exact absurd (hcap.symm.trans hhit) (by simp)
      · rename_i heq
        rw [heq] at hstop
        cases hstop
    have hrest : discoverEntries fs glob walkRoot excludeRoot excludes includes limits
        checkTestFixtures descend dir level depth (name :: names) found =
      discoverEntries fs glob walkRoot excludeRoot excludes includes limits checkTestFixtures
        descend dir level depth names (discoverEntry fs glob walkRoot excludeRoot excludes includes
          limits checkTestFixtures descend level depth (dir.join name) found).1 := by
      rw [discoverEntries]
      split
      · rename_i heq
        rw [heq] at hstop
        cases hstop
      · rename_i heq
        rw [heq]
    rw [hrest] at hhit ⊢
    obtain ⟨hmiddle, hafter⟩ := ih _ hhit
    obtain ⟨hstart, hfirst⟩ := hentry hmiddle
    refine ⟨hstart, fun p => ?_⟩
    rw [hafter, hfirst, or_assoc]
    simp only [List.mem_cons, or_and_right, exists_or, exists_eq_left]

/-- The entries a directory lists are all that can land below it. -/
theorem collects_listed (hfs : fs.Tree) (hdir : fs.isDir dir = true)
    (hdescend : ∀ name, fs.isDir (dir.join name) = true → depth < limits.maxDepth → ∀ level,
      Collects (discoverRecursive fs glob walkRoot excludeRoot excludes includes limits
          checkTestFixtures (dir.join name) level (depth + 1)) fun p => ∃ names,
        p = (dir.join name).below names ∧ lands fs glob walkRoot excludeRoot excludes includes
          limits checkTestFixtures level (depth + 1) (dir.join name) names = true) :
    Collects (discoverRecursive fs glob walkRoot excludeRoot excludes includes limits
        checkTestFixtures dir level depth) fun p =>
      ∃ names, p = dir.below names ∧ lands fs glob walkRoot excludeRoot excludes includes limits
        checkTestFixtures level depth dir names = true := by
  obtain ⟨names, hread, hlisted⟩ := hfs.listed dir hdir
  intro found hhit
  rw [discoverRecursive, hread] at hhit ⊢
  dsimp only at hhit ⊢
  refine Collects.congr (collects_entries fun name hname hdepth level' => ?_) (fun p => ?_) found
    hhit
  · simp only [hdepth, if_true]
    exact hdescend name hname hdepth level'
  · constructor
    · rintro ⟨name, -, rest, hp, hlands⟩
      exact ⟨name :: rest, hp, hlands⟩
    · rintro ⟨path, hp, hlands⟩
      cases path with
      | nil => simp [lands] at hlands
      | cons name rest =>
        refine ⟨name, ?_, rest, hp, hlands⟩
        rw [hlisted]
        rw [lands, Bool.and_eq_true] at hlands
        exact isSome_of_keepsEntry hlands.1

/-- The walk below a directory collects the paths that land. -/
theorem collects_recursive (hfs : fs.Tree) (hdir : fs.isDir dir = true) :
    Collects (discoverRecursive fs glob walkRoot excludeRoot excludes includes limits
        checkTestFixtures dir level depth) fun p =>
      ∃ names, p = dir.below names ∧ lands fs glob walkRoot excludeRoot excludes includes limits
        checkTestFixtures level depth dir names = true := by
  -- on the levels of directories that may still be entered
  induction hlevels : limits.maxDepth - depth generalizing dir level depth with
  | zero =>
    refine collects_listed hfs hdir fun name hname hdepth => ?_
    omega
  | succ n ih =>
    refine collects_listed hfs hdir fun name hname hdepth level => ?_
    exact ih hname (by omega)

end Entries

/-! ## The replay -/

/-- What holds of the level the walk carries into `dir`. -/
structure Reached (level : Level Pattern) (depth : Nat) (dir : Path) : Prop where
  /-- The directory is below the walk root, at this depth. -/
  below : ∃ names, dir = walkRoot.below names ∧ names.length = depth
  /-- Its package is at or above it. -/
  package : ∀ root, level.packageRoot = some root → root ∈ dir.ancestors
  /-- A level that is not build-ignored has no build-ignored ancestor. -/
  clean : level.inheritedBuildignore = false → ∀ root, level.packageRoot = some root →
    ((dir.ancestors.takeWhile fun p => p != root && p != walkRoot).any fun ancestor =>
      isRbuildignored glob root ancestor level.buildignore) = false

namespace Reached

variable {fs glob walkRoot excludeRoot excludes includes limits checkTestFixtures}
  {level : Level Pattern} {depth : Nat} {dir : Path}

theorem outermost : Reached glob walkRoot (outermostLevel fs glob walkRoot) 0 walkRoot where
  below := ⟨[], (Path.below_nil walkRoot).symm, rfl⟩
  package root hroot := List.mem_of_find?_eq_some hroot
  clean _ root _ := by
    obtain ⟨rest, hrest⟩ := walkRoot.ancestors_eq_cons
    simp [hrest]

/-- Neither the package nor the walk root is the entry of a directory below them. -/
theorem takeWhile_join (h : Reached glob walkRoot level depth dir) {root : Path}
    (hroot : level.packageRoot = some root) (name : String) :
    (dir.join name).ancestors.takeWhile (fun p => p != root && p != walkRoot) =
      dir.join name :: dir.ancestors.takeWhile fun p => p != root && p != walkRoot := by
  have hlonger : (dir.join name).names.length = dir.names.length + 1 := by simp [Path.join]
  have hpackage : dir.join name ≠ root := by
    rintro rfl
    have hle := Path.length_names_of_mem_ancestors (h.package _ hroot)
    omega
  have hwalk : dir.join name ≠ walkRoot := by
    intro heq
    obtain ⟨names, hnames, -⟩ := h.below
    have hlength : dir.names.length = walkRoot.names.length + names.length := by
      rw [hnames, Path.below, List.length_append]
    rw [heq] at hlonger
    omega
  rw [Path.ancestors_join, List.takeWhile_cons, if_pos (by simp [hpackage, hwalk])]

/-- An entry is build-ignored by what its directory hands down or by a pattern of its own. -/
theorem buildIgnoredAt_join (h : Reached glob walkRoot level depth dir) (name : String) :
    buildIgnoredAt glob walkRoot level (dir.join name) = (level.inheritedBuildignore ||
      level.packageRoot.any fun root =>
        isRbuildignored glob root (dir.join name) level.buildignore) := by
  unfold buildIgnoredAt
  cases hinherited : level.inheritedBuildignore with
  | true => rfl
  | false =>
    cases hroot : level.packageRoot with
    | none => rfl
    | some root =>
      rw [Option.any_some, Option.any_some, h.takeWhile_join hroot, List.any_cons,
        h.clean hinherited root hroot, Bool.or_false]

variable (fs) in
/-- The walk enters an entry with a level that fits it. -/
theorem enter (h : Reached glob walkRoot level depth dir) (name : String) :
    Reached glob walkRoot (level.enter fs glob (dir.join name)
      (buildIgnoredAt glob walkRoot level (dir.join name))) (depth + 1) (dir.join name) := by
  obtain ⟨names, hnames, hlength⟩ := h.below
  have hbelow : ∃ names, dir.join name = walkRoot.below names ∧ names.length = depth + 1 :=
    ⟨names ++ [name], by simp [hnames, Path.join, Path.below], by simp [hlength]⟩
  obtain ⟨rest, hrest⟩ := (dir.join name).ancestors_eq_cons
  unfold Level.enter
  split
  · refine ⟨hbelow, fun root hroot => ?_, fun _ root hroot => ?_⟩
    · obtain rfl := Option.some.inj hroot
      rw [hrest]
      exact List.mem_cons_self
    · obtain rfl := Option.some.inj hroot
      simp [hrest]
  · refine ⟨hbelow, fun root hroot => ?_, fun hclean root hroot => ?_⟩
    · rw [Path.ancestors_join]
      exact List.mem_cons_of_mem _ (h.package root hroot)
    · have hroot' : level.packageRoot = some root := hroot
      have hignored : buildIgnoredAt glob walkRoot level (dir.join name) = false := hclean
      unfold buildIgnoredAt at hignored
      rw [hroot', Option.any_some, Bool.or_eq_false_iff] at hignored
      exact hignored.2

theorem relativeDepth_join (h : Reached glob walkRoot level depth dir) (name : String) :
    relativeDepth (dir.join name) walkRoot = some (depth + 1) := by
  obtain ⟨names, rfl, rfl⟩ := h.below
  have hjoin : (walkRoot.below names).join name = walkRoot.below (names ++ [name]) := by
    simp [Path.join, Path.below]
  rw [relativeDepth, hjoin, Path.stripPrefix_below, Option.map_some, List.length_append]
  rfl

/-- The replay enters an ancestor if and only if the walk does, and with the same level. -/
theorem admitAncestor_join (hfs : fs.Tree) (h : Reached glob walkRoot level depth dir)
    {name : String} (hdir : fs.isDir (dir.join name) = true) :
    admitAncestor fs glob walkRoot excludeRoot excludes includes limits level (dir.join name) =
      if keepsEntry fs glob walkRoot excludeRoot excludes includes level (dir.join name) &&
          !level.prunes (dir.join name) && decide (depth < limits.maxDepth) then
        some (level.enter fs glob (dir.join name)
          (buildIgnoredAt glob walkRoot level (dir.join name)))
      else none := by
  unfold admitAncestor keepsEntry
  rw [← h.buildIgnoredAt_join, h.relativeDepth_join]
  obtain ⟨entry, hentry⟩ :=
    Option.isSome_iff_exists.mp (hfs.entry _ (FileSystem.isSome_of_isDir hdir))
  cases hlink : fs.isSymlink (dir.join name) with
  | true =>
    have hsymlink : entry.fileType = .symlink := by simpa [FileSystem.isSymlink, hentry] using hlink
    simp [hentry, hsymlink]
  | false =>
    have hsymlink : entry.fileType ≠ .symlink := by simpa [FileSystem.isSymlink, hentry] using hlink
    have htype : entry.fileType = .dir := by
      rw [FileSystem.isDir, hfs.same _ hlink, hentry] at hdir
      simpa using hdir
    rw [hentry, Option.any_some]
    simp only [htype, decide_true, Bool.true_and, Bool.not_true, Bool.false_and, Bool.or_false,
      Bool.false_eq_true, if_false, Option.any_some]
    by_cases hexcluded : (!excludes.isEmpty && excludeRoot.any fun anchor =>
        !isFileEligibleWithExcludes fs glob (dir.join name) anchor excludes) = true
    · simp only [hexcluded, if_true]
      rfl
    · by_cases hprunes : level.prunes (dir.join name) = true
      · simp [hexcluded, hprunes]
      · by_cases hdepth : limits.maxDepth < depth + 1
        · simp [hexcluded, hprunes, hdepth, show ¬ depth < limits.maxDepth by omega]
        · simp only [hexcluded, hprunes, hdepth, show depth < limits.maxDepth by omega]
          by_cases hignored : (buildIgnoredAt glob walkRoot level (dir.join name) &&
              includes.isEmpty) = true
          · simp [hignored]
          · simp [hignored]

/-- The walk lands a file if and only if the replay enters every ancestor and the file passes
the rules for entries and for files. -/
theorem lands_iff (hfs : fs.Tree) (hempty : dir.isEmpty = false)
    (h : Reached glob walkRoot level depth dir) (hdepth : depth ≤ limits.maxDepth)
    {names : List String} {last : String} {m : Metadata}
    (hfile : fs.symlinkMetadata (dir.below (names ++ [last])) = some m) (htype : m.fileType = .file) :
    lands fs glob walkRoot excludeRoot excludes includes limits checkTestFixtures level depth dir
        (names ++ [last]) = true ↔
      depth + names.length ≤ limits.maxDepth ∧
        (∃ level', (dir.steps names).foldlM
            (admitAncestor fs glob walkRoot excludeRoot excludes includes limits) level =
              some level' ∧
          ((level'.inheritedBuildignore || level'.packageRoot.any fun root => isRbuildignored glob
            root (dir.below (names ++ [last])) level'.buildignore) &&
              !includes.matches fs glob (dir.below (names ++ [last]))) = false) ∧
        (!excludes.isEmpty && excludeRoot.any fun anchor => !isFileEligibleWithExcludes fs glob
          (dir.below (names ++ [last])) anchor excludes) = false ∧
        landsFile fs limits checkTestFixtures (dir.below (names ++ [last])) = true := by
  induction names generalizing dir level depth with
  | nil =>
    have hpath : dir.below ([] ++ [last]) = dir.join last := rfl
    rw [hpath] at hfile ⊢
    have hlink : fs.isSymlink (dir.join last) = false := by
      simp [FileSystem.isSymlink, hfile, htype]
    have hdir : fs.isDir (dir.join last) = false := by
      simp [FileSystem.isDir, hfs.same _ hlink, hfile, htype]
    rw [List.nil_append, lands, hdir, keepsEntry, hfile, Option.any_some, h.buildIgnoredAt_join,
      Path.steps, List.foldlM_nil]
    simp only [htype, reduceCtorEq, ne_eq, not_false_eq_true, decide_true, decide_false,
      Bool.false_and, Bool.false_or, Bool.not_false, Bool.true_and, Bool.false_eq_true, if_false,
      List.isEmpty_nil, Bool.and_eq_true, Bool.not_eq_true', List.length_nil, Nat.add_zero,
      Option.pure_def, Option.some.injEq, exists_eq_left']
    constructor
    · rintro ⟨⟨hexcluded, hignored⟩, hlands⟩
      exact ⟨hdepth, hignored, hexcluded, hlands⟩
    · rintro ⟨-, hignored, hexcluded, hlands⟩
      exact ⟨⟨hexcluded, hignored⟩, hlands⟩
  | cons name names ih =>
    have hbelow : dir.below (name :: names ++ [last]) = (dir.join name).below (names ++ [last]) :=
      Path.below_cons dir name (names ++ [last])
    have hentry : (fs.symlinkMetadata (dir.below ([name] ++ (names ++ [last])))).isSome = true := by
      rw [List.singleton_append, ← List.cons_append, hfile]
      rfl
    have hdir : fs.isDir (dir.join name) = true := hfs.isDir_below hempty (by simp) hentry
    have hjoin : (dir.join name).isEmpty = false := by simp [Path.isEmpty, Path.join]
    rw [hbelow] at hfile ⊢
    rw [List.cons_append, lands, if_pos hdir, Path.steps, List.foldlM_cons,
      h.admitAncestor_join hfs hdir, List.length_cons]
    by_cases hkeeps : keepsEntry fs glob walkRoot excludeRoot excludes includes level
        (dir.join name) = true
    · by_cases hprunes : level.prunes (dir.join name) = true
      · simp [hprunes]
      · by_cases hdeeper : depth < limits.maxDepth
        · have hrest := ih hjoin (h.enter fs name) hdeeper hfile
          simp only [hkeeps, hprunes, hdeeper, decide_true, Bool.true_and, Bool.and_true,
            Bool.not_false, if_true, Option.bind_eq_bind, Option.bind_some]
          rw [hrest, show depth + 1 + names.length = depth + (names.length + 1) by omega]
        · have hdeep : ¬ depth + (names.length + 1) ≤ limits.maxDepth := by omega
          simp [hdeeper, hdeep]
    · simp [hkeeps]

end Reached

/-! ## One answer -/

theorem ancestorChain_below (walkRoot : Path) (names : List String) (last : String) :
    ancestorChain walkRoot (walkRoot.below (names ++ [last])) = walkRoot.steps names := by
  have hparent : (walkRoot.below (names ++ [last])).parent = some (walkRoot.below names) := by
    rw [show walkRoot.below (names ++ [last]) = (walkRoot.below names).join last by
      simp [Path.below, Path.join], Path.parent_join]
  obtain ⟨rest, hrest⟩ := walkRoot.ancestors_eq_cons
  have hlonger : ∀ p ∈ (walkRoot.steps names).reverse, (p != walkRoot) = true := by
    intro p hp
    have hlt := Path.length_names_of_mem_steps (List.mem_reverse.mp hp)
    rw [bne_iff_ne]
    rintro rfl
    omega
  rw [ancestorChain, hparent, Option.map_some, Option.getD_some, Path.ancestors_below, hrest,
    List.takeWhile_append_of_pos hlonger]
  simp

/-- The ancestors admit a file if and only if the replay enters each of them and the file is not
build-ignored after that. -/
theorem ancestorsAdmit_below (names : List String) (last : String) :
    ancestorsAdmit fs glob walkRoot excludeRoot excludes includes limits
        (walkRoot.below (names ++ [last])) = true ↔
      ∃ level, (walkRoot.steps names).foldlM
          (admitAncestor fs glob walkRoot excludeRoot excludes includes limits)
          (outermostLevel fs glob walkRoot) = some level ∧
        ((level.inheritedBuildignore || level.packageRoot.any fun root => isRbuildignored glob
          root (walkRoot.below (names ++ [last])) level.buildignore) &&
            !includes.matches fs glob (walkRoot.below (names ++ [last]))) = false := by
  rw [ancestorsAdmit, ancestorChain_below]
  cases hchain : (walkRoot.steps names).foldlM
      (admitAncestor fs glob walkRoot excludeRoot excludes includes limits)
      (outermostLevel fs glob walkRoot) with
  | none => simp
  | some level => simp only [Option.some.injEq, exists_eq_left', Bool.not_eq_true']

theorem isWithinDepth_below (walkRoot : Path) (names : List String) (last : String)
    (maxDepth : Nat) :
    isWithinDepth (walkRoot.below (names ++ [last])) walkRoot maxDepth =
      decide (names.length ≤ maxDepth) := by
  rw [isWithinDepth, show walkRoot.below (names ++ [last]) = (walkRoot.below names).join last by
    simp [Path.below, Path.join], Path.parent_join, Option.getD_some, relativeDepth,
    Path.stripPrefix_below]
  rfl

theorem any_not_eligible (anchor : Option Path) (path : Path) :
    (!excludes.isEmpty &&
        anchor.any fun anchor => !isFileEligibleWithExcludes fs glob path anchor excludes) =
      anchor.any fun anchor => !isFileEligibleWithExcludes fs glob path anchor excludes := by
  cases hempty : excludes.isEmpty with
  | false => simp
  | true =>
    cases anchor with
    | none => rfl
    | some anchor => simp [isFileEligibleWithExcludes, hempty]

theorem mem_dedupAdjacent {A : Type} [DecidableEq A] {a : A} {as : List A} :
    a ∈ dedupAdjacent as ↔ a ∈ as := by
  induction as using dedupAdjacent.induct with
  | case1 => rfl
  | case2 b => rfl
  | case3 b rest ih => simp [dedupAdjacent, ih]
  | case4 b c rest hne ih => simp [dedupAdjacent, hne, ih]

/-- The walk from a directory lists the paths that land. -/
theorem mem_discoverRFiles (hfs : fs.Tree) (hroot : fs.isDir walkRoot = true) (config : Config)
    (hcap : (discoverRFiles fs glob walkRoot excludeRoot config checkTestFixtures).maxFilesHit =
      false) (names : List String) :
    walkRoot.below names ∈
        (discoverRFiles fs glob walkRoot excludeRoot config checkTestFixtures).files ↔
      lands fs glob walkRoot excludeRoot (Excludes.fromConfig glob config)
        (compileBuildIgnoredIncludes fs glob (excludeRoot.getD walkRoot)
          config.includeBuildIgnored)
        (DiscoveryLimits.fromConfig config) checkTestFixtures (outermostLevel fs glob walkRoot) 0
        walkRoot names = true := by
  have hnotFile : fs.isFile walkRoot = false := by
    unfold FileSystem.isDir at hroot
    unfold FileSystem.isFile
    cases hmeta : fs.metadata walkRoot with
    | none => rfl
    | some m =>
      rw [hmeta, Option.any_some, decide_eq_true_eq] at hroot
      simp [hroot]
  simp only [discoverRFiles, hnotFile, Bool.false_eq_true, if_false] at hcap ⊢
  rw [mem_dedupAdjacent, List.mem_mergeSort, (collects_recursive hfs hroot _ hcap).2]
  constructor
  · rintro (hnothing | ⟨names', hnames, hlands⟩)
    · cases hnothing
    · rwa [Path.below_injective hnames]
  · intro hlands
    exact Or.inr ⟨names, rfl, hlands⟩

/-- The single-file question answers yes exactly for the files the walk lists. -/
theorem isSingleFileWalkAdmitted_iff_mem_discoverRFiles (hfs : fs.Tree)
    (hroot : fs.isDir walkRoot = true) {path : Path} {m : Metadata}
    (hinside : (path.stripPrefix walkRoot).isSome = true)
    (hentry : fs.symlinkMetadata path = some m) (hfile : m.fileType = .file) (config : Config)
    (hcap : (discoverRFiles fs glob walkRoot excludeRoot config checkTestFixtures).maxFilesHit =
      false) :
    isSingleFileWalkAdmitted fs glob path walkRoot excludeRoot (Excludes.fromConfig glob config)
        config.includeBuildIgnored (DiscoveryLimits.fromConfig config) checkTestFixtures = true ↔
      path ∈ (discoverRFiles fs glob walkRoot excludeRoot config checkTestFixtures).files := by
  obtain ⟨components, hcomponents⟩ := Option.isSome_iff_exists.mp hinside
  obtain rfl := Path.eq_below_of_stripPrefix hcomponents
  have hlink : fs.isSymlink (walkRoot.below components) = false := by
    simp [FileSystem.isSymlink, hentry, hfile]
  have hmeta : fs.metadata (walkRoot.below components) = some m := (hfs.same _ hlink).trans hentry
  obtain ⟨names, last, rfl⟩ : ∃ names last, components = names ++ [last] := by
    rcases List.eq_nil_or_concat components with rfl | ⟨names, last, h⟩
    · -- the walk root is no file
      rw [Path.below_nil] at hmeta
      simp [FileSystem.isDir, hmeta, hfile] at hroot
    · exact ⟨names, last, by simpa using h⟩
  have hempty := hfs.isEmpty_of_isDir hroot
  rw [mem_discoverRFiles fs glob walkRoot excludeRoot checkTestFixtures hfs hroot config hcap,
    Reached.outermost.lands_iff hfs hempty (Nat.zero_le _) hentry hfile]
  rw [← ancestorsAdmit_below]
  have hguard : ∀ b c : Bool, (if b = true then false else c) = (!b && c) := by decide
  simp only [isSingleFileWalkAdmitted, isFileEligibleWithLimits, hlink, hempty, hcomponents,
    isWithinDepth_below, hmeta, landsFile, Nat.zero_add, any_not_eligible, hguard,
    Option.isNone_some, Option.any_some, Option.all_none, Option.all_some, hfile]
  have hsize : decide ((DiscoveryLimits.fromConfig config).maxFileBytes < m.len) =
      !decide (m.len ≤ (DiscoveryLimits.fromConfig config).maxFileBytes) := by
    rw [← decide_not]
    exact decide_eq_decide.mpr Nat.not_le.symm
  simp only [hsize, ne_eq, not_true, decide_false, Bool.not_or, Bool.not_and, Bool.not_not,
    Bool.not_false, Bool.and_false, Bool.true_and, Bool.and_true, Bool.false_or, Bool.and_eq_true,
    Bool.not_eq_true', decide_eq_true_eq]
  constructor
  · rintro ⟨⟨hsource, hreport⟩, hadmits, hfixture, ⟨-, heligible, hdepth⟩, hlen⟩
    exact ⟨hdepth, hadmits, heligible, ⟨⟨hsource, hreport⟩, hfixture⟩, hlen⟩
  · rintro ⟨hdepth, hadmits, heligible, ⟨⟨hsource, hreport⟩, hfixture⟩, hlen⟩
    exact ⟨⟨hsource, hreport⟩, hadmits, hfixture, ⟨hreport, heligible, hdepth⟩, hlen⟩

/-- A file does not hit the cap while there is room. -/
theorem maxFilesHit_discoverFile (path : Path) (found : Found)
    (h : found.files.length < limits.maxFiles) :
    (discoverFile fs limits checkTestFixtures path found).1.maxFilesHit = found.maxFilesHit := by
  unfold discoverFile
  rw [if_neg (Nat.not_le.mpr h)]
  split_ifs <;> try rfl
  split <;> rfl

section Sample

/-- The source `a.R` alone in `/w`, below the root of the file system. -/
def oneSource : FileSystem where
  symlinkMetadata p :=
    if p = ⟨true, []⟩ ∨ p = ⟨true, ["w"]⟩ then some ⟨.dir, 0⟩
    else if p = ⟨true, ["w", "a.R"]⟩ then some ⟨.file, 4⟩ else none
  metadata p :=
    if p = ⟨true, []⟩ ∨ p = ⟨true, ["w"]⟩ then some ⟨.dir, 0⟩
    else if p = ⟨true, ["w", "a.R"]⟩ then some ⟨.file, 4⟩ else none
  readDir p :=
    if p = ⟨true, []⟩ then .ok ["w"] else if p = ⟨true, ["w"]⟩ then .ok ["a.R"] else .error ""
  readToString _ := none
  absolute p := some p
  scopedPathIdentity p := some p

theorem oneSource_tree : oneSource.Tree where
  listed dir hdir := by
    obtain rfl | rfl : dir = ⟨true, []⟩ ∨ dir = ⟨true, ["w"]⟩ := by
      by_contra hother
      by_cases hfile : dir = ⟨true, ["w", "a.R"]⟩ <;>
        simp [FileSystem.isDir, oneSource, hother, hfile] at hdir
    · exact ⟨["w"], rfl, fun name => by simp [oneSource, Path.join]⟩
    · exact ⟨["a.R"], rfl, fun name => by simp [oneSource, Path.join]⟩
  parent_isDir dir name hempty hentry := by
    by_cases hw : dir.join name = ⟨true, ["w"]⟩
    · obtain ⟨rooted, names⟩ := dir
      simp only [Path.join, Path.mk.injEq] at hw
      obtain ⟨rfl, hnames⟩ := hw
      obtain rfl : names = [] := by simpa using congrArg List.dropLast hnames
      rfl
    · by_cases hsource : dir.join name = ⟨true, ["w", "a.R"]⟩
      · obtain ⟨rooted, names⟩ := dir
        simp only [Path.join, Path.mk.injEq] at hsource
        obtain ⟨rfl, hnames⟩ := hsource
        obtain rfl : names = ["w"] := by
          simpa using congrArg List.dropLast hnames
        rfl
      · have hroot : dir.join name ≠ ⟨true, []⟩ := by simp [Path.join]
        simp [oneSource, hw, hsource, hroot] at hentry
  empty p hempty := by
    obtain ⟨rooted, names⟩ := p
    have hrooted : rooted = false := by simpa [Path.isEmpty] using (Bool.and_eq_true_iff.mp hempty).1
    simp [oneSource, hrooted]
  entry _ h := h
  same _ _ := rfl

/-- Files are compared by name alone. -/
def literalGlob : Glob String := ⟨some, (· == ·), (· == ·)⟩

def defaultConfig : Config := ⟨[], [], ⟨20000, 2 * 1024 * 1024, 64⟩, true⟩

theorem isSingleFileWalkAdmitted_iff_oneSource :
    isSingleFileWalkAdmitted oneSource literalGlob ⟨true, ["w", "a.R"]⟩ ⟨true, ["w"]⟩ none
        (Excludes.fromConfig literalGlob defaultConfig) [] (DiscoveryLimits.fromConfig defaultConfig)
        false = true ↔
      ⟨true, ["w", "a.R"]⟩ ∈
        (discoverRFiles oneSource literalGlob ⟨true, ["w"]⟩ none defaultConfig false).files :=
  isSingleFileWalkAdmitted_iff_mem_discoverRFiles oneSource literalGlob ⟨true, ["w"]⟩ none false
    oneSource_tree (by decide) (by decide) (m := ⟨.file, 4⟩) rfl rfl defaultConfig
    (by
      have hlevel : outermostLevel oneSource literalGlob ⟨true, ["w"]⟩ = ⟨false, none, []⟩ := by
        simp [outermostLevel, Path.ancestors, FileSystem.isFile, oneSource, Path.join]
      rw [discoverRFiles, if_neg (by decide), discoverRecursive, hlevel,
        show oneSource.readDir ⟨true, ["w"]⟩ = .ok ["a.R"] from rfl]
      dsimp only
      rw [discoverEntries, discoverEntry_of_keeps (by rfl), if_neg (by decide)]
      have hroom := maxFilesHit_discoverFile oneSource (DiscoveryLimits.fromConfig defaultConfig)
        false (Path.join ⟨true, ["w"]⟩ "a.R") Found.nothing (by decide)
      split
      · rename_i heq
        rwa [heq] at hroom
      · rename_i heq
        rwa [heq] at hroom)

end Sample

end Ry.Discovery
