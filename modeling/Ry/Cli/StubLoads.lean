import Ry.Cli.Loads

/-! # Stubs that were not touched

The stub loader reads no file that `stubFiles` does not list.
-/

namespace Ry.Watch

open Discovery (dedupAdjacent mem_dedupAdjacent)

/-! ## Sorted paths -/

theorem pathLe_iff {p q : Path} : Discovery.Path.le p q = true ↔
    (p.rooted = q.rooted ∧ p.names ≤ q.names) ∨ (p.rooted = true ∧ q.rooted = false) := by
  unfold Discovery.Path.le
  split
  · rename_i h
    simp only [decide_eq_true_eq, h, true_and]
    cases q.rooted <;> simp
  · rename_i h
    revert h
    cases p.rooted <;> cases q.rooted <;> simp

theorem pathLe_total (p q : Path) :
    (Discovery.Path.le p q || Discovery.Path.le q p) = true := by
  rw [Bool.or_eq_true, pathLe_iff, pathLe_iff]
  have hnames := le_total p.names q.names
  cases hp : p.rooted <;> cases hq : q.rooted <;> simp [hnames]

theorem pathLe_trans (p q r : Path) (h : Discovery.Path.le p q = true)
    (h' : Discovery.Path.le q r = true) : Discovery.Path.le p r = true := by
  rw [pathLe_iff] at h h' ⊢
  rcases h with ⟨hpq, hle⟩ | ⟨hp, hq⟩
  · rcases h' with ⟨hqr, hle'⟩ | ⟨hq, hr⟩
    · exact .inl ⟨hpq.trans hqr, hle.trans hle'⟩
    · exact .inr ⟨hpq.trans hq, hr⟩
  · rcases h' with ⟨hqr, -⟩ | ⟨hq', -⟩
    · exact .inr ⟨hp, hqr ▸ hq⟩
    · rw [hq] at hq'
      exact absurd hq' (by decide)

theorem pathLe_antisymm {p q : Path} (h : Discovery.Path.le p q = true)
    (h' : Discovery.Path.le q p = true) : p = q := by
  rw [pathLe_iff] at h h'
  rcases h with ⟨hrooted, hle⟩ | ⟨hp, hq⟩
  · rcases h' with ⟨-, hle'⟩ | ⟨hq, hp⟩
    · cases p
      cases q
      rw [Path.mk.injEq]
      exact ⟨hrooted, le_antisymm hle hle'⟩
    · rw [hrooted, hq] at hp
      exact absurd hp (by decide)
  · rcases h' with ⟨hrooted, -⟩ | ⟨hq', -⟩
    · rw [hrooted, hp] at hq
      exact absurd hq (by decide)
    · rw [hq] at hq'
      exact absurd hq' (by decide)

/-- In order and without repetition. -/
def Ascending (paths : List Path) : Prop :=
  paths.Pairwise fun p q => Discovery.Path.le p q = true ∧ p ≠ q

theorem Ascending.eq {paths paths' : List Path} (h : Ascending paths) (h' : Ascending paths')
    (hmem : ∀ p, p ∈ paths ↔ p ∈ paths') : paths = paths' := by
  have hperm : paths.Perm paths' :=
    (List.perm_ext_iff_of_nodup (h.imp fun h => h.2) (h'.imp fun h => h.2)).mpr hmem
  refine hperm.eq_of_pairwise (fun p q _ _ hpq hqp => ?_) h h'
  exact pathLe_antisymm hpq.1 hqp.1

theorem ascending_dedupAdjacent {paths : List Path}
    (h : paths.Pairwise fun p q => Discovery.Path.le p q = true) :
    Ascending (dedupAdjacent paths) := by
  induction paths with
  | nil => exact List.Pairwise.nil
  | cons p rest ih =>
    cases rest with
    | nil => exact List.pairwise_singleton _ p
    | cons q rest =>
      rw [dedupAdjacent]
      split
      · exact ih h.tail
      · rename_i hne
        obtain ⟨hall, hrest⟩ := List.pairwise_cons.mp h
        refine List.pairwise_cons.mpr ⟨fun r hr => ⟨hall r (mem_dedupAdjacent.mp hr), ?_⟩, ih h.tail⟩
        rintro rfl
        rcases List.mem_cons.mp (mem_dedupAdjacent.mp hr) with heq | hmem
        · exact hne heq
        · exact hne (pathLe_antisymm (hall q List.mem_cons_self)
            ((List.pairwise_cons.mp hrest).1 p hmem))

/-- A step that may be repeated is not repeated for a list without repetition. -/
theorem foldl_dedupAdjacent {S A : Type} [DecidableEq A] {f : S → A → S}
    (h : ∀ s a, f (f s a) a = f s a) (as : List A) (s : S) :
    (dedupAdjacent as).foldl f s = as.foldl f s := by
  induction as generalizing s with
  | nil => rfl
  | cons a rest ih =>
    cases rest with
    | nil => rfl
    | cons b rest =>
      rw [dedupAdjacent]
      split
      · rename_i heq
        subst heq
        rw [ih, List.foldl_cons, List.foldl_cons, List.foldl_cons, h]
      · rw [List.foldl_cons, ih]
        rfl

/-! ## What the loader reads -/

/-- A file of the directory, or of a directory in it. -/
def Entry (d : FileSystem) (dir p : Path) : Prop :=
  d.isDir dir = true ∧ (d.symlinkMetadata p).isSome = true ∧
    ((∃ name, p = dir.join name) ∨
      ∃ inner name, d.isDir (dir.join inner) = true ∧ p = (dir.join inner).join name)

/-- A stub file that can be read. -/
def Loadable (d : FileSystem) (dir p : Path) : Prop :=
  Entry d dir p ∧ d.isDir p = false ∧ p.extension = some "json" ∧ (d.readToString p).isSome = true

section Stubs

variable {d d' : Disk} {dir p : Path}

theorem mem_entries (hd : d.Lawful) (hdir : d.isDir dir = true) {names : List String}
    (h : d.readDir dir = .ok names) :
    p ∈ names.map dir.join ↔ (d.symlinkMetadata p).isSome = true ∧ ∃ name, p = dir.join name := by
  obtain ⟨names', hnames', hlisted⟩ := hd.tree.listed dir hdir
  obtain rfl : names = names' := Except.ok.inj (h.symm.trans hnames')
  rw [List.mem_map]
  constructor
  · rintro ⟨name, hname, rfl⟩
    exact ⟨(hlisted name).mp hname, name, rfl⟩
  · rintro ⟨hentry, name, rfl⟩
    exact ⟨name, (hlisted name).mpr hentry, rfl⟩

/-- A directory in the directory is one of its entries. -/
theorem mem_inner (hd : d.Lawful) (hdir : d.isDir dir = true) {names : List String}
    (h : d.readDir dir = .ok names) {inner : String} (hinner : d.isDir (dir.join inner) = true) :
    dir.join inner ∈ names.map dir.join :=
  (mem_entries hd hdir h).mpr ⟨hd.tree.entry _ (FileSystem.isSome_of_isDir hinner), inner, rfl⟩

theorem mapM_readDir (hd : d.Lawful) {dirs : List Path} (h : ∀ dir ∈ dirs, d.isDir dir = true) :
    ∃ lists, (dirs.mapM fun inner => (d.readDir inner).map fun names => names.map inner.join) =
        .ok lists ∧
      ∀ p, p ∈ lists.flatten ↔
        ∃ dir ∈ dirs, (d.symlinkMetadata p).isSome = true ∧ ∃ name, p = dir.join name := by
  induction dirs with
  | nil => exact ⟨[], rfl, by simp⟩
  | cons dir dirs ih =>
    obtain ⟨lists, hlists, hmem⟩ := ih fun q hq => h q (List.mem_cons_of_mem dir hq)
    have hdir := h dir List.mem_cons_self
    obtain ⟨names, hnames, -⟩ := hd.tree.listed dir hdir
    refine ⟨names.map dir.join :: lists, ?_, fun p => ?_⟩
    · rw [List.mapM_cons, hnames, hlists]
      rfl
    · rw [List.flatten_cons, List.mem_append, hmem, mem_entries hd hdir hnames]
      simp only [List.mem_cons, exists_eq_or_imp]

/-- The files of a directory, in order. -/
theorem discoverStubFiles_of_isDir (hd : d.Lawful) (hdir : d.isDir dir = true) :
    ∃ paths, discoverStubFiles d.toFileSystem dir = .ok paths ∧
      (paths.Pairwise fun p q => Discovery.Path.le p q = true) ∧
      ∀ p, p ∈ paths ↔ Entry d.toFileSystem dir p ∧ d.isDir p = false ∧
        p.extension = some "json" := by
  obtain ⟨names, hnames, -⟩ := hd.tree.listed dir hdir
  have hinner : ∀ inner ∈ ((names.map dir.join).filter d.isDir).reverse, d.isDir inner = true :=
    fun inner h => (List.mem_filter.mp (List.mem_reverse.mp h)).2
  obtain ⟨lists, hlists, hmem⟩ := mapM_readDir hd hinner
  have heq : discoverStubFiles d.toFileSystem dir = .ok
      (((names.map dir.join ++ lists.flatten).filter fun path =>
        !d.isDir path && path.extension == some "json").mergeSort Discovery.Path.le) := by
    unfold discoverStubFiles
    rw [hnames]
    dsimp only [bind, Except.bind]
    rw [show (((names.map dir.join).filter d.isDir).reverse.mapM fun inner =>
      (d.readDir inner).map fun names => names.map inner.join) = .ok lists from hlists]
    rfl
  refine ⟨_, heq, List.pairwise_mergeSort pathLe_trans pathLe_total _, fun p => ?_⟩
  rw [List.mem_mergeSort, List.mem_filter, List.mem_append, hmem, mem_entries hd hdir hnames,
    Bool.and_eq_true, Bool.not_eq_true', beq_iff_eq]
  refine and_congr_left fun _ => ?_
  constructor
  · rintro (⟨hentry, name, rfl⟩ | ⟨inner, hinner, hentry, name, rfl⟩)
    · exact ⟨hdir, hentry, .inl ⟨name, rfl⟩⟩
    · obtain ⟨hmem, hisDir⟩ := List.mem_filter.mp (List.mem_reverse.mp hinner)
      obtain ⟨-, innerName, rfl⟩ := (mem_entries hd hdir hnames).mp hmem
      exact ⟨hdir, hentry, .inr ⟨innerName, name, hisDir, rfl⟩⟩
  · rintro ⟨-, hentry, ⟨name, rfl⟩ | ⟨inner, name, hisDir, rfl⟩⟩
    · exact .inl ⟨hentry, name, rfl⟩
    · refine .inr ⟨dir.join inner, ?_, hentry, name, rfl⟩
      exact List.mem_reverse.mpr (List.mem_filter.mpr ⟨mem_inner hd hdir hnames hisDir, hisDir⟩)

/-- Every file that the loader reads is stamped. -/
theorem mem_stubFiles_of_loadable (hd : d.Lawful) (h : Loadable d.toFileSystem dir p)
    {dirs : List Path} (hmem : dir ∈ dirs) : p ∈ stubFiles d.toFileSystem dirs := by
  obtain ⟨⟨hdir, hentry, hplace⟩, hfile, -, -⟩ := h
  obtain ⟨names, hnames, -⟩ := hd.tree.listed dir hdir
  refine List.mem_flatMap.mpr ⟨dir, hmem, ?_⟩
  rw [hnames]
  dsimp only
  rcases hplace with ⟨name, rfl⟩ | ⟨inner, name, hinner, rfl⟩
  · refine List.mem_flatMap.mpr ⟨dir.join name, (mem_entries hd hdir hnames).mpr
      ⟨hentry, name, rfl⟩, ?_⟩
    rw [if_neg (by simp [hfile])]
    exact List.mem_singleton_self _
  · refine List.mem_flatMap.mpr ⟨dir.join inner, mem_inner hd hdir hnames hinner, ?_⟩
    obtain ⟨nested, hnested, -⟩ := hd.tree.listed _ hinner
    rw [if_pos hinner, hnested]
    exact List.mem_filter.mpr ⟨(mem_entries hd hinner hnested).mpr ⟨hentry, name, rfl⟩, by
      simp [hfile]⟩

/-- A stub file that was not touched is still a stub file. -/
theorem Loadable.sameAt (hd : d.Lawful) (hd' : d'.Lawful) (h : Loadable d.toFileSystem dir p)
    (hsame : Disk.SameAt d d' p) : Loadable d'.toFileSystem dir p := by
  obtain ⟨⟨hdir, -, hplace⟩, hfile, hjson, hread⟩ := h
  have hentry : (d'.symlinkMetadata p).isSome = true :=
    hd'.tree.entry p (hsame.isSome ▸ hd.present p hread)
  have hfile' : d'.isDir p = false := by
    have htype : ∀ {d : Disk}, d.isDir p =
        ((d.metadata p).map (·.fileType)).any (· = .dir) := fun {d} => by
      unfold FileSystem.isDir
      cases d.metadata p <;> rfl
    rw [htype, ← hsame.fileType, ← htype, hfile]
  have hnonempty := hd.tree.isEmpty_of_isDir hdir
  refine ⟨?_, hfile', hjson, hsame.text ▸ hread⟩
  rcases hplace with ⟨name, rfl⟩ | ⟨inner, name, -, rfl⟩
  · exact ⟨hd'.tree.parent_isDir dir name hnonempty hentry, hentry, .inl ⟨name, rfl⟩⟩
  · have hinner := hd'.tree.parent_isDir (dir.join inner) name (by simp [Path.isEmpty, Path.join])
      hentry
    have hentryInner := hd'.tree.entry _ (FileSystem.isSome_of_isDir hinner)
    exact ⟨hd'.tree.parent_isDir dir inner hnonempty hentryInner, hentry,
      .inr ⟨inner, name, hinner, rfl⟩⟩

variable {Stub : Type} (package : Stub → Option String) (parseTypeshed : String → Option Stub)

/-- The stubs of one directory. -/
def dirStubs (d : FileSystem) (dir : Path) : Table String Stub :=
  match discoverStubFiles d dir with
  | .ok paths => paths.foldl (insertStub package parseTypeshed d) ∅
  | .error _ => ∅

theorem loadStubDirs_eq (d : FileSystem) (dirs : List Path) :
    loadStubDirs package parseTypeshed d dirs =
      dirs.foldl (fun loaded dir => dirStubs package parseTypeshed d dir ∪ loaded) ∅ := by
  unfold loadStubDirs dirStubs
  congr 1
  funext loaded dir
  cases discoverStubFiles d dir with
  | ok => rfl
  | error => exact Finmap.empty_union.symm

theorem insertStub_insertStub (d : FileSystem) (stubs : Table String Stub) (p : Path) :
    insertStub package parseTypeshed d (insertStub package parseTypeshed d stubs p) p =
      insertStub package parseTypeshed d stubs p := by
  unfold insertStub
  cases (d.readToString p).bind parseTypeshed with
  | none => rfl
  | some stub =>
    dsimp only
    cases (package stub).or (p.fileName.bind nameStem) with
    | none => rfl
    | some name => exact @Finmap.insert_insert String (fun _ => Stub) _ name stub stub stubs

/-- The stubs of a directory are those of its readable files, in order. -/
theorem exists_loadable (hd : d.Lawful) (dir : Path) : ∃ paths, Ascending paths ∧
    (∀ p, p ∈ paths ↔ Loadable d.toFileSystem dir p) ∧
      dirStubs package parseTypeshed d.toFileSystem dir =
        paths.foldl (insertStub package parseTypeshed d.toFileSystem) ∅ := by
  by_cases hdir : d.isDir dir = true
  · obtain ⟨paths, hpaths, hsorted, hmem⟩ := discoverStubFiles_of_isDir hd hdir
    refine ⟨(dedupAdjacent paths).filter fun p => (d.readToString p).isSome,
      (ascending_dedupAdjacent hsorted).filter _, fun p => ?_, ?_⟩
    · rw [List.mem_filter, mem_dedupAdjacent, hmem, Loadable]
      simp only [and_assoc]
    · rw [dirStubs, hpaths, List.foldl_filter]
      dsimp only
      rw [← foldl_dedupAdjacent (insertStub_insertStub package parseTypeshed d.toFileSystem)]
      congr 1
      funext stubs p
      split
      · rfl
      · rename_i hunread
        unfold insertStub
        rw [Option.not_isSome_iff_eq_none.mp hunread]
        rfl
  · refine ⟨[], List.Pairwise.nil, fun p => ?_, ?_⟩
    · exact ⟨fun h => absurd h List.not_mem_nil, fun h => absurd h.1.1 hdir⟩
    · obtain ⟨e, he⟩ := hd.unlisted dir (Bool.not_eq_true _ ▸ hdir)
      rw [dirStubs, discoverStubFiles, he]
      rfl

/-- Directories whose stub files were not touched give the same stubs. -/
theorem loadStubDirs_congr (hd : d.Lawful) (hd' : d'.Lawful) {dirs : List Path}
    (h : ∀ p, p ∈ stubFiles d.toFileSystem dirs ∨ p ∈ stubFiles d'.toFileSystem dirs →
      Disk.SameAt d d' p) :
    loadStubDirs package parseTypeshed d.toFileSystem dirs =
      loadStubDirs package parseTypeshed d'.toFileSystem dirs := by
  rw [loadStubDirs_eq, loadStubDirs_eq]
  refine List.foldl_ext _ _ _ fun loaded dir hdir => ?_
  obtain ⟨paths, hpaths, hmem, hstubs⟩ := exists_loadable package parseTypeshed hd dir
  obtain ⟨paths', hpaths', hmem', hstubs'⟩ := exists_loadable package parseTypeshed hd' dir
  have heq : paths = paths' := by
    refine hpaths.eq hpaths' fun p => ?_
    rw [hmem, hmem']
    constructor
    · exact fun hload => hload.sameAt hd hd'
        (h p (.inl (mem_stubFiles_of_loadable hd hload hdir)))
    · exact fun hload => hload.sameAt hd' hd
        (h p (.inr (mem_stubFiles_of_loadable hd' hload hdir))).symm
  subst heq
  rw [hstubs, hstubs']
  refine congrArg (· ∪ loaded) (List.foldl_ext _ _ _ fun stubs p hp => ?_)
  have hsame := h p (.inl (mem_stubFiles_of_loadable hd ((hmem p).mp hp) hdir))
  unfold insertStub
  rw [hsame.text]

end Stubs

/-! ## The whole load -/

/-- Inputs that were not touched load as before. -/
theorem Untouched.loadInputs {Pattern Stub : Type} {inv : Invocation Pattern Stub} {d d' : Disk}
    {cfg : Config Pattern} (h : Untouched inv d d' cfg) (hd : d.Lawful) (hd' : d'.Lawful)
    {inputs : Inputs Pattern Stub} (hload : loadInputs inv d = some inputs)
    (hcfg : inputs.cfg = cfg) : loadInputs inv d' = some inputs := by
  unfold Watch.loadInputs at hload ⊢
  rw [← h.loadSettings hd hd']
  obtain ⟨⟨configRoot, loaded, format⟩, hsettings, rfl⟩ := Option.map_eq_some_iff.mp hload
  obtain rfl : loaded = cfg := hcfg
  have hstubs := @loadStubDirs_congr d d' Stub inv.stubPackage inv.parseTypeshed hd hd'
    loaded.typeshed fun p hp => h.same p (hp.elim
      (fun hp => mem_configPaths.mpr (.inr (.inr hp)))
      fun hp => (h.paths p).mpr (mem_configPaths.mpr (.inr (.inr hp))))
  rw [hsettings, Option.map_some]
  dsimp only
  rw [hstubs]

end Ry.Watch
