import Ry.Config.Frontends

/-! # What a watched run reads

The files that `ry check --watch` reads besides the sources, and the time stamps it compares:
`stub_files`, `package_meta_paths` and `stamps` of the command, and the stub loader, whose files
are stamped.
-/

namespace Ry.Watch

open Discovery (Glob dedupAdjacent)

/-! ## Time stamps -/

/-- The file system at one moment, with the times of its files. -/
structure Disk extends FileSystem where
  modified : Path → Nat

namespace Disk

/-- A missing path has no time. -/
def mtime (d : Disk) (p : Path) : Option Nat := (d.metadata p).map fun _ => d.modified p

/-- A path was not touched between two moments: its time is the same, and so is all that is read of
it. -/
structure SameAt (d d' : Disk) (p : Path) : Prop where
  stamp : d.mtime p = d'.mtime p
  fileType : (d.metadata p).map (·.fileType) = (d'.metadata p).map (·.fileType)
  text : d.readToString p = d'.readToString p
  /-- The directory of a file that is there is still the same. -/
  identity : (d.metadata p).isSome = true → ∀ dir, p.parent = some dir →
    d.scopedPathIdentity dir = d'.scopedPathIdentity dir

/-- What holds of every file system that a run meets. -/
structure Lawful (d : Disk) : Prop where
  tree : d.toFileSystem.Tree
  /-- Only a directory can be listed. -/
  unlisted : ∀ p, d.isDir p = false → ∃ e, d.readDir p = .error e
  absolute : ∀ p, p.rooted = true → d.absolute p = some p
  top : d.isFile ⟨true, []⟩ = false
  /-- What can be read is there. -/
  present : ∀ p, (d.readToString p).isSome = true → (d.metadata p).isSome = true

variable {d d' d'' : Disk} {p : Path}

theorem SameAt.refl (d : Disk) (p : Path) : SameAt d d p := ⟨rfl, rfl, rfl, fun _ _ _ => rfl⟩

theorem SameAt.isSome (h : SameAt d d' p) :
    (d.metadata p).isSome = (d'.metadata p).isSome := by
  have hmap := congrArg Option.isSome h.fileType
  rwa [Option.isSome_map, Option.isSome_map] at hmap

theorem SameAt.symm (h : SameAt d d' p) : SameAt d' d p where
  stamp := h.stamp.symm
  fileType := h.fileType.symm
  text := h.text.symm
  identity := fun hsome dir hdir => (h.identity (h.isSome.trans hsome) dir hdir).symm

theorem SameAt.trans (h : SameAt d d' p) (h' : SameAt d' d'' p) : SameAt d d'' p where
  stamp := h.stamp.trans h'.stamp
  fileType := h.fileType.trans h'.fileType
  text := h.text.trans h'.text
  identity := fun hsome dir hdir =>
    (h.identity hsome dir hdir).trans (h'.identity (h.isSome ▸ hsome) dir hdir)

theorem SameAt.isFile (h : SameAt d d' p) : d.isFile p = d'.isFile p := by
  have htype : ∀ d : Disk, d.isFile p = ((d.metadata p).map (·.fileType)).any (· = .file) :=
    fun d => by
      unfold FileSystem.isFile
      cases d.metadata p <;> rfl
  rw [htype, htype, h.fileType]

theorem isSome_mtime (d : Disk) (p : Path) : (d.mtime p).isSome = (d.metadata p).isSome :=
  Option.isSome_map

end Disk

/-- Pairs sorted by path; creating or deleting a file changes its pair. -/
def stamps (d : Disk) (paths : List Path) : List (Path × Option Nat) :=
  (dedupAdjacent (paths.mergeSort Discovery.Path.le)).map fun p => (p, d.mtime p)

theorem mem_stamps {d : Disk} {paths : List Path} {p : Path} {m : Option Nat} :
    (p, m) ∈ stamps d paths ↔ p ∈ paths ∧ m = d.mtime p := by
  rw [stamps, List.mem_map]
  constructor
  · rintro ⟨q, hq, heq⟩
    obtain ⟨rfl, rfl⟩ := Prod.mk.inj heq
    exact ⟨List.mem_mergeSort.mp (Discovery.mem_dedupAdjacent.mp hq), rfl⟩
  · rintro ⟨hp, rfl⟩
    exact ⟨p, Discovery.mem_dedupAdjacent.mpr (List.mem_mergeSort.mpr hp), rfl⟩

/-- Equal stamps are of the same paths at the same times. -/
theorem stamps_agree {d d' : Disk} {paths paths' : List Path}
    (h : stamps d paths = stamps d' paths') :
    (∀ p, p ∈ paths ↔ p ∈ paths') ∧ ∀ p ∈ paths, d.mtime p = d'.mtime p := by
  have hpair : ∀ p ∈ paths, p ∈ paths' ∧ d.mtime p = d'.mtime p := fun p hp =>
    mem_stamps.mp (h ▸ mem_stamps.mpr ⟨hp, rfl⟩)
  refine ⟨fun p => ⟨fun hp => (hpair p hp).1, fun hp => ?_⟩, fun p hp => (hpair p hp).2⟩
  have hmem : (p, d'.mtime p) ∈ stamps d paths := h ▸ mem_stamps.mpr ⟨hp, rfl⟩
  exact (mem_stamps.mp hmem).1

/-! ## Stub files -/

/-- The files that the loader may read: those of each directory and of the directories in it.  A
directory that cannot be read stands in for its files. -/
def stubFiles (d : FileSystem) (dirs : List Path) : List Path :=
  dirs.flatMap fun dir =>
    match d.readDir dir with
    | .error _ => [dir]
    | .ok names => (names.map dir.join).flatMap fun path =>
      if d.isDir path then
        match d.readDir path with
        | .ok nested => (nested.map path.join).filter fun path => !d.isDir path
        | .error _ => []
      else [path]

section Stubs

variable {Stub : Type} (package : Stub → Option String) (parseTypeshed : String → Option Stub)

/-- `discover_stub_files`; the directories wait on a stack. -/
def discoverStubFiles (d : FileSystem) (dir : Path) : Except String (List Path) := do
  let names ← d.readDir dir
  let entries := names.map dir.join
  let nested ← (entries.filter d.isDir).reverse.mapM fun inner =>
    (d.readDir inner).map fun names => names.map inner.join
  return ((entries ++ nested.flatten).filter fun path =>
    !d.isDir path && path.extension == some "json").mergeSort Discovery.Path.le

/-- A file that cannot be read or parsed is skipped. -/
def insertStub (d : FileSystem) (stubs : Table String Stub) (path : Path) : Table String Stub :=
  match (d.readToString path).bind parseTypeshed with
  | none => stubs
  | some stub =>
    match (package stub).or (path.fileName.bind nameStem) with
    | some name => stubs.insert name stub
    | none => stubs

/-- Later directories replace packages of earlier ones. -/
def loadStubDirs (d : FileSystem) (dirs : List Path) : Table String Stub :=
  dirs.foldl (fun loaded dir =>
    match discoverStubFiles d dir with
    | .ok paths => paths.foldl (insertStub package parseTypeshed d) ∅ ∪ loaded
    | .error _ => loaded) ∅

end Stubs

/-! ## Package metadata -/

/-- From the working directory; `.` and `..` fold lexically, since the path may not exist. -/
def absolutize (here path : Path) : Path :=
  let joined := here.joinPath path
  { joined with
    names := joined.names.foldl (fun names name =>
      if name = "." then names else if name = ".." then names.dropLast else names ++ [name]) [] }

/-- One chain: up to the first directory that an earlier chain has, that has a `DESCRIPTION`, or
that is the configuration's. -/
def walkUp (d : FileSystem) (anchor : Option Path) : List Path → List Path → List Path
  | [], seen => seen
  | dir :: above, seen =>
    if seen.contains dir then seen
    else if d.isFile (dir.join "DESCRIPTION") || anchor == some dir then seen ++ [dir]
    else walkUp d anchor above (seen ++ [dir])

/-- Where the chains start: at the roots and at the directories of the files. -/
def chainStarts (d : FileSystem) (roots discovered : List Path) : List Path :=
  (roots.map fun root => if d.isFile root then root.parent.getD ⟨false, []⟩ else root) ++
    discovered.filterMap (·.parent)

def metadataDirs (d : FileSystem) (here : Path) (roots discovered : List Path)
    (anchor : Option Path) : List Path :=
  (chainStarts d roots discovered).foldl (fun seen start =>
    walkUp d (anchor.map (absolutize here)) (absolutize here start).ancestors seen) []

def metadataNames : List String := ["DESCRIPTION", "NAMESPACE"]

def packageMetaPaths (d : FileSystem) (here : Path) (roots discovered : List Path)
    (anchor : Option Path) : List Path :=
  ((metadataDirs d here roots discovered anchor).flatMap fun dir =>
    metadataNames.map dir.join).mergeSort Discovery.Path.le

theorem fileName_of_mem_packageMetaPaths {d : FileSystem} {here : Path}
    {roots discovered : List Path} {anchor : Option Path} {p : Path}
    (h : p ∈ packageMetaPaths d here roots discovered anchor) :
    ∃ name ∈ metadataNames, p.fileName = some name := by
  obtain ⟨dir, -, hp⟩ := List.mem_flatMap.mp (List.mem_mergeSort.mp h)
  obtain ⟨name, hname, rfl⟩ := List.mem_map.mp hp
  exact ⟨name, hname, Path.fileName_join dir name⟩

end Ry.Watch
