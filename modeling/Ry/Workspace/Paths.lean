import Mathlib.Data.List.Basic
import Mathlib.Data.List.Infix
import Mathlib.Order.Basic

/-! # Paths and the files they name

A path is a list of components, rooted or relative.  What a program sees of the file system is
a `FileSystem`: `symlinkMetadata` classifies the entry itself, `metadata` what it leads to.  It
is asked about paths in normal form, without `.` and `..`.
`FileSystem.Tree` says what holds of any directory tree whose directories can be read and whose
entries can be classified; links may lead anywhere, also back to a directory above them.
-/

namespace Ry

structure Path where
  /-- Whether the path starts at the root of the file system. -/
  rooted : Bool
  names : List String
  deriving DecidableEq

namespace Path

def join (p : Path) (name : String) : Path := { p with names := p.names ++ [name] }

def parent (p : Path) : Option Path :=
  if p.names = [] then none else some { p with names := p.names.dropLast }

def fileName (p : Path) : Option String := p.names.getLast?

/-- The path itself and the paths above it, longest first. -/
def ancestors (p : Path) : List Path :=
  p.names.inits.reverse.map fun names => { p with names }

/-- The components of `p` below `root`. -/
def stripPrefix (p root : Path) : Option (List String) :=
  if p.rooted = root.rooted ∧ root.names <+: p.names then
    some (p.names.drop root.names.length)
  else none

def isEmpty (p : Path) : Bool := !p.rooted && p.names.isEmpty

/-! ## Paths below a directory -/

def below (dir : Path) (names : List String) : Path := { dir with names := dir.names ++ names }

/-- The paths met on the way down from `dir` along `names`. -/
def steps (dir : Path) : List String → List Path
  | [] => []
  | name :: names => dir.join name :: steps (dir.join name) names

theorem below_nil (dir : Path) : dir.below [] = dir := by
  simp [below]

theorem below_cons (dir : Path) (name : String) (names : List String) :
    dir.below (name :: names) = (dir.join name).below names := by
  simp [below, join]

theorem below_singleton (dir : Path) (name : String) : dir.below [name] = dir.join name := rfl

theorem below_injective {dir : Path} {names names' : List String}
    (h : dir.below names = dir.below names') : names = names' :=
  List.append_cancel_left (congrArg Path.names h)

theorem join_eq_join {dir : Path} {name name' : String} (h : dir.join name = dir.join name') :
    name = name' :=
  List.cons.inj (below_injective h) |>.1

theorem fileName_join (dir : Path) (name : String) : (dir.join name).fileName = some name := by
  simp [fileName, join]

theorem parent_join (dir : Path) (name : String) : (dir.join name).parent = some dir := by
  simp [parent, join]

theorem stripPrefix_below (dir : Path) (names : List String) :
    (dir.below names).stripPrefix dir = some names := by
  simp [stripPrefix, below]

theorem eq_below_of_stripPrefix {p root : Path} {names : List String}
    (h : p.stripPrefix root = some names) : p = root.below names := by
  unfold stripPrefix at h
  split at h
  · rename_i hroot
    obtain ⟨hrooted, rest, hrest⟩ := hroot
    obtain rfl := Option.some.inj h
    obtain ⟨rooted, names⟩ := p
    obtain rfl : rooted = root.rooted := hrooted
    obtain rfl : root.names ++ rest = names := hrest
    simp [below]
  · cases h

theorem ancestors_join (dir : Path) (name : String) :
    (dir.join name).ancestors = dir.join name :: dir.ancestors := by
  simp [ancestors, join, List.inits_append]

theorem ancestors_below (dir : Path) (names : List String) :
    (dir.below names).ancestors = (dir.steps names).reverse ++ dir.ancestors := by
  induction names generalizing dir with
  | nil => simp [below_nil, steps]
  | cons name names ih => simp [below_cons, ih, steps, ancestors_join]

theorem length_names_of_mem_ancestors {p q : Path} (h : q ∈ p.ancestors) :
    q.names.length ≤ p.names.length := by
  obtain ⟨names, hnames, rfl⟩ := List.mem_map.mp h
  exact ((List.mem_inits _ _).mp (List.mem_reverse.mp hnames)).length_le

theorem ancestors_eq_cons (p : Path) : ∃ rest, p.ancestors = p :: rest := by
  obtain ⟨rooted, names⟩ := p
  induction names using List.reverseRecOn with
  | nil => exact ⟨[], rfl⟩
  | append_singleton names name _ => exact ⟨_, ancestors_join ⟨rooted, names⟩ name⟩

theorem length_names_of_mem_steps {dir p : Path} {names : List String} (h : p ∈ dir.steps names) :
    dir.names.length < p.names.length := by
  induction names generalizing dir with
  | nil => cases h
  | cons name names ih =>
    have hjoin : dir.names.length < (dir.join name).names.length := by simp [join]
    rcases List.mem_cons.mp h with rfl | hmem
    · exact hjoin
    · exact hjoin.trans (ih hmem)

end Path

/-- What stands before and after the last dot of a name; a name with nothing before its only
dot has no extension. -/
def rsplitAtDot (name : String) : Option String × Option String :=
  if name = ".." then (some name, none)
  else
    match name.toList.reverse.span (· != '.') with
    | (_, []) => (none, some name)
    | (after, _ :: before) =>
      if before = [] then (some name, none)
      else (some (String.ofList before.reverse), some (String.ofList after.reverse))

def nameExtension (name : String) : Option String :=
  let (before, after) := rsplitAtDot name
  before.bind fun _ => after

def nameStem (name : String) : Option String :=
  let (before, after) := rsplitAtDot name
  before.or after

def Path.extension (p : Path) : Option String := p.fileName.bind nameExtension

/-- The components as text, with one kind of separator. -/
def slashed (names : List String) : String :=
  ("/".intercalate names).map fun c => if c = '\\' then '/' else c

inductive FileType
  | file
  | dir
  | symlink
  | other
  deriving DecidableEq

structure Metadata where
  fileType : FileType
  len : Nat

structure FileSystem where
  symlinkMetadata : Path → Option Metadata
  metadata : Path → Option Metadata
  readDir : Path → Except String (List String)
  readToString : Path → Option String
  absolute : Path → Option Path
  scopedPathIdentity : Path → Option Path

namespace FileSystem

variable (fs : FileSystem)

def isSymlink (p : Path) : Bool := (fs.symlinkMetadata p).any (·.fileType = .symlink)

def isFile (p : Path) : Bool := (fs.metadata p).any (·.fileType = .file)

def isDir (p : Path) : Bool := (fs.metadata p).any (·.fileType = .dir)

/-- The laws of a directory tree whose directories can be read and whose entries can be
classified. -/
structure Tree : Prop where
  /-- A directory lists its entries, and nothing else. -/
  listed : ∀ dir, fs.isDir dir = true →
    ∃ names, fs.readDir dir = .ok names ∧
      ∀ name, name ∈ names ↔ (fs.symlinkMetadata (dir.join name)).isSome = true
  /-- An entry stands in a directory; the directory of a bare relative name has no path. -/
  parent_isDir : ∀ dir name, dir.isEmpty = false →
    (fs.symlinkMetadata (dir.join name)).isSome = true → fs.isDir dir = true
  /-- The path without components names nothing. -/
  empty : ∀ p, p.isEmpty = true → fs.metadata p = none
  /-- What leads somewhere is an entry. -/
  entry : ∀ p, (fs.metadata p).isSome = true → (fs.symlinkMetadata p).isSome = true
  /-- Off symbolic links the two classifications are one. -/
  same : ∀ p, fs.isSymlink p = false → fs.metadata p = fs.symlinkMetadata p

variable {fs}

theorem isSome_of_isDir {p : Path} (h : fs.isDir p = true) : (fs.metadata p).isSome = true := by
  unfold isDir at h
  cases hmeta : fs.metadata p with
  | none => simp [hmeta] at h
  | some m => rfl

theorem Tree.isEmpty_of_isDir (hfs : fs.Tree) {dir : Path} (h : fs.isDir dir = true) :
    dir.isEmpty = false := by
  by_contra hempty
  have hnone := hfs.empty dir (by simpa using hempty)
  rw [isDir, hnone] at h
  cases h

/-- Everything on the way to an entry is a directory. -/
theorem Tree.isDir_below (hfs : fs.Tree) {dir : Path} (hdir : dir.isEmpty = false)
    {names rest : List String} (hrest : rest ≠ [])
    (h : (fs.symlinkMetadata (dir.below (names ++ rest))).isSome = true) :
    fs.isDir (dir.below names) = true := by
  induction rest using List.reverseRecOn with
  | nil => exact absurd rfl hrest
  | append_singleton rest last ih =>
    have hjoin : dir.below (names ++ (rest ++ [last])) = (dir.below (names ++ rest)).join last := by
      simp [Path.below, Path.join]
    have hempty : (dir.below (names ++ rest)).isEmpty = false := by
      simp only [Path.isEmpty, Path.below, Bool.and_eq_false_iff] at hdir ⊢
      refine hdir.imp_right fun hnames => ?_
      cases hdirNames : dir.names with
      | nil => simp [hdirNames] at hnames
      | cons name tail => rfl
    rw [hjoin] at h
    have hparent := hfs.parent_isDir _ last hempty h
    by_cases hnil : rest = []
    · subst hnil
      rwa [List.append_nil] at hparent
    · exact ih hnil (hfs.entry _ (isSome_of_isDir hparent))

end FileSystem

end Ry
