import Ry.Lib.Table
import Ry.Workspace.ReportOptions

/-! # The directives of a NAMESPACE file

`packages.rs`: one pass over the file's top-level calls fills the tables of what a package imports,
exports and registers.  Every other statement is passed over.
-/

namespace Ry

structure NamespaceMetadata where
  /-- Prefixes of native routines, from `.fixes`. -/
  nativeRoutinePrefixes : Finset String
  nativeRoutines : Finset String
  nativeRegistration : Bool
  /-- Libraries with registration enabled, and the prefix of their bindings. -/
  registeredNativeLibraries : List (String × String)
  importedBindings : Finset String
  /-- The package of each imported binding. -/
  importedFrom : Table String String
  importedPackages : Finset String
  exports : Finset String
  /-- Whether a pattern may make names public beyond `exports`. -/
  exportPatterns : Bool
  /-- Generic and class of each registered method. -/
  s3Methods : Finset (String × String)

def staticName : Expr → Option String
  | .ident name _ | .string name _ => some name
  | _ => none

def staticNames (args : List Arg) : List String := args.filterMap fun arg => staticName arg.value

namespace NamespaceMetadata

def default : NamespaceMetadata := ⟨∅, ∅, false, [], ∅, ∅, ∅, ∅, false, ∅⟩

def useDynLib (m : NamespaceMetadata) (args : List Arg) : NamespaceMetadata :=
  let fixes := args.filter fun arg => arg.name == some ".fixes"
  let registered := args.any fun arg =>
    arg.name == some ".registration" &&
      match arg.value with
      | .logical true _ => true
      | _ => false
  let library :=
    if registered then (args.head?.bind fun arg => staticName arg.value) else none
  let start := (fixes.head?.elim (some "") fun arg => staticName arg.value)
  { m with
    nativeRoutinePrefixes :=
      m.nativeRoutinePrefixes ∪ ((staticNames fixes).filter fun text => text ≠ "").toFinset
    nativeRegistration := m.nativeRegistration || registered
    registeredNativeLibraries := m.registeredNativeLibraries ++
      (library.bind fun name => start.map fun text => (name, text)).toList
    nativeRoutines := m.nativeRoutines ∪
      (staticNames (args.tail.filter fun arg => arg.name.isNone)).toFinset }

def bindFrom (package : String) (m : NamespaceMetadata) (binding : String) : NamespaceMetadata :=
  { m with
    importedBindings := insert binding m.importedBindings
    importedFrom := m.importedFrom.insert binding package }

def importFrom (m : NamespaceMetadata) (args : List Arg) : NamespaceMetadata :=
  match args.head?.bind fun arg => staticName arg.value with
  | some package => (staticNames args.tail).foldl (bindFrom package) m
  | none => m

/-- The generic calls dispatch through, of `pkg::generic` too. -/
def bareGeneric (generic : String) : String :=
  match rsplitOnceColons generic.toList with
  | some (_, bare) => String.ofList bare
  | none => generic

def s3Method (m : NamespaceMetadata) (args : List Arg) : NamespaceMetadata :=
  match args.head?.bind fun arg => staticName arg.value,
      args[1]?.bind fun arg => staticName arg.value with
  | some generic, some cls =>
    { m with s3Methods := insert (bareGeneric generic, cls) m.s3Methods }
  | _, _ => m

def directive (m : NamespaceMetadata) (name : String) (args : List Arg) : NamespaceMetadata :=
  match name with
  | "useDynLib" => m.useDynLib args
  | "importFrom" => m.importFrom args
  | "import" => { m with importedPackages := m.importedPackages ∪ (staticNames args).toFinset }
  | "export" => { m with exports := m.exports ∪ (staticNames args).toFinset }
  | "exportPattern" => { m with exportPatterns := true }
  | "S3method" => m.s3Method args
  | _ => m

def statement (m : NamespaceMetadata) : Stmt → NamespaceMetadata
  | .expr (.call (.ident name _) args _) => m.directive name args
  | _ => m

end NamespaceMetadata

/-- The directives relevant to static binding resolution. -/
def namespaceMetadata (stmts : List Stmt) : NamespaceMetadata :=
  stmts.foldl NamespaceMetadata.statement .default

end Ry
