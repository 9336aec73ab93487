import Ry.Workspace.Namespace
import Ry.Syntax.Lower

/-! # R's reading of a NAMESPACE file

R reads a file's directives in order, under `if`, braces and assignments too, and takes the names in
them as it takes any names: unquoted, with the tag of an argument for what is bound.  The tables
are R's reading of the file's top-level directives, where those name things plainly.
-/

namespace Ry.Namespaces

/-- What R notes of a file's directives, in order. -/
inductive Entry
  | exported (name : String)
  | method (generic : String)
  | pattern (regex : String)
  | package (name : String)
  | binding (package name : String)
  | registered (generic cls : String)
deriving DecidableEq

/-- What R's evaluation and deparsing answer while it reads a file. -/
structure Session where
  /-- The name in quotes. -/
  unquote : String → String
  deparse : Cst → String
  /-- The condition of an `if`; `none` when it fails. -/
  condition : Cst → Option Bool

namespace Session

variable (r : Session)

def symbol (text : String) : String := if isQuoted text.toList then r.unquote text else text

/-- The text of an argument; an empty one is an error. -/
def asChar : CstArg → Option String
  | .argument _ (some (.identifier text _)) _ => some (r.symbol text)
  | .argument _ (some (.string value _)) _ => if value = "" then none else some value
  | .argument _ (some value) _ => some (r.deparse value)
  | .argument _ none _ | .omitted _ => none

def tag : CstArg → Option String
  | .argument (some name) _ _ => some (r.symbol name)
  | _ => none

/-- The name a renaming argument gives. -/
def localName (slot : CstArg) : Option String :=
  (r.asChar slot).map fun name => (r.tag slot).getD name

/-- A generic may be written `pkg::generic`. -/
def genericName : CstArg → Option String
  | .argument _ (some (.namespaced _ "::" name _)) _ => some name
  | slot => r.asChar slot

def readCall (name : String) (slots : List CstArg) : Option (List Entry) :=
  match name with
  | "export" => (slots.mapM r.localName).map fun names => names.map .exported
  | "exportMethods" => (slots.mapM r.asChar).map fun names => names.map .method
  | "exportPattern" => (slots.mapM r.asChar).map fun names => names.map .pattern
  | "import" =>
    ((slots.eraseP fun slot => r.tag slot = some "except").mapM r.asChar).map fun names =>
      names.map .package
  | "importFrom" =>
    match slots with
    | [] => none
    | first :: rest =>
      (r.asChar first).bind fun package =>
        (rest.mapM r.localName).map fun names => names.map (.binding package)
  | "S3method" =>
    match slots with
    | generic :: cls :: rest =>
      if rest.length ≤ 1 then
        (r.genericName generic).bind fun generic =>
          (r.asChar cls).bind fun cls =>
            (rest.mapM r.asChar).map fun _ => [.registered generic cls]
      else none
    | _ => none
  | "exportClasses" | "exportClass" | "exportClassPattern" | "importClassFrom"
  | "importClassesFrom" | "importMethodsFrom" => (slots.mapM r.asChar).map fun _ => []
  | "useDynLib" => some []
  | _ => none

mutual
/-- What a directive gives; `none` when R refuses it. -/
def readDirective : Cst → Option (List Entry)
  | .call (.identifier text _) slots _ => r.readCall (r.symbol text) slots
  | .call (.string name _) slots _ => r.readCall name slots
  | .binary operator _ lhs rhs _ =>
    if operator = "<-" ∨ operator = "=" then readDirective rhs
    else if operator = "->" then readDirective lhs
    else none
  | .braced _ body _ => readDirectives body
  | .ifStatement condition consequence alternative _ =>
    (r.condition condition).bind fun holds =>
      if holds then readDirective consequence else readAlternative alternative
  | _ => none
termination_by structural node => node
def readDirectives : List Cst → Option (List Entry)
  | [] => some []
  | node :: nodes =>
    (readDirective node).bind fun entries => (readDirectives nodes).map fun rest => entries ++ rest
termination_by structural nodes => nodes
def readAlternative : Option Cst → Option (List Entry)
  | none => some []
  | some node => readDirective node
termination_by structural node => node
end

end Session

/-- The package a name is bound from: the last one to bind it. -/
def boundFrom (entries : List Entry) (name : String) : Option String :=
  entries.foldl (fun package entry =>
    match entry with
    | .binding source bound => if bound = name then some source else package
    | _ => package) none

/-- The tables hold exactly what R notes. -/
structure Reads (m : NamespaceMetadata) (entries : List Entry) : Prop where
  exports : ∀ name, name ∈ m.exports ↔ .exported name ∈ entries
  patterns : ∀ regex, .pattern regex ∈ entries → m.exportPatterns = true
  bindings : ∀ name, name ∈ m.importedBindings ↔ ∃ package, .binding package name ∈ entries
  packageOf : ∀ name, m.importedFrom.lookup name = boundFrom entries name
  packages : ∀ name, name ∈ m.importedPackages ↔ .package name ∈ entries
  methods : ∀ generic cls, (generic, cls) ∈ m.s3Methods ↔ .registered generic cls ∈ entries

/-! ## Plain names -/

/-- A name the code and R take alike. -/
def plainName : CstArg → Option String
  | .argument none (some (.identifier text _)) _ =>
    if isQuoted text.toList then none else some text
  | .argument none (some (.string value _)) _ => if value = "" then none else some value
  | _ => none

/-- A generic without a package, or `pkg::generic`. -/
def plainGeneric : CstArg → Option String
  | .argument none (some (.namespaced _ "::" name _)) _ =>
    if ':' ∈ name.toList then none else some name
  | slot => (plainName slot).filter fun name => (rsplitOnceColons name.toList).isNone

def plainNames (slots : List CstArg) : List String := slots.filterMap plainName

def AllPlain (slots : List CstArg) : Prop := ∀ slot ∈ slots, (plainName slot).isSome = true

/-- The arguments of a directive name things plainly. -/
def PlainSlots (name : String) : List CstArg → Prop
  | [] => name ≠ "importFrom" ∧ name ≠ "S3method"
  | first :: rest =>
    if name = "S3method" then
      (plainGeneric first).isSome = true ∧ AllPlain rest ∧ (rest.length = 1 ∨ rest.length = 2)
    else AllPlain (first :: rest)

theorem plainName_cases {slot : CstArg} {name : String} (h : plainName slot = some name) :
    (∃ span span', isQuoted name.toList = false ∧
      slot = .argument none (some (.identifier name span)) span') ∨
    ∃ span span', name ≠ "" ∧ slot = .argument none (some (.string name span)) span' := by
  unfold plainName at h
  split at h
  · rename_i text span span'
    split at h
    · cases h
    · rename_i hquoted
      cases h
      exact .inl ⟨span, span', by simpa using hquoted, rfl⟩
  · rename_i value span span'
    split at h
    · cases h
    · rename_i hne
      cases h
      exact .inr ⟨span, span', hne, rfl⟩
  · cases h

section Plain

variable (r : Session)

theorem tag_plain {slot : CstArg} {name : String} (h : plainName slot = some name) :
    r.tag slot = none := by
  obtain ⟨span, span', -, rfl⟩ | ⟨span, span', -, rfl⟩ := plainName_cases h <;> rfl

theorem asChar_plain {slot : CstArg} {name : String} (h : plainName slot = some name) :
    r.asChar slot = some name := by
  obtain ⟨span, span', hquoted, rfl⟩ | ⟨span, span', hne, rfl⟩ := plainName_cases h
  · rw [Session.asChar, Session.symbol, hquoted]
    rfl
  · rw [Session.asChar, if_neg hne]

theorem localName_plain {slot : CstArg} {name : String} (h : plainName slot = some name) :
    r.localName slot = some name := by
  rw [Session.localName, asChar_plain r h, tag_plain r h]
  rfl

theorem staticName_plain {slot : CstArg} {name : String} (h : plainName slot = some name) :
    staticName (lowerArg slot).value = some name := by
  obtain ⟨span, span', -, rfl⟩ | ⟨span, span', -, rfl⟩ := plainName_cases h <;>
    rw [lowerArg, Arg.value, lowerExpr, staticName]

theorem mapM_plain {slots : List CstArg} (h : AllPlain slots) {f : CstArg → Option String}
    (hf : ∀ slot name, plainName slot = some name → f slot = some name) :
    slots.mapM f = some (plainNames slots) := by
  induction slots with
  | nil => rfl
  | cons slot slots ih =>
    obtain ⟨hslot, hrest⟩ := List.forall_mem_cons.mp h
    obtain ⟨name, hname⟩ := Option.isSome_iff_exists.mp hslot
    rw [List.mapM_cons, hf slot name hname, ih hrest, plainNames, plainNames,
      List.filterMap_cons_some hname]
    rfl

theorem staticNames_plain {slots : List CstArg} (h : AllPlain slots) :
    staticNames (lowerArguments slots) = plainNames slots := by
  induction slots with
  | nil =>
    rw [lowerArguments]
    rfl
  | cons slot slots ih =>
    obtain ⟨hslot, hrest⟩ := List.forall_mem_cons.mp h
    obtain ⟨name, hname⟩ := Option.isSome_iff_exists.mp hslot
    have hhead : staticNames (lowerArg slot :: lowerArguments slots) =
        name :: staticNames (lowerArguments slots) :=
      List.filterMap_cons_some (staticName_plain hname)
    rw [lowerArguments, hhead, ih hrest, plainNames, plainNames, List.filterMap_cons_some hname]

theorem eraseP_plain {slots : List CstArg} (h : AllPlain slots) (name : String) :
    (slots.eraseP fun slot => r.tag slot = some name) = slots := by
  refine List.eraseP_of_forall_not fun slot hslot => ?_
  obtain ⟨text, htext⟩ := Option.isSome_iff_exists.mp (h slot hslot)
  simp [tag_plain r htext]

end Plain

/-! ## Tables and entries -/

theorem boundFrom_append_of {entries later : List Entry}
    (h : ∀ entry ∈ later, ∀ package name, entry ≠ .binding package name) (name : String) :
    boundFrom (entries ++ later) name = boundFrom entries name := by
  rw [boundFrom, List.foldl_append, ← boundFrom]
  generalize boundFrom entries name = package
  induction later with
  | nil => rfl
  | cons entry later ih =>
    obtain ⟨hentry, hrest⟩ := List.forall_mem_cons.mp h
    cases entry with
    | binding source bound => exact absurd rfl (hentry source bound)
    | _ => exact ih hrest

theorem reads_default : Reads .default [] := by
  constructor <;> intros <;> simp_all [NamespaceMetadata.default, boundFrom]

namespace Reads

variable {m : NamespaceMetadata} {entries : List Entry}

theorem exported (h : Reads m entries) (names : List String) :
    Reads { m with exports := m.exports ∪ names.toFinset } (entries ++ names.map .exported) := by
  constructor
  · intro name
    simp [h.exports]
  · intro regex hmem
    exact h.patterns regex (by simpa using hmem)
  · intro name
    simp [h.bindings]
  · intro name
    rw [boundFrom_append_of (by simp)]
    exact h.packageOf name
  · intro name
    simp [h.packages]
  · intro generic cls
    simp [h.methods]

theorem pattern (h : Reads m entries) (regexes : List String) :
    Reads { m with exportPatterns := true } (entries ++ regexes.map .pattern) := by
  constructor
  · intro name
    simp [h.exports]
  · exact fun _ _ => rfl
  · intro name
    simp [h.bindings]
  · intro name
    rw [boundFrom_append_of (by simp)]
    exact h.packageOf name
  · intro name
    simp [h.packages]
  · intro generic cls
    simp [h.methods]

theorem package (h : Reads m entries) (names : List String) :
    Reads { m with importedPackages := m.importedPackages ∪ names.toFinset }
      (entries ++ names.map .package) := by
  constructor
  · intro name
    simp [h.exports]
  · intro regex hmem
    exact h.patterns regex (by simpa using hmem)
  · intro name
    simp [h.bindings]
  · intro name
    rw [boundFrom_append_of (by simp)]
    exact h.packageOf name
  · intro name
    simp [h.packages]
  · intro generic cls
    simp [h.methods]

theorem bindFrom (h : Reads m entries) (package name : String) :
    Reads (m.bindFrom package name) (entries ++ [.binding package name]) := by
  constructor
  · intro name
    simp [NamespaceMetadata.bindFrom, h.exports]
  · intro regex hmem
    exact h.patterns regex (by simpa using hmem)
  · intro bound
    simp only [NamespaceMetadata.bindFrom, Finset.mem_insert, h.bindings, List.mem_append,
      List.mem_singleton, Entry.binding.injEq, exists_or]
    constructor
    · rintro (rfl | hbound)
      · exact .inr ⟨package, rfl, rfl⟩
      · exact .inl hbound
    · rintro (hbound | ⟨_, _, rfl⟩)
      · exact .inr hbound
      · exact .inl rfl
  · intro bound
    rw [NamespaceMetadata.bindFrom, Table.lookup_insert, boundFrom, List.foldl_append,
      ← boundFrom, h.packageOf]
    simp only [List.foldl_cons, List.foldl_nil, eq_comm]
  · intro name
    simp [NamespaceMetadata.bindFrom, h.packages]
  · intro generic cls
    simp [NamespaceMetadata.bindFrom, h.methods]

theorem importFrom (h : Reads m entries) (package : String) (names : List String) :
    Reads (names.foldl (NamespaceMetadata.bindFrom package) m)
      (entries ++ names.map (.binding package)) := by
  induction names generalizing m entries with
  | nil => simpa using h
  | cons name names ih =>
    have hrest := ih (h.bindFrom package name)
    rwa [List.append_assoc] at hrest

theorem registered (h : Reads m entries) (generic cls : String) :
    Reads { m with s3Methods := insert (generic, cls) m.s3Methods }
      (entries ++ [.registered generic cls]) := by
  constructor
  · intro name
    simp [h.exports]
  · intro regex hmem
    exact h.patterns regex (by simpa using hmem)
  · intro name
    simp [h.bindings]
  · intro name
    rw [boundFrom_append_of (by simp)]
    exact h.packageOf name
  · intro name
    simp [h.packages]
  · intro generic' cls'
    simp [h.methods, or_comm]

theorem useDynLib (h : Reads m entries) (args : List Arg) : Reads (m.useDynLib args) entries :=
  ⟨h.exports, h.patterns, h.bindings, h.packageOf, h.packages, h.methods⟩

end Reads

/-! ## One directive -/

/-- The directives the pass has a table for. -/
def readNames : List String := ["importFrom", "import", "export", "exportPattern", "S3method"]

/-- A top-level call the pass reads, with its arguments. -/
def topLevel : Cst → Option (String × List CstArg)
  | .call (.identifier name _) slots _ => if name ∈ readNames then some (name, slots) else none
  | _ => none

theorem bareGeneric_plain {slot : CstArg} {generic : String}
    (h : plainGeneric slot = some generic) :
    ∃ written, staticName (lowerArg slot).value = some written ∧
      NamespaceMetadata.bareGeneric written = generic := by
  unfold plainGeneric at h
  split at h
  · rename_i package name span span'
    split at h
    · cases h
    · rename_i hcolon
      cases h
      refine ⟨package ++ "::" ++ generic, by rw [lowerArg, Arg.value, lowerExpr, staticName], ?_⟩
      have hsplit := @rsplitOnceColons_append package.toList generic.toList hcolon
      rw [NamespaceMetadata.bareGeneric, String.toList_append, String.toList_append]
      have htext : "::".toList = [':', ':'] := by decide
      rw [htext, hsplit]
      exact String.ofList_toList
  · obtain ⟨hname, hnone⟩ := Option.filter_eq_some_iff.mp h
    refine ⟨generic, staticName_plain hname, ?_⟩
    rw [NamespaceMetadata.bareGeneric, Option.isNone_iff_eq_none.mp hnone]

theorem genericName_plain (r : Session) {slot : CstArg} {generic : String}
    (h : plainGeneric slot = some generic) : r.genericName slot = some generic := by
  unfold plainGeneric at h
  unfold Session.genericName
  split at h
  · split at h
    · cases h
    · exact h
  · rename_i hother
    obtain ⟨hname, -⟩ := Option.filter_eq_some_iff.mp h
    obtain ⟨span, span', -, rfl⟩ | ⟨span, span', -, rfl⟩ := plainName_cases hname
    · exact asChar_plain r hname
    · exact asChar_plain r hname

theorem readCall_reads (r : Session) {m : NamespaceMetadata} {entries : List Entry}
    (h : Reads m entries) {name : String} {slots : List CstArg} (hname : name ∈ readNames)
    (hplain : PlainSlots name slots) :
    ∃ later, r.readCall name slots = some later ∧
      Reads (m.directive name (lowerArguments slots)) (entries ++ later) := by
  have hall (hne : name ≠ "S3method") : AllPlain slots := by
    cases slots with
    | nil => exact fun slot hslot => absurd hslot List.not_mem_nil
    | cons first rest => simpa [PlainSlots, hne] using hplain
  simp only [readNames, List.mem_cons, List.not_mem_nil, or_false] at hname
  rcases hname with rfl | rfl | rfl | rfl | rfl
  · cases slots with
    | nil => exact absurd rfl hplain.1
    | cons first rest =>
      obtain ⟨hfirst, hrest⟩ := List.forall_mem_cons.mp (hall (by decide))
      obtain ⟨package, hpackage⟩ := Option.isSome_iff_exists.mp hfirst
      refine ⟨(plainNames rest).map (.binding package), ?_, ?_⟩
      · simp only [Session.readCall, asChar_plain r hpackage, Option.bind_some,
          mapM_plain hrest fun _ _ => localName_plain r, Option.map_some]
      · simp only [NamespaceMetadata.directive, NamespaceMetadata.importFrom, lowerArguments,
          List.head?_cons, Option.bind_some, staticName_plain hpackage, List.tail_cons,
          staticNames_plain hrest]
        exact h.importFrom package _
  · have hplain := hall (by decide)
    refine ⟨(plainNames slots).map .package, ?_, ?_⟩
    · simp only [Session.readCall, eraseP_plain r hplain, mapM_plain hplain fun _ _ => asChar_plain r,
        Option.map_some]
    · simp only [NamespaceMetadata.directive, staticNames_plain hplain]
      exact h.package _
  · have hplain := hall (by decide)
    refine ⟨(plainNames slots).map .exported, ?_, ?_⟩
    · simp only [Session.readCall, mapM_plain hplain fun _ _ => localName_plain r, Option.map_some]
    · simp only [NamespaceMetadata.directive, staticNames_plain hplain]
      exact h.exported _
  · have hplain := hall (by decide)
    refine ⟨(plainNames slots).map .pattern, ?_, ?_⟩
    · simp only [Session.readCall, mapM_plain hplain fun _ _ => asChar_plain r, Option.map_some]
    · exact h.pattern _
  · cases slots with
    | nil => exact absurd rfl hplain.2
    | cons first rest =>
      obtain ⟨hgeneric, hrest, hlength⟩ := hplain
      obtain ⟨generic, hgeneric⟩ := Option.isSome_iff_exists.mp hgeneric
      obtain ⟨written, hwritten, hbare⟩ := bareGeneric_plain hgeneric
      cases rest with
      | nil => simp at hlength
      | cons second rest =>
        obtain ⟨hsecond, hrest⟩ := List.forall_mem_cons.mp hrest
        obtain ⟨cls, hcls⟩ := Option.isSome_iff_exists.mp hsecond
        have hshort : rest.length ≤ 1 := by
          rw [List.length_cons] at hlength
          omega
        refine ⟨[.registered generic cls], ?_, ?_⟩
        · simp only [Session.readCall, if_pos hshort, genericName_plain r hgeneric,
            Option.bind_some, asChar_plain r hcls, mapM_plain hrest fun _ _ => asChar_plain r,
            Option.map_some]
        · simp only [NamespaceMetadata.directive, NamespaceMetadata.s3Method, lowerArguments,
            List.head?_cons, Option.bind_some, hwritten, List.getElem?_cons_succ,
            List.getElem?_cons_zero, staticName_plain hcls, hbare]
          exact h.registered generic cls

theorem topLevel_eq_some {node : Cst} {name : String} {slots : List CstArg}
    (h : topLevel node = some (name, slots)) :
    name ∈ readNames ∧ ∃ span span', node = .call (.identifier name span) slots span' := by
  unfold topLevel at h
  split at h
  · split at h
    · cases h
      exact ⟨‹_›, _, _, rfl⟩
    · cases h
  · cases h

theorem topLevel_reads (r : Session) {m : NamespaceMetadata} {entries : List Entry}
    (h : Reads m entries) {node : Cst} {name : String} {slots : List CstArg}
    (hnode : topLevel node = some (name, slots)) (hplain : PlainSlots name slots) :
    ∃ later, r.readDirective node = some later ∧
      Reads (m.statement (lowerStmt node)) (entries ++ later) := by
  obtain ⟨hname, span, span', rfl⟩ := topLevel_eq_some hnode
  have hsymbol : r.symbol name = name := by
    have hopen : ∀ name ∈ readNames, isQuoted name.toList = false := by decide
    rw [Session.symbol, hopen name hname]
    rfl
  obtain ⟨later, hread, hreads⟩ := readCall_reads r h hname hplain
  refine ⟨later, ?_, ?_⟩
  · rw [Session.readDirective, hsymbol, hread]
  · simp only [lowerStmt, lowerExpr, NamespaceMetadata.statement]
    exact hreads

/-- What the pass reads nothing from keeps the tables. -/
theorem other_reads (r : Session) {m : NamespaceMetadata} {entries later : List Entry}
    (h : Reads m entries) {node : Cst} (hnode : topLevel node = none)
    (haccepted : r.readDirective node = some later) :
    Reads (m.statement (lowerStmt node)) entries := by
  unfold Session.readDirective at haccepted
  split at haccepted
  · rename_i text span slots span'
    simp only [lowerStmt, lowerExpr, NamespaceMetadata.statement]
    have hunread : text ∉ readNames := by
      intro hmem
      rw [topLevel, if_pos hmem] at hnode
      cases hnode
    unfold NamespaceMetadata.directive
    split
    · exact h.useDynLib _
    all_goals first | exact h | exact absurd (by decide) hunread
  · simp only [lowerStmt, lowerExpr, NamespaceMetadata.statement]
    exact h
  · rename_i operator span lhs rhs span'
    have hassign : ∃ target value, tryLowerAssign operator lhs.isIdentifier (lowerExpr lhs)
        (lowerExpr rhs) span' = some (.assign target value span') := by
      unfold tryLowerAssign
      split at haccepted
      · rename_i hop
        rcases hop with rfl | rfl <;> exact ⟨_, _, rfl⟩
      · split at haccepted
        · rename_i hop
          subst hop
          exact ⟨_, _, rfl⟩
        · cases haccepted
    obtain ⟨target, value, hassign⟩ := hassign
    simp only [lowerStmt, hassign, NamespaceMetadata.statement]
    exact h
  · simp only [lowerStmt, NamespaceMetadata.statement]
    exact h
  · simp only [lowerStmt, NamespaceMetadata.statement]
    exact h
  · cases haccepted

/-! ## The file -/

/-- Every top-level directive with a table names things plainly. -/
def PlainFile (file : List Cst) : Prop :=
  ∀ node ∈ file, ∀ name slots, topLevel node = some (name, slots) → PlainSlots name slots

theorem foldl_reads (r : Session) {file : List Cst} {all entries : List Entry}
    {m : NamespaceMetadata} (h : Reads m entries) (haccepted : r.readDirectives file = some all)
    (hplain : PlainFile file) :
    ∃ later, r.readDirectives (file.filter fun node => (topLevel node).isSome) = some later ∧
      later.Sublist all ∧
        Reads ((lowerStmts file).foldl NamespaceMetadata.statement m) (entries ++ later) := by
  induction file generalizing m entries all with
  | nil =>
    rw [Session.readDirectives] at haccepted
    refine ⟨[], rfl, List.nil_sublist _, ?_⟩
    rw [lowerStmts, List.append_nil]
    exact h
  | cons node file ih =>
    obtain ⟨hnode, hfile⟩ := List.forall_mem_cons.mp hplain
    rw [Session.readDirectives] at haccepted
    obtain ⟨given, hgiven, happend⟩ := Option.bind_eq_some_iff.mp haccepted
    obtain ⟨rest, hrest, rfl⟩ := Option.map_eq_some_iff.mp happend
    rw [lowerStmts, List.foldl_cons]
    cases htop : topLevel node with
    | none =>
      obtain ⟨later, hlater, hsub, hreads⟩ := ih (other_reads r h htop hgiven) hrest hfile
      refine ⟨later, ?_, hsub.trans (List.sublist_append_right given rest), hreads⟩
      rw [List.filter_cons_of_neg (by simp [htop]), hlater]
    | some call =>
      obtain ⟨name, slots⟩ := call
      obtain ⟨first, hfirst, hreads⟩ := topLevel_reads r h htop (hnode name slots htop)
      obtain rfl : first = given := Option.some.inj (hfirst.symm.trans hgiven)
      obtain ⟨later, hlater, hsub, hreads⟩ := ih hreads hrest hfile
      refine ⟨first ++ later, ?_, hsub.append_left first, ?_⟩
      · rw [List.filter_cons_of_pos (by simp [htop]), Session.readDirectives, hfirst, hlater]
        rfl
      · rwa [List.append_assoc] at hreads

/-- The tables agree with R's reading of the whole file. -/
structure Agrees (m : NamespaceMetadata) (entries : List Entry) : Prop where
  exports : m.exportPatterns = true ∨
    ∀ name, .exported name ∈ entries ∨ .method name ∈ entries → name ∈ m.exports
  bindings : ∀ name, name ∈ m.importedBindings ↔ ∃ package, .binding package name ∈ entries
  packageOf : ∀ name, m.importedFrom.lookup name = boundFrom entries name
  packages : ∀ name, name ∈ m.importedPackages ↔ .package name ∈ entries
  methods : ∀ generic cls, (generic, cls) ∈ m.s3Methods ↔ .registered generic cls ∈ entries

end Ry.Namespaces
