import Ry.Declared.ReadRecords
import Ry.Declared.Selected
import Mathlib.Data.String.Basic

/-! # Contracts from comments

`adopted_records` of `frontend.rs` reads the files of a project, and `DeclarationSet` of
`declaration_check.rs` decides for every target which contract its records select.  A selected
contract holds exactly what the comments of its function claim.
-/

namespace Ry.Typehint

open Declared Lexical

/-! ## Adoption -/

section Adoption

variable {Pattern : Type} (json : JsonStrings) (fs : FileSystem) (glob : Discovery.Glob Pattern)
  (unambiguous : Path → String → Bool) (displayPath : String → Path)

/-- The display paths in `ambiguous` have lost contracts; each is reported once. -/
structure AdoptedRecords where
  records : List SourcedRecord
  ambiguous : List String

/-- The native path of a file that its display path names alone. -/
def adoptedPath (files : List SourceFile) (file : SourceFile) : Option Path :=
  file.nativePath.filter fun native =>
    files.countP (fun other => other.path = file.path) = 1 && unambiguous native file.path

/-- Whether a contract is in scope under the native or the display path. -/
def losesContract (scope : Discovery.ScopedPaths Pattern) (file : SourceFile) : Option Bool :=
  (readRecordsAt json fs glob file (file.nativePath.getD (displayPath file.path)) scope).bind
    fun first =>
      if !first.isEmpty then some true
      else (readRecordsAt json fs glob file (displayPath file.path) scope).map fun second =>
        !second.isEmpty

/-- The loop over the files. -/
def adoptFiles (scope : Discovery.ScopedPaths Pattern) (all : List SourceFile) :
    List SourceFile → AdoptedRecords → Option AdoptedRecords
  | [], result => some result
  | file :: files, result =>
    match adoptedPath unambiguous all file with
    | some native =>
      (readRecordsAt json fs glob file native scope).bind fun records =>
        adoptFiles scope all files { result with records := result.records ++ records }
    | none =>
      (losesContract json fs glob displayPath scope file).bind fun lost =>
        adoptFiles scope all files
          (if lost ∧ file.path ∉ result.ambiguous then
            { result with ambiguous := result.ambiguous.orderedInsert (· ≤ ·) file.path }
          else result)

/-- `none` for a scope that is not adopted: the reader does nothing. -/
def adoptedRecords (files : List SourceFile) :
    Option (Discovery.ScopedPaths Pattern) → Option AdoptedRecords
  | none => some ⟨[], []⟩
  | some scope => adoptFiles json fs glob unambiguous displayPath scope files files ⟨[], []⟩

end Adoption

/-! ## Targets -/

abbrev TargetKey := String ×ₗ Key

def targetKey (path : String) (span : Span) : TargetKey := toLex (path, functionKey span)

def SourcedRecord.key (record : SourcedRecord) : TargetKey :=
  targetKey record.source.target.path record.source.target.definition

def SourcedRecord.toRecord (record : SourcedRecord) : DeclarationRecord :=
  ⟨record.source.provider, record.translation, record.evidence⟩

structure DeclarationSet where
  records : List SourcedRecord
  targets : List (TargetKey × TargetDecision)
  hasContracts : Bool

def decideGroup (json : JsonStrings) (group : TargetKey × List SourcedRecord) :
    Option (TargetKey × TargetDecision) :=
  group.2.head?.bind fun first =>
    (decideTarget json first.source.target.definition (group.2.map SourcedRecord.toRecord)).map
      fun decision => (group.1, decision)

def DeclarationSet.new (json : JsonStrings) (records : List SourcedRecord) :
    Option DeclarationSet :=
  ((grouped (fun records record => records ++ [record])
    (records.map fun record => (record.key, record))).mapM (decideGroup json)).map fun targets =>
      ⟨records, targets, targets.any fun target => target.2.signature.isSome⟩

def DeclarationSet.target (set : DeclarationSet) (path : String) (span : Span) :
    Option TargetDecision :=
  (set.targets.find? fun target => target.1 = targetKey path span).map (·.2)

/-! ## What a selected contract holds -/

theorem normalizedParameters_of_exactClass {json : JsonStrings}
    {parameters normal : List DeclaredParameter}
    (h : normalizedParameters json parameters = .ok normal)
    (hclass : ∀ parameter ∈ parameters, ∃ name,
      parameter.constraint = some (.exactClass name)) : normal = parameters := by
  induction parameters generalizing normal with
  | nil => exact (Except.ok.inj h).symm
  | cons parameter parameters ih =>
    obtain ⟨⟨name, hname⟩, hrest⟩ := List.forall_mem_cons.mp hclass
    rw [normalizedParameters, hname, normalizedConstraint, normalizedType, Except.map] at h
    dsimp only at h
    cases hnormal : normalizedParameters json parameters with
    | error e =>
      rw [hnormal] at h
      cases h
    | ok normal' =>
      rw [hnormal] at h
      rw [← Except.ok.inj h, ih hnormal hrest, ← hname]

/-- The contract of a signature of classes has its parameters. -/
theorem normalized_parameters {json : JsonStrings} {signature contract : DeclaredSignature}
    (h : signature.normalized json = .ok contract)
    (hclass : ∀ parameter ∈ signature.parameters, ∃ name,
      parameter.constraint = some (.exactClass name)) :
    contract.parameters = signature.parameters := by
  rw [DeclaredSignature.normalized] at h
  split at h
  · cases h
  · split at h
    · cases h
    next parameters hparameters =>
      split at h
      · cases h
      · rw [← Except.ok.inj h]
        exact normalizedParameters_of_exactClass hparameters hclass

/-- An adopted record of a selecting target is exact, and selects. -/
theorem exact_of_selects {json : JsonStrings} {records : List SourcedRecord}
    {contract : DeclaredSignature} (h : Selects json (records.map SourcedRecord.toRecord) contract)
    {record : SourcedRecord} (hrecord : record ∈ records)
    (hadopted : record.evidence = .adoptedContract) :
    ∃ signature, record.translation = .exact signature ∧
      signature.normalized json = .ok contract := by
  obtain ⟨hsilent, text, -, hall⟩ := h
  have hmem : record.toRecord ∈ records.map SourcedRecord.toRecord := List.mem_map_of_mem hrecord
  cases houtcome : recordOutcome json record.toRecord with
  | skipped => exact absurd hadopted (not_adopted_of_skipped houtcome)
  | reported kind message => exact absurd houtcome (hsilent _ hmem kind message)
  | exact canonical signature =>
    exact ⟨signature, (selectable_of_outcome houtcome).exact, (hall _ hmem _ _ houtcome).2⟩

theorem Holds.class_of_parameter {clauses : List Clause} {parameters : List DeclaredParameter}
    {residuals : List ResidualConstraint} (h : Holds clauses parameters residuals) :
    ∀ parameter ∈ parameters, ∃ name, parameter.constraint = some (.exactClass name) := by
  intro parameter hparameter
  obtain ⟨-, name, -, -, hconstraint⟩ := h.declared parameter hparameter
  exact ⟨name, hconstraint⟩

theorem exists_of_forall₂_left {A B : Type} {R : A → B → Prop} {as : List A} {bs : List B}
    (h : List.Forall₂ R as bs) {a : A} (ha : a ∈ as) : ∃ b ∈ bs, R a b := by
  induction h with
  | nil => exact absurd ha List.not_mem_nil
  | cons hab _ ih =>
    rcases List.mem_cons.mp ha with rfl | ha
    · exact ⟨_, List.mem_cons_self, hab⟩
    · obtain ⟨b, hb, hr⟩ := ih ha
      exact ⟨b, List.mem_cons_of_mem _ hb, hr⟩

/-- Clauses that disagree cannot make records that select one contract. -/
theorem agree_of_selects {json : JsonStrings} {clauses : List Clause}
    {records : List SourcedRecord} {contract : DeclaredSignature}
    (hread : List.Forall₂ (fun clause record =>
      record.source.span = clause.span ∧ Represents [clause] record.translation) clauses records)
    (hadopted : ∀ record ∈ records, record.evidence = .adoptedContract)
    (h : Selects json (records.map SourcedRecord.toRecord) contract) : ¬ Conflicting clauses := by
  -- every clause is a class without a residual, and it is the only one in the contract
  have hclause : ∀ clause ∈ clauses, ∃ span argument name,
      clause = .claim span argument (some name) none ∧
        (∃ p ∈ contract.parameters, p.name = argument) ∧
        ∀ p ∈ contract.parameters, p.constraint = some (.exactClass name) := by
    intro clause hmem
    obtain ⟨record, hrecord, -, hrepresents⟩ := exists_of_forall₂_left hread hmem
    obtain ⟨signature, htranslation, hnormal⟩ := exact_of_selects h hrecord (hadopted _ hrecord)
    rw [htranslation] at hrepresents
    have hparameters := normalized_parameters hnormal hrepresents.class_of_parameter
    obtain ⟨span, argument, cls, residual, rfl, hsome, hcls, hresidual⟩ :=
      hrepresents.kept clause List.mem_cons_self
    have hnone : residual = none := by
      cases residual with
      | none => rfl
      | some rest => exact absurd (hresidual rest rfl) List.not_mem_nil
    subst hnone
    obtain ⟨name, rfl⟩ := Option.ne_none_iff_exists'.mp (hsome.resolve_right fun hne => hne rfl)
    rw [hparameters]
    obtain ⟨p, hp, hname, -⟩ := hcls name rfl
    refine ⟨span, argument, name, rfl, ⟨p, hp, hname⟩, fun p hp => ?_⟩
    obtain ⟨span', name', residual', hdeclares, hconstraint⟩ := hrepresents.declared p hp
    obtain ⟨-, -, heq, -⟩ := Clause.claim.inj (List.mem_singleton.mp hdeclares)
    rw [hconstraint, Option.some.inj heq]
  rintro ⟨argument, claim, claim', hne, ⟨c, hc, hclaim⟩, d, hd, hclaim'⟩
  obtain ⟨_, _, name, rfl, ⟨p, hp, -⟩, hall⟩ := hclause c hc
  obtain ⟨_, _, name', rfl, -, hall'⟩ := hclause d hd
  have hsame := (hall p hp).symm.trans (hall' p hp)
  injection hsame with hsame
  injection hsame with hsame
  subst hsame
  obtain ⟨-, rfl⟩ := Prod.mk.inj (Option.some.inj hclaim)
  obtain ⟨-, rfl⟩ := Prod.mk.inj (Option.some.inj hclaim')
  exact hne rfl

/-- A function whose records select a contract has clauses that the contract holds. -/
theorem FunctionRead.holds {json : JsonStrings} {clauses : List Clause}
    {records : List SourcedRecord} {contract : DeclaredSignature} (hread : FunctionRead clauses records)
    (hne : records ≠ []) (hadopted : ∀ record ∈ records, record.evidence = .adoptedContract)
    (h : Selects json (records.map SourcedRecord.toRecord) contract) :
    clauses ≠ [] ∧ ¬ OverBudget clauses ∧ Holds clauses contract.parameters [] := by
  have hclauses : clauses ≠ [] := fun hnil => hne (hread.silent hnil)
  have hbudget : ¬ OverBudget clauses := by
    intro hover
    obtain ⟨record, reason, rfl, hreason⟩ := hread.refused hclauses hover
    obtain ⟨signature, htranslation, -⟩ :=
      exact_of_selects h List.mem_cons_self (hadopted _ List.mem_cons_self)
    rw [hreason] at htranslation
    cases htranslation
  have hagree : ¬ Conflicting clauses := fun hconflict =>
    agree_of_selects (hread.apart hbudget hconflict) hadopted h hconflict
  obtain ⟨record, rfl, hrepresents⟩ := hread.together hclauses hbudget hagree
  obtain ⟨signature, htranslation, hnormal⟩ :=
    exact_of_selects h List.mem_cons_self (hadopted _ List.mem_cons_self)
  rw [htranslation] at hrepresents
  rw [normalized_parameters hnormal hrepresents.class_of_parameter]
  exact ⟨hclauses, hbudget, hrepresents⟩

/-! ## The decision of a target -/

theorem exists_mapM {A B : Type} {f : A → Option B} {as : List A} (h : ∀ a ∈ as, ∃ b, f a = some b) :
    ∃ bs, as.mapM f = some bs ∧ ∀ b ∈ bs, ∃ a ∈ as, f a = some b := by
  induction as with
  | nil => exact ⟨[], rfl, fun _ hmem => absurd hmem List.not_mem_nil⟩
  | cons a as ih =>
    obtain ⟨⟨b, hb⟩, hrest⟩ := List.forall_mem_cons.mp h
    obtain ⟨bs, hbs, hmem⟩ := ih hrest
    refine ⟨b :: bs, by rw [List.mapM_cons, hb, hbs]; rfl, List.forall_mem_cons.mpr
      ⟨⟨a, List.mem_cons_self, hb⟩, fun b hb => ?_⟩⟩
    obtain ⟨a, ha, hfa⟩ := hmem b hb
    exact ⟨a, List.mem_cons_of_mem _ ha, hfa⟩

/-- A target's decision is made from the records that are its own. -/
theorem declarationSet_spec (json : JsonStrings) (records : List SourcedRecord) :
    ∃ set, DeclarationSet.new json records = some set ∧ ∀ path span decision,
      set.target path span = some decision →
        ∃ definition, records.filter (fun record => record.key = targetKey path span) ≠ [] ∧
          decideTarget json definition ((records.filter fun record =>
            record.key = targetKey path span).map SourcedRecord.toRecord) = some decision := by
  have hmem : ∀ group ∈ grouped (fun records record => records ++ [record])
      (records.map fun record => (record.key, record)),
      records.filter (fun record => record.key = group.1) ≠ [] ∧
        group.2 = records.filter fun record => record.key = group.1 := by
    rintro ⟨key, own⟩ hgroup
    rw [mem_grouped, valuesOf_map, foldl_push] at hgroup
    exact hgroup
  have hdecide : ∀ group ∈ grouped (fun records record => records ++ [record])
      (records.map fun record => (record.key, record)), ∃ definition decision,
      decideTarget json definition (group.2.map SourcedRecord.toRecord) = some decision ∧
        decideGroup json group = some (group.1, decision) := by
    intro group hgroup
    obtain ⟨hne, hown⟩ := hmem group hgroup
    rw [← hown] at hne
    obtain ⟨decision, hdecision, -⟩ := @decideTarget_spec json
      (group.2.head hne).source.target.definition (group.2.map SourcedRecord.toRecord)
    refine ⟨_, decision, hdecision, ?_⟩
    rw [decideGroup, List.head?_eq_some_head hne, Option.bind_some, hdecision]
    rfl
  obtain ⟨targets, htargets, hfrom⟩ := exists_mapM fun group hgroup => by
    obtain ⟨-, decision, -, hgroup⟩ := hdecide group hgroup
    exact ⟨_, hgroup⟩
  refine ⟨_, by rw [DeclarationSet.new, htargets]; rfl, fun path span decision htarget => ?_⟩
  obtain ⟨target, hfind, rfl⟩ := Option.map_eq_some_iff.mp htarget
  have hkey : target.1 = targetKey path span := of_decide_eq_true (List.find?_some hfind :)
  obtain ⟨group, hgroup, htarget⟩ := hfrom target (List.mem_of_find?_eq_some hfind)
  obtain ⟨definition, decision, hdecision, hdecided⟩ := hdecide group hgroup
  obtain rfl := Option.some.inj (hdecided.symm.trans htarget)
  obtain ⟨hne, hown⟩ := hmem group hgroup
  have hkey : group.1 = targetKey path span := hkey
  rw [hkey] at hne hown
  rw [hown] at hdecision
  exact ⟨definition, hne, hdecision⟩

/-! ## The files of a project -/

section Files

variable {Pattern : Type} (json : JsonStrings) (fs : FileSystem) (glob : Discovery.Glob Pattern)
  (unambiguous : Path → String → Bool) (displayPath : String → Path)
  (scope : Discovery.ScopedPaths Pattern)

/-- The records that a file adds. -/
def fileRecords (all : List SourceFile) (file : SourceFile) : List SourcedRecord :=
  match adoptedPath unambiguous all file with
  | some native => (readRecordsAt json fs glob file native scope).getD []
  | none => []

/-- The file is not adopted, and has contracts. -/
def LosesContracts (all : List SourceFile) (file : SourceFile) : Prop :=
  adoptedPath unambiguous all file = none ∧
    ∃ path ∈ [file.nativePath.getD (displayPath file.path), displayPath file.path],
      ∃ records, readRecordsAt json fs glob file path scope = some records ∧ records ≠ []

theorem losesContract_spec (file : ParsedFile) : ∃ lost,
    losesContract json fs glob displayPath scope file.toSourceFile = some lost ∧
      (lost = true ↔ ∃ path ∈ [file.nativePath.getD (displayPath file.path), displayPath file.path],
        ∃ records, readRecordsAt json fs glob file.toSourceFile path scope = some records ∧
          records ≠ []) := by
  obtain ⟨first, hfirst, -⟩ := readRecordsAt_spec json fs glob file
    (file.nativePath.getD (displayPath file.path)) scope
  obtain ⟨second, hsecond, -⟩ := readRecordsAt_spec json fs glob file (displayPath file.path) scope
  simp only [List.exists_mem_cons_iff, List.not_mem_nil, false_and, exists_false, or_false, hfirst,
    hsecond, Option.some.injEq, exists_eq_left']
  rw [losesContract, hfirst, Option.bind_some, hsecond]
  by_cases hnil : first = []
  · subst hnil
    refine ⟨!second.isEmpty, rfl, ?_⟩
    simp
  · refine ⟨true, by rw [if_pos (by simpa using hnil)], ?_⟩
    simp [hnil]

/-- The loop: the records of the files one after the other, and every path that loses some. -/
theorem adoptFiles_spec (all : List SourceFile) (files : List ParsedFile) (result : AdoptedRecords) :
    ∃ adopted, adoptFiles json fs glob unambiguous displayPath scope all
        (files.map (·.toSourceFile)) result = some adopted ∧
      adopted.records = result.records ++
        files.flatMap (fun file => fileRecords json fs glob unambiguous scope all file.toSourceFile) ∧
      ∀ path, path ∈ adopted.ambiguous ↔ path ∈ result.ambiguous ∨ ∃ file ∈ files,
        file.path = path ∧
          LosesContracts json fs glob unambiguous displayPath scope all file.toSourceFile := by
  induction files generalizing result with
  | nil => exact ⟨result, rfl, (List.append_nil _).symm, fun path => by simp⟩
  | cons file files ih =>
    rw [List.map_cons, adoptFiles]
    cases hadopted : adoptedPath unambiguous all file.toSourceFile with
    | some native =>
      obtain ⟨records, hrecords, -⟩ := readRecordsAt_spec json fs glob file native scope
      obtain ⟨adopted, hfiles, hall, hlost⟩ :=
        ih { result with records := result.records ++ records }
      dsimp only
      rw [hrecords, Option.bind_some]
      refine ⟨adopted, hfiles, ?_, fun path => ?_⟩
      · rw [hall, List.flatMap_cons, fileRecords, hadopted]
        dsimp only
        rw [hrecords, Option.getD_some, List.append_assoc]
      · rw [hlost, List.exists_mem_cons_iff]
        refine or_congr_right (or_iff_right ?_).symm
        rintro ⟨-, hnone, -⟩
        rw [hadopted] at hnone
        cases hnone
    | none =>
      obtain ⟨lost, hlost, hiff⟩ := losesContract_spec json fs glob displayPath scope file
      dsimp only
      rw [hlost, Option.bind_some]
      obtain ⟨adopted, hfiles, hall, hambiguous⟩ := ih (if lost = true ∧
          file.path ∉ result.ambiguous then
        { result with ambiguous := result.ambiguous.orderedInsert (· ≤ ·) file.path } else result)
      refine ⟨adopted, hfiles, ?_, fun path => ?_⟩
      · rw [hall, List.flatMap_cons, fileRecords, hadopted, List.nil_append]
        split <;> rfl
      · have hself : file.path = path ∧
            LosesContracts json fs glob unambiguous displayPath scope all file.toSourceFile ↔
              lost = true ∧ path = file.path := by
          rw [LosesContracts, hiff]
          exact ⟨fun h => ⟨h.2.2, h.1.symm⟩, fun h => ⟨h.2.symm, hadopted, h.1⟩⟩
        rw [hambiguous, List.exists_mem_cons_iff, hself, ← or_assoc]
        refine or_congr_left ?_
        split
        next hnew =>
          rw [List.mem_orderedInsert, or_comm]
          exact or_congr_right ⟨fun heq => ⟨hnew.1, heq⟩, And.right⟩
        next hold =>
          refine (or_iff_left_of_imp ?_).symm
          rintro ⟨hlost, rfl⟩
          exact not_not.mp fun hmem => hold ⟨hlost, hmem⟩

/-- What is adopted of a file is what the reader reads of it, under the file's own path. -/
theorem fileRecords_spec (all : List SourceFile) {file : ParsedFile} {record : SourcedRecord}
    (h : record ∈ fileRecords json fs glob unambiguous scope all file.toSourceFile) :
    ∃ native, adoptedPath unambiguous all file.toSourceFile = some native ∧
      scope.matches fs glob native = true ∧ file.rejectedByR = false ∧
      FileRead file true (fileRecords json fs glob unambiguous scope all file.toSourceFile) := by
  rw [fileRecords] at h ⊢
  cases hadopted : adoptedPath unambiguous all file.toSourceFile with
  | none =>
    rw [hadopted] at h
    exact absurd h List.not_mem_nil
  | some native =>
    obtain ⟨records, hrecords, hread⟩ := readRecordsAt_spec json fs glob file native scope
    rw [hadopted] at h
    dsimp only at h ⊢
    rw [hrecords, Option.getD_some] at h ⊢
    have hne : ¬ (scope.matches fs glob native = false ∨ file.rejectedByR = true) := by
      intro hdeclined
      rw [hread.declined hdeclined] at h
      exact List.not_mem_nil h
    rw [not_or, Bool.not_eq_false, Bool.not_eq_true] at hne
    rw [hne.1] at hread
    exact ⟨native, rfl, hne.1, hne.2, hread⟩

theorem countP_of_adoptedPath {all : List SourceFile} {file : SourceFile} {native : Path}
    (h : adoptedPath unambiguous all file = some native) :
    all.countP (fun other => other.path = file.path) = 1 := by
  obtain ⟨-, hkeep⟩ := Option.filter_eq_some_iff.mp h
  rw [Bool.and_eq_true] at hkeep
  exact of_decide_eq_true hkeep.1

/-- A file whose path no other has stands alone. -/
theorem split_of_countP {A : Type} {p : A → Bool} {as : List A} (h : as.countP p = 1) {a : A}
    (ha : a ∈ as) (hp : p a = true) :
    ∃ before after, as = before ++ a :: after ∧ ∀ b ∈ before ++ after, p b = false := by
  obtain ⟨before, after, rfl⟩ := List.append_of_mem ha
  rw [List.countP_append, List.countP_cons, if_pos hp] at h
  have hnone : (before ++ after).countP p = 0 := by
    rw [List.countP_append]
    omega
  exact ⟨before, after, rfl, fun b hb => by
    simpa using (List.countP_eq_zero.mp hnone) b hb⟩

/-- The records of a target of an adopted file are those that the file has for it. -/
theorem records_of_target {files : List ParsedFile} {file : ParsedFile} (hfile : file ∈ files)
    (hone : (files.map (·.toSourceFile)).countP (fun other => other.path = file.path) = 1)
    (hpath : ∀ other ∈ files, ∀ record ∈ fileRecords json fs glob unambiguous scope
      (files.map (·.toSourceFile)) other.toSourceFile, record.source.target.path = other.path)
    (span : Span) :
    (files.flatMap fun file => fileRecords json fs glob unambiguous scope
        (files.map (·.toSourceFile)) file.toSourceFile).filter
          (fun record => record.key = targetKey file.path span) =
      (fileRecords json fs glob unambiguous scope (files.map (·.toSourceFile))
        file.toSourceFile).filter
          (fun record => functionKey record.source.target.definition = functionKey span) := by
  generalize hread : (fun file : ParsedFile => fileRecords json fs glob unambiguous scope
    (files.map (·.toSourceFile)) file.toSourceFile) = read
  have hread' : ∀ other : ParsedFile, fileRecords json fs glob unambiguous scope
      (files.map (·.toSourceFile)) other.toSourceFile = read other := fun other =>
    congrFun hread other
  rw [hread' file]
  simp only [hread'] at hpath
  clear hread hread'
  rw [List.countP_map] at hone
  obtain ⟨before, after, rfl, hother⟩ := split_of_countP hone hfile (decide_eq_true rfl)
  have hkey : ∀ other ∈ before ++ file :: after, ∀ record ∈ read other,
      (record.key = targetKey file.path span ↔ other.path = file.path ∧
        functionKey record.source.target.definition = functionKey span) := by
    intro other hmem record hrecord
    rw [SourcedRecord.key, targetKey, targetKey, hpath other hmem record hrecord,
      EmbeddingLike.apply_eq_iff_eq, Prod.mk.injEq]
  have hnone : ∀ others : List ParsedFile, (∀ other ∈ others, other ∈ before ++ after) →
      (others.flatMap read).filter (fun record => record.key = targetKey file.path span) = [] := by
    intro others hsub
    refine List.filter_eq_nil_iff.mpr fun record hrecord hsame => ?_
    obtain ⟨other, hmem, hrecord⟩ := List.mem_flatMap.mp hrecord
    have hin : other ∈ before ++ file :: after := by
      have hsplit := hsub other hmem
      rw [List.mem_append] at hsplit ⊢
      exact hsplit.imp_right (List.mem_cons_of_mem _)
    have hpathSame := ((hkey other hin record hrecord).mp (of_decide_eq_true hsame)).1
    exact absurd hpathSame (of_decide_eq_false (hother other (hsub other hmem)))
  rw [List.flatMap_append, List.flatMap_cons, List.filter_append, List.filter_append,
    hnone before fun other hmem => List.mem_append_left _ hmem,
    hnone after fun other hmem => List.mem_append_right _ hmem, List.nil_append, List.append_nil]
  refine List.filter_congr fun record hrecord => ?_
  rw [decide_eq_decide, hkey file (List.mem_append_right _ List.mem_cons_self) record hrecord]
  exact and_iff_right rfl

/-- For every project: a target has a contract only if it is a directly named function of the one
file with its path, that file is in the scope and R accepts it, and the contract holds what the
comments attached to that very function claim, and nothing else.  A file that is not adopted and
loses a contract is reported. -/
theorem contract_holds (files : List ParsedFile) :
    ∃ adopted set, adoptedRecords json fs glob unambiguous displayPath
        (files.map (·.toSourceFile)) (some scope) = some adopted ∧
      DeclarationSet.new json adopted.records = some set ∧
      (∀ path span decision contract, set.target path span = some decision →
        decision.signature = some contract →
          ∃ file ∈ files, file.path = path ∧ file.rejectedByR = false ∧
            files.countP (fun other => other.path = path) = 1 ∧
            (∃ native, file.nativePath = some native ∧ scope.matches fs glob native = true) ∧
            ∃ function ∈ file.functionBodies, functionKey function.function = functionKey span ∧
              DirectlyNamed file.stmts (functionKey span) ∧ clausesOf file function ≠ [] ∧
                ¬ OverBudget (clausesOf file function) ∧
                  Holds (clausesOf file function) contract.parameters []) ∧
      ∀ file ∈ files, LosesContracts json fs glob unambiguous displayPath scope
        (files.map (·.toSourceFile)) file.toSourceFile → file.path ∈ adopted.ambiguous := by
  obtain ⟨adopted, hadopted, hrecords, hambiguous⟩ := adoptFiles_spec json fs glob unambiguous
    displayPath scope (files.map (·.toSourceFile)) files ⟨[], []⟩
  rw [List.nil_append] at hrecords
  obtain ⟨set, hset, htarget⟩ := declarationSet_spec json adopted.records
  refine ⟨adopted, set, hadopted, hset, fun path span decision contract hdecision hcontract => ?_,
    fun file hfile hloses => (hambiguous file.path).mpr (.inr ⟨file, hfile, rfl, hloses⟩)⟩
  obtain ⟨definition, hne, hdecide⟩ := htarget path span decision hdecision
  -- a record of the target, and the file it is of
  obtain ⟨record, hrecord⟩ := List.exists_mem_of_ne_nil _ hne
  obtain ⟨hmem, hkey⟩ := List.mem_filter.mp hrecord
  rw [hrecords] at hmem
  obtain ⟨file, hfile, hmem⟩ := List.mem_flatMap.mp hmem
  have hpath : ∀ other ∈ files, ∀ record ∈ fileRecords json fs glob unambiguous scope
      (files.map (·.toSourceFile)) other.toSourceFile, record.source.target.path = other.path := by
    intro other _ record hrecord
    obtain ⟨-, -, -, -, hread⟩ :=
      fileRecords_spec json fs glob unambiguous scope (files.map (·.toSourceFile)) hrecord
    obtain ⟨_, _, _, hat⟩ := hread.placed record hrecord
    exact hat.path
  obtain ⟨native, hnative, hmatches, haccepted, hread⟩ :=
    fileRecords_spec json fs glob unambiguous scope (files.map (·.toSourceFile)) hmem
  have hone := countP_of_adoptedPath unambiguous hnative
  obtain ⟨hsame, hspan⟩ := Prod.mk.inj
    (toLex.injective (of_decide_eq_true hkey :
      toLex (record.source.target.path, functionKey record.source.target.definition) =
        toLex (path, functionKey span)))
  rw [hpath file hfile record hmem] at hsame
  subst hsame
  obtain ⟨function, hf, hnamed, hat⟩ := hread.placed record hmem
  have hfunction : functionKey function.function = functionKey span := hat.target.symm.trans hspan
  have hown := records_of_target json fs glob unambiguous scope hfile hone hpath span
  rw [hrecords, hown] at hdecide hne
  have hfunctionRead := hread.read rfl haccepted function hf hnamed
  rw [recordsAt, hfunction] at hfunctionRead
  have hevidence : ∀ record ∈ (fileRecords json fs glob unambiguous scope
      (files.map (·.toSourceFile)) file.toSourceFile).filter (fun record =>
        functionKey record.source.target.definition = functionKey span),
      record.evidence = .adoptedContract := by
    intro record hrecord
    obtain ⟨_, _, _, hat⟩ := hread.placed record (List.mem_of_mem_filter hrecord)
    exact hat.adopted
  obtain ⟨decision', hdecide', hselects⟩ := @decideTarget_spec json definition
    ((fileRecords json fs glob unambiguous scope (files.map (·.toSourceFile))
      file.toSourceFile).filter (fun record =>
        functionKey record.source.target.definition = functionKey span) |>.map
          SourcedRecord.toRecord)
  obtain rfl := Option.some.inj (hdecide'.symm.trans hdecide)
  obtain ⟨hclauses, hbudget, hholds⟩ :=
    hfunctionRead.holds hne hevidence ((hselects contract).mp hcontract)
  refine ⟨file, hfile, rfl, haccepted, ?_, ⟨native, (Option.filter_eq_some_iff.mp hnative).1,
    hmatches⟩, function, hf, hfunction, hfunction ▸ hnamed, hclauses, hbudget, hholds⟩
  rw [List.countP_map] at hone
  exact hone

end Files

end Ry.Typehint
