import Ry.Config.Baseline
import Ry.Suppress.Unchecked
import Ry.Suppress.Conservative
import Ry.Workspace.Paths

/-! # Post-processing of diagnostics

`post_process.rs`: suppression directives and their audit, the severity filter, the demotion of
paths a package does not ship, the baseline and the confidence threshold, in this order.
-/

namespace Ry

inductive Severity
  | error
  | warning
  | info
deriving DecidableEq

inductive Confidence
  | low
  | medium
  | high
deriving DecidableEq

namespace Confidence

def rank : Confidence → Nat
  | low => 0
  | medium => 1
  | high => 2

def demote : Confidence → Confidence
  | high => medium
  | medium | low => low

end Confidence

/-- A diagnostic, with what the stages read of it. -/
structure Finding where
  severity : Severity
  span : Span
  path : String
  code : String
  message : String
  confidence : Confidence
deriving DecidableEq

def Finding.diagnostic (d : Finding) : Diagnostic := ⟨d.span, d.code⟩

instance : BaselineDiagnostic Finding where
  path := Finding.path
  code := Finding.code
  message := Finding.message

def defaultConfidenceFor (code : String) : Confidence :=
  if code = "RY097" then .low
  else if ["RY030", "RY033", "RY050", "RY070", "RY092", "RY093", "RY094", "RY096", "RY101", "RY102",
      "RY105", "RY107", "RY108"].contains code then .high
  else .medium

/-- `Diagnostic::new` -/
def Finding.new (severity : Severity) (span : Span) (path code message : String) : Finding where
  severity := severity
  span := span
  path := path
  code := code
  message := message
  confidence := if severity = .info then .low else defaultConfidenceFor code

/-- The default of a registered rule. -/
def Rule.defaultSeverity (r : Rule) : Severity :=
  if ["RY000", "RY020", "RY021", "RY030", "RY031", "RY040", "RY060", "RY061", "RY070", "RY080",
      "RY092", "RY126", "RY128"].contains r.code then .error
  else if ["RY003", "RY097", "RY115"].contains r.code then .info
  else .warning

def unusedIgnore : String := "RY113"

def enabledByDefault (code : String) : Bool := !(code == "RY003" || code == unusedIgnore)

/-! ## The severity filter -/

structure SeverityFilter where
  expandedErrors : List String
  expandedWarns : List String
  expandedIgnores : List String
  selected : Option (List String)
  extendedSelection : List String
  /-- The choices of the path's own tables. -/
  scopedChoices : Table String (Option Severity)

def SeverityFilter.effective (filter : SeverityFilter) (code : String) (default : Severity) :
    Option Severity :=
  if filter.expandedIgnores.contains code then none
  else
    match filter.scopedChoices.lookup code with
    | some severity => severity
    | none =>
      if filter.expandedErrors.contains code then some .error
      else if filter.expandedWarns.contains code then some .warning
      else if filter.selected.elim (enabledByDefault code) (·.contains code) ||
          filter.extendedSelection.contains code then some default
      else none

/-- The diagnostic with its severity, unless it is ignored. -/
def withSeverity (filter : SeverityFilter) (d : Finding) : Option Finding :=
  let default := ((findRule d.code.toList).map (·.defaultSeverity)).getD .warning
  (filter.effective d.code default).map fun severity => { d with severity }

def applyFilterToDiagnostics (filter : SeverityFilter) (diagnostics : List Finding) : List Finding :=
  diagnostics.filterMap (withSeverity filter)

/-! ## Per file -/

structure AuditFile where
  comments : List Comment
  source : List Char
  stmts : List Stmt

def AuditFile.directives (file : AuditFile) : List Suppression :=
  parseSuppressionsFromComments file.comments file.source

/-- What `pre_demotion` is called with; the filter is that of the file's path. -/
structure CheckedFile where
  path : String
  filter : SeverityFilter
  raw : List Finding
  file : Option AuditFile

def unusedIgnoreAuditableCodes : List (List Char) := ["RY034".toList, "RY102".toList]

/-- The audit of one code of a directive. -/
def auditCode (f : CheckedFile) (s : Suppression) (code : List Char) : Option Finding :=
  if !unusedIgnoreAuditableCodes.contains code then none
  else
    match findRule code with
    | none => none
    | some rule =>
      if f.filter.effective (String.ofList code) rule.defaultSeverity = none then none
      else if f.raw.any fun d => d.code.toList == code && d.span.line == s.line then none
      else some (Finding.new .warning s.span f.path unusedIgnore
        ("unused ry ignore for `" ++ String.ofList code ++ "`"))

/-- The audit of a directive; a line outside the table counts as unchecked. -/
def auditDirective (f : CheckedFile) (lines : List Bool) (s : Suppression) : List Finding :=
  if s.origin ≠ .ry then []
  else
    match s.kind with
    | .selective codes =>
      if lines[s.line]?.getD true || lines[s.span.line]?.getD true then []
      else codes.filterMap (auditCode f s)
    | _ => []

def isSelective : SuppressionKind → Bool
  | .selective _ => true
  | _ => false

/-- `none` where an index is out of range. -/
def unusedIgnoreDiagnostics (f : CheckedFile) (file : AuditFile) : Option (List Finding) :=
  if f.filter.effective unusedIgnore .warning = none || f.raw.any (·.code == "RY000") then some []
  else if !file.directives.any fun s => s.origin = .ry && isSelective s.kind then some []
  else
    (uncheckedLines (lineStarts file.source) (uncheckedAuditRegions file.stmts)).map fun lines =>
      file.directives.flatMap (auditDirective f lines)

def preDemotion (f : CheckedFile) : Option (List Finding) :=
  (match f.file with
    | none => some f.raw
    | some file =>
      if hasFileSuppressionFromComments file.comments then some []
      else
        (unusedIgnoreDiagnostics f file).map fun audit =>
          f.raw.filter (fun d : Finding => !isSuppressed d.diagnostic file.directives) ++ audit).map
    (applyFilterToDiagnostics f.filter)

/-! ## Over all files -/

def demotedTrees : List String := ["tests", "data-raw", "demo", "vignettes", "inst"]

def pathOf (text : String) : Path :=
  let (lead, pieces) := cutPath text.toList
  ⟨lead = .root, (pieces.filter (!namesNothing ·)).map String.ofList⟩

def demoteNonSourcePath (fs : FileSystem) (repoRoot : Option String) (d : Finding) : Finding :=
  let path := pathOf d.path
  let absolute := if path.rooted then path else (pathOf (repoRoot.getD ".")).below path.names
  let packageRoot := absolute.parent.bind fun parent =>
    parent.ancestors.find? fun root => fs.isFile (root.join "DESCRIPTION")
  match packageRoot.bind absolute.stripPrefix with
  | some relative =>
    if relative.any demotedTrees.contains then { d with confidence := d.confidence.demote } else d
  | none => d

structure PostProcess where
  baseline : Option Baseline
  minConfidence : Confidence
  repoRoot : Option String

def postDemotion (post : PostProcess) (fs : FileSystem) (currentDir : Option String)
    (diagnostics : List Finding) : List Finding :=
  let demoted := diagnostics.map (demoteNonSourcePath fs post.repoRoot)
  let new := match post.baseline with
    | some baseline => subtractBaseline currentDir post.repoRoot demoted baseline
    | none => demoted
  new.filter fun d => decide (post.minConfidence.rank ≤ d.confidence.rank)

/-- The stages over the files of a run. -/
def postProcess (post : PostProcess) (fs : FileSystem) (currentDir : Option String)
    (files : List CheckedFile) : Option (List Finding) :=
  (files.mapM preDemotion).map fun kept => postDemotion post fs currentDir kept.flatten

/-! ## What is kept -/

/-- A directive of the file removes the diagnostic. -/
def Suppressed (f : CheckedFile) (d : Finding) : Prop :=
  ∃ file, f.file = some file ∧ (hasFileSuppressionFromComments file.comments = true ∨
    ∃ s ∈ file.directives, s.line = d.span.line ∧ s.suppresses d.code = true)

/-- A line of the file that no region touches in which an unwalked node lies. -/
def LineWalked (file : AuditFile) (line : Nat) : Prop :=
  line < (lineStarts file.source).length ∧
    ∀ p ∈ nodesOf file.stmts, ∀ span, Unwalked (nodesOf file.stmts) p.node span →
      ∃ q ∈ nodesOf file.stmts, q.path <+: p.path ∧ ∃ region, q.node.opaqueSpan = some region ∧
        ¬ Touches (lineStarts file.source) region line

/-- A finding of the audit and where it comes from. -/
structure UnusedCode (f : CheckedFile) (file : AuditFile) (s : Suppression) (code : List Char)
    (finding : Finding) : Prop where
  mem : s ∈ file.directives
  native : s.origin = .ry
  selective : ∃ codes, s.kind = .selective codes ∧ code ∈ codes
  walked : LineWalked file s.line ∧ LineWalked file s.span.line
  unused : ∀ d ∈ f.raw, ¬ (d.code.toList = code ∧ d.span.line = s.line)
  finding_eq : finding = Finding.new .warning s.span f.path unusedIgnore
    ("unused ry ignore for `" ++ String.ofList code ++ "`")

/-- What the audit of a file adds. -/
def Audits (f : CheckedFile) (audit : List Finding) : Prop :=
  ∀ finding ∈ audit, ∃ file s code, f.file = some file ∧
    hasFileSuppressionFromComments file.comments = false ∧ UnusedCode f file s code finding

theorem lineStarts_zero (src : List Char) : (lineStarts src)[0]? = some 0 := rfl

/-- A line of the table that is not marked was walked. -/
theorem lineWalked_of_lines {file : AuditFile} {lines : List Bool} {line : Nat}
    (hlines : uncheckedLines (lineStarts file.source) (uncheckedAuditRegions file.stmts) = some lines)
    (h : lines[line]?.getD true = false) : LineWalked file line := by
  obtain ⟨lines', hlines', hlen, hmarked⟩ := uncheckedLines_spec
    (lineStarts_sorted file.source) (lineStarts_zero file.source) (uncheckedAuditRegions file.stmts)
  obtain rfl : lines = lines' := Option.some.inj (hlines.symm.trans hlines')
  have hline : lines[line]? = some false := by
    cases hget : lines[line]? with
    | none => rw [hget] at h; exact absurd h (by decide)
    | some b => rw [hget] at h; exact congrArg some h
  have hlt : line < (lineStarts file.source).length := by
    rw [← hlen]
    exact (List.getElem?_eq_some_iff.mp hline).1
  refine ⟨hlt, ?_⟩
  intro p hp span hunwalked
  obtain ⟨q, hq, hpath, region, hregion, hspan⟩ := uncheckedAuditRegions_covers hp hunwalked
  refine ⟨q, hq, hpath, region, hspan, fun htouches => ?_⟩
  have htrue := (hmarked line).mpr ⟨hlt, region, hregion, htouches⟩
  exact absurd (hline.symm.trans htrue) (by decide)

theorem auditCode_eq_some {f : CheckedFile} {s : Suppression} {code : List Char} {finding : Finding}
    (h : auditCode f s code = some finding) :
    (∀ d ∈ f.raw, ¬ (d.code.toList = code ∧ d.span.line = s.line)) ∧
      finding = Finding.new .warning s.span f.path unusedIgnore
        ("unused ry ignore for `" ++ String.ofList code ++ "`") := by
  unfold auditCode at h
  split at h
  · exact absurd h (by simp)
  · split at h
    · exact absurd h (by simp)
    · split at h
      · exact absurd h (by simp)
      · split at h
        · exact absurd h (by simp)
        · rename_i hnone
          refine ⟨?_, (Option.some.inj h).symm⟩
          rintro d hd ⟨hcode, hline⟩
          exact hnone (List.any_eq_true.mpr ⟨d, hd, by simp [hcode, hline]⟩)

/-- The audit of a file ends, and finds only what no walked line needs. -/
theorem unusedIgnoreDiagnostics_spec (f : CheckedFile) (file : AuditFile) :
    ∃ audit, unusedIgnoreDiagnostics f file = some audit ∧
      ∀ finding ∈ audit, ∃ s code, UnusedCode f file s code finding := by
  unfold unusedIgnoreDiagnostics
  split
  · exact ⟨[], rfl, by simp⟩
  · split
    · exact ⟨[], rfl, by simp⟩
    · obtain ⟨lines, hlines, -, -⟩ := uncheckedLines_spec (lineStarts_sorted file.source)
        (lineStarts_zero file.source) (uncheckedAuditRegions file.stmts)
      refine ⟨_, by rw [hlines]; rfl, ?_⟩
      intro finding hfinding
      obtain ⟨s, hs, hmem⟩ := List.mem_flatMap.mp hfinding
      unfold auditDirective at hmem
      split at hmem
      · exact absurd hmem List.not_mem_nil
      · rename_i horigin
        split at hmem
        · rename_i codes hkind
          split at hmem
          · exact absurd hmem List.not_mem_nil
          · rename_i hchecked
            obtain ⟨code, hcode, haudit⟩ := List.mem_filterMap.mp hmem
            obtain ⟨hunused, heq⟩ := auditCode_eq_some haudit
            rw [Bool.or_eq_true, not_or, Bool.not_eq_true, Bool.not_eq_true] at hchecked
            exact ⟨s, code, hs, not_not.mp horigin, ⟨codes, hkind, hcode⟩,
              ⟨lineWalked_of_lines hlines hchecked.1, lineWalked_of_lines hlines hchecked.2⟩,
              hunused, heq⟩
        · exact absurd hmem List.not_mem_nil

open Classical in
/-- What the first two stages keep of a file: the diagnostics that no directive suppresses and the
audit, with their severities, without those that are ignored. -/
noncomputable def survivors (f : CheckedFile) (audit : List Finding) : List Finding :=
  (f.raw.filter (fun d => ¬ Suppressed f d) ++ audit).filterMap (withSeverity f.filter)

theorem preDemotion_spec (f : CheckedFile) :
    ∃ audit, Audits f audit ∧ preDemotion f = some (survivors f audit) := by
  classical
  unfold preDemotion survivors applyFilterToDiagnostics
  cases hfile : f.file with
  | none =>
    refine ⟨[], by simp [Audits], ?_⟩
    have hall : f.raw.filter (fun d => decide ¬ Suppressed f d) = f.raw := by
      refine List.filter_eq_self.mpr fun d _ => decide_eq_true ?_
      rintro ⟨file, hsome, -⟩
      rw [hfile] at hsome
      exact absurd hsome (by simp)
    rw [hall, List.append_nil]
    rfl
  | some file =>
    dsimp only
    by_cases hsuppressed : hasFileSuppressionFromComments file.comments = true
    · refine ⟨[], by simp [Audits], ?_⟩
      have hnone : f.raw.filter (fun d => decide ¬ Suppressed f d) = [] := by
        refine List.filter_eq_nil_iff.mpr fun d _ hd => of_decide_eq_true hd ?_
        exact ⟨file, hfile, .inl hsuppressed⟩
      rw [if_pos hsuppressed, hnone]
      rfl
    · obtain ⟨audit, haudit, hunused⟩ := unusedIgnoreDiagnostics_spec f file
      refine ⟨audit, ?_, ?_⟩
      · intro finding hfinding
        obtain ⟨s, code, hcode⟩ := hunused finding hfinding
        exact ⟨file, s, code, hfile, by simpa using hsuppressed, hcode⟩
      · have hsame : f.raw.filter (fun d => !isSuppressed d.diagnostic file.directives) =
            f.raw.filter (fun d => decide ¬ Suppressed f d) := by
          refine List.filter_congr fun d _ => ?_
          have hiff : isSuppressed d.diagnostic file.directives = true ↔ Suppressed f d := by
            rw [isSuppressed, List.any_eq_true]
            constructor
            · rintro ⟨s, hs, hboth⟩
              rw [Bool.and_eq_true] at hboth
              exact ⟨file, hfile, .inr ⟨s, hs, of_decide_eq_true hboth.1, hboth.2⟩⟩
            · rintro ⟨file', hfile', hor⟩
              obtain rfl : file = file' := Option.some.inj (hfile.symm.trans hfile')
              rcases hor with hwhole | ⟨s, hs, hline, hcode⟩
              · exact absurd hwhole hsuppressed
              · exact ⟨s, hs, by rw [Bool.and_eq_true]; exact ⟨decide_eq_true hline, hcode⟩⟩
          rw [Bool.eq_iff_iff, Bool.not_eq_true', ← Bool.not_eq_true, hiff, decide_eq_true_iff]
        rw [if_neg hsuppressed, haudit, Option.map_some, Option.map_some, hsame]

/-- The count a baseline leaves to a finding; without one there is none. -/
def PostProcess.allowance (post : PostProcess) (key : BaselineKey) : Nat :=
  match post.baseline with
  | some baseline => lastCount baseline.entries key
  | none => 0

theorem postDemotion_spec (post : PostProcess) (fs : FileSystem) (currentDir : Option String)
    (diagnostics : List Finding) :
    ∃ new, KeepsLater (diagnosticKey currentDir post.repoRoot) post.allowance
        (diagnostics.map (demoteNonSourcePath fs post.repoRoot)) new ∧
      postDemotion post fs currentDir diagnostics =
        new.filter fun d => decide (post.minConfidence.rank ≤ d.confidence.rank) := by
  unfold postDemotion
  cases hbaseline : post.baseline with
  | some baseline =>
    refine ⟨_, ?_, rfl⟩
    have hallowance : post.allowance = lastCount baseline.entries := by
      funext key
      rw [PostProcess.allowance, hbaseline]
    dsimp only
    rw [subtractBaseline_eq_surplus, hallowance]
    exact ⟨surplus_sublist _, fun k => filter_surplus k _⟩
  | none =>
    refine ⟨_, ⟨List.Sublist.refl _, fun k => ?_⟩, rfl⟩
    rw [PostProcess.allowance, hbaseline]
    exact List.drop_zero.symm

/-- The audit as a check of whole directives: none of them suppresses a finding on its line. -/
def AuditsDirectives (f : CheckedFile) (audit : List Finding) : Prop :=
  ∀ finding ∈ audit, ∃ file s, f.file = some file ∧ s ∈ file.directives ∧ s.span = finding.span ∧
    ∀ d ∈ f.raw, ¬ (d.span.line = s.line ∧ s.suppresses d.code = true)

def twoCodesFile : AuditFile where
  comments := [⟨0, 2, " ry: ignore[RY034, RY102]".toList⟩]
  source := "x # ry: ignore[RY034, RY102]".toList
  stmts := []

/-- A finding of one of the two rules on the line. -/
def twoCodes : CheckedFile where
  path := "a.R"
  filter := ⟨[], ["RY113"], [], none, [], ∅⟩
  raw := [Finding.new .warning ⟨0, 1, 0, 0⟩ "a.R" "RY102" ""]
  file := some twoCodesFile

end Ry
