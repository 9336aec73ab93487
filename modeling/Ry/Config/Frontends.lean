import Ry.Config.Policy
import Ry.Workspace.WalkAdmitted

/-! # The report and the editor

`run_check_once` post-processes the files of a run together and prints one sorted list; the editor
post-processes each file when it publishes it.  The list holds exactly what the editor shows.
-/

namespace Ry

open Discovery (Glob dedupAdjacent mem_dedupAdjacent)

/-! ## The order of the report -/

def Severity.asStr : Severity → String
  | .error => "error"
  | .warning => "warning"
  | .info => "info"

/-- What the report is sorted by: the surest first, then the place, the code and the text. -/
def Finding.sortKey (d : Finding) :
    ℕᵒᵈ ×ₗ String ×ₗ ℕ ×ₗ ℕ ×ₗ ℕ ×ₗ ℕ ×ₗ String ×ₗ String ×ₗ String :=
  toLex (OrderDual.toDual d.confidence.rank, toLex (d.path, toLex (d.span.line, toLex (d.span.col,
    toLex (d.span.start, toLex (d.span.stop, toLex (d.code, toLex (d.severity.asStr,
      d.message))))))))

/-- Findings that the order does not tell apart are the same. -/
theorem Finding.sortKey_injective : Function.Injective Finding.sortKey := by
  intro d d' h
  simp only [sortKey, toLex_inj, Prod.mk.injEq, OrderDual.toDual_inj] at h
  obtain ⟨hconfidence, hpath, hline, hcol, hstart, hstop, hcode, hseverity, hmessage⟩ := h
  have hrank : d.confidence = d'.confidence := by
    revert hconfidence
    cases d.confidence <;> cases d'.confidence <;> decide
  have hlevel : d.severity = d'.severity := by
    revert hseverity
    cases d.severity <;> cases d'.severity <;> decide
  cases d
  cases d'
  rw [Finding.mk.injEq]
  exact ⟨hlevel, Span.mk.injEq .. ▸ ⟨hstart, hstop, hline, hcol⟩, hpath, hcode, hmessage, hrank⟩

instance : LinearOrder Finding := LinearOrder.lift' Finding.sortKey Finding.sortKey_injective

def sortAndDeduplicate (diagnostics : List Finding) : List Finding :=
  dedupAdjacent (diagnostics.mergeSort fun a b => decide (a ≤ b))

/-! ## Both frontends -/

/-- A file and what the checker found in it. -/
structure CheckedSource where
  path : String
  /-- What the path tables match. -/
  native : Path
  raw : List Finding
  file : Option AuditFile

def CheckedSource.filtered (filterFor : Path → SeverityFilter) (source : CheckedSource) :
    CheckedFile :=
  ⟨source.path, filterFor source.native, source.raw, source.file⟩

/-- A finding about a file as a whole, such as one that does not parse. -/
def fileLevel (native : Path) (finding : Finding) : CheckedSource :=
  ⟨finding.path, native, [finding], none⟩

section Frontends

variable {Pattern : Type} (fs : FileSystem) (glob : Glob Pattern) (cfg : Config Pattern)
  (post : PostProcess) (currentDir : Option String)

/-- What `run_check_once` prints; file-level findings enter at the severity filter. -/
def checkReport (overrides : CliOverrides) (sources : List CheckedSource)
    (synthetic : List (Path × Finding)) : Option (List Finding) :=
  (sources.mapM fun source =>
    preDemotion (source.filtered fun native => commandFilter fs glob native cfg overrides)).map
      fun kept => sortAndDeduplicate (postDemotion post fs currentDir (kept.flatten ++
        synthetic.flatMap fun s =>
          applyFilterToDiagnostics (commandFilter fs glob s.1 cfg overrides) [s.2]))

/-- `FolderAnalysisContext::post_process`: what the editor shows of a file. -/
def published (lint : LintSettings) (source : CheckedSource) : Option (List Finding) :=
  (preDemotion (source.filtered fun native => editorFilter fs glob native cfg lint)).map
    (postDemotion post fs currentDir)

end Frontends

/-! ## One strictly sorted list -/

theorem pairwise_lt_dedupAdjacent {A : Type} [LinearOrder A] {as : List A}
    (h : as.Pairwise (· ≤ ·)) : (dedupAdjacent as).Pairwise (· < ·) := by
  induction as with
  | nil => exact List.Pairwise.nil
  | cons a rest ih =>
    cases rest with
    | nil => exact List.pairwise_singleton _ a
    | cons b rest =>
      rw [dedupAdjacent]
      split
      · exact ih h.tail
      · rename_i hne
        obtain ⟨hall, hrest⟩ := List.pairwise_cons.mp h
        have hab : a < b := lt_of_le_of_ne (hall b List.mem_cons_self) hne
        refine List.pairwise_cons.mpr ⟨fun c hc => ?_, ih h.tail⟩
        rcases List.mem_cons.mp (mem_dedupAdjacent.mp hc) with rfl | hmem
        · exact hab
        · exact lt_of_lt_of_le hab ((List.pairwise_cons.mp hrest).1 c hmem)

theorem pairwise_sortAndDeduplicate (diagnostics : List Finding) :
    (sortAndDeduplicate diagnostics).Pairwise (· < ·) := by
  have hsorted := List.pairwise_mergeSort' (fun a b : Finding => a ≤ b) diagnostics
  have hstrict := pairwise_lt_dedupAdjacent hsorted
  unfold sortAndDeduplicate
  convert hstrict

theorem mem_sortAndDeduplicate {diagnostics : List Finding} {d : Finding} :
    d ∈ sortAndDeduplicate diagnostics ↔ d ∈ diagnostics := by
  rw [sortAndDeduplicate, mem_dedupAdjacent, List.mem_mergeSort]

/-! ## The stages, file by file -/

section Stages

variable (post : PostProcess) (fs : FileSystem) (currentDir : Option String)

theorem diagnosticKey_demote (d : Finding) :
    diagnosticKey currentDir post.repoRoot (demoteNonSourcePath fs post.repoRoot d) =
      diagnosticKey currentDir post.repoRoot d := by
  unfold demoteNonSourcePath
  dsimp only
  split
  · split <;> rfl
  · rfl

theorem postDemotion_append {xs ys : List Finding} (h : ∀ d ∈ xs, ∀ d' ∈ ys,
    diagnosticKey currentDir post.repoRoot d ≠ diagnosticKey currentDir post.repoRoot d') :
    postDemotion post fs currentDir (xs ++ ys) =
      postDemotion post fs currentDir xs ++ postDemotion post fs currentDir ys := by
  unfold postDemotion
  rw [List.map_append]
  cases post.baseline with
  | none => exact List.filter_append ..
  | some baseline =>
    dsimp only
    rw [subtractBaseline_eq_surplus, subtractBaseline_eq_surplus, subtractBaseline_eq_surplus,
      surplus_append_of_disjoint, List.filter_append]
    intro x hx y hy
    obtain ⟨d, hd, rfl⟩ := List.mem_map.mp hx
    obtain ⟨d', hd', rfl⟩ := List.mem_map.mp hy
    rw [diagnosticKey_demote, diagnosticKey_demote]
    exact h d hd d' hd'

/-- Files whose findings have different baseline paths. -/
def Apart (path path' : String) : Prop :=
  diagnosticPath currentDir post.repoRoot path ≠ diagnosticPath currentDir post.repoRoot path'

theorem postDemotion_flatMap {S : Type} {sources : List S} {path : S → String}
    {kept : S → List Finding} (hkept : ∀ source ∈ sources, ∀ d ∈ kept source, d.path = path source)
    (h : sources.Pairwise fun s s' => Apart post currentDir (path s) (path s')) :
    postDemotion post fs currentDir (sources.flatMap kept) =
      sources.flatMap fun source => postDemotion post fs currentDir (kept source) := by
  induction sources with
  | nil => unfold postDemotion; cases post.baseline <;> rfl
  | cons source sources ih =>
    obtain ⟨hfirst, hrest⟩ := List.pairwise_cons.mp h
    rw [List.flatMap_cons, List.flatMap_cons, postDemotion_append,
      ih (fun s hs => hkept s (List.mem_cons_of_mem _ hs)) hrest]
    intro d hd d' hd' hkey
    obtain ⟨other, hother, hd'⟩ := List.mem_flatMap.mp hd'
    refine hfirst other hother ?_
    rw [← hkept source List.mem_cons_self d hd,
      ← hkept other (List.mem_cons_of_mem _ hother) d' hd']
    exact congrArg BaselineKey.path hkey

end Stages

/-- What is kept of a file is at the file's path. -/
theorem path_of_preDemotion {f : CheckedFile} {kept : List Finding}
    (h : preDemotion f = some kept) (hraw : ∀ d ∈ f.raw, d.path = f.path) {d : Finding}
    (hd : d ∈ kept) : d.path = f.path := by
  obtain ⟨audit, haudit, hspec⟩ := preDemotion_spec f
  obtain rfl := Option.some.inj (h.symm.trans hspec)
  obtain ⟨d', hd', hseverity⟩ := List.mem_filterMap.mp hd
  obtain ⟨severity, -, rfl⟩ := Option.map_eq_some_iff.mp hseverity
  rcases List.mem_append.mp hd' with hmem | hmem
  · exact hraw d' (List.mem_of_mem_filter hmem)
  · obtain ⟨file, s, code, -, -, hunused⟩ := haudit d' hmem
    exact congrArg Finding.path hunused.finding_eq

/-! ## The report is what the editor shows -/

/-- Nothing is asked for on the command line. -/
def noFlags : CliOverrides := ⟨[], [], [], [], none, none, none, none, 0, 0⟩

def noSettings : LintSettings := ⟨none, none, none, none, none⟩

section Agree

variable {Pattern : Type} (fs : FileSystem) (glob : Glob Pattern) (cfg : Config Pattern)

theorem commandFilter_noFlags (native : Path) :
    commandFilter fs glob native cfg noFlags = editorFilter fs glob native cfg noSettings := by
  have hlists : filterFromConfig (cfg.mergeCli noFlags) = filterFromConfig (noSettings.apply cfg) := by
    rw [filterFromConfig_eq, filterFromConfig_eq]
    simp [Config.mergeCli, LintSettings.apply, noFlags, noSettings]
  rw [commandFilter, editorFilter, hlists]
  rfl

variable (post : PostProcess) (currentDir : Option String)

/-- What is kept of every source, at the source's path. -/
theorem exists_kept (filterFor : Path → SeverityFilter) : ∃ kept : CheckedSource → List Finding,
    (∀ source, preDemotion (source.filtered filterFor) = some (kept source)) ∧
      ∀ source, (∀ d ∈ source.raw, d.path = source.path) → ∀ d ∈ kept source,
        d.path = source.path := by
  have hpre : ∀ source : CheckedSource, ∃ kept,
      preDemotion (source.filtered filterFor) = some kept := fun source =>
    (preDemotion_spec (source.filtered filterFor)).elim fun _ h => ⟨_, h.2⟩
  choose kept hkept using hpre
  exact ⟨kept, hkept, fun source hraw d hd => path_of_preDemotion (hkept source) hraw hd⟩

/-- The file-level findings are sources too. -/
theorem checkReport_eq {kept : CheckedSource → List Finding} (hkept : ∀ source,
      preDemotion (source.filtered fun native => editorFilter fs glob native cfg noSettings) =
        some (kept source)) (sources : List CheckedSource) (synthetic : List (Path × Finding)) :
    checkReport fs glob cfg post currentDir noFlags sources synthetic =
      some (sortAndDeduplicate (postDemotion post fs currentDir
        ((sources ++ synthetic.map fun s => fileLevel s.1 s.2).flatMap kept))) := by
  have hfileLevel : ∀ s : Path × Finding, applyFilterToDiagnostics
      (editorFilter fs glob s.1 cfg noSettings) [s.2] = kept (fileLevel s.1 s.2) := fun s =>
    Option.some.inj (hkept (fileLevel s.1 s.2))
  have hmap : (sources.mapM fun source => preDemotion (source.filtered fun native =>
      editorFilter fs glob native cfg noSettings)) = some (sources.map kept) := by
    induction sources with
    | nil => rfl
    | cons source sources ih => rw [List.mapM_cons, hkept, ih]; rfl
  unfold checkReport
  simp only [commandFilter_noFlags, hfileLevel]
  rw [hmap, Option.map_some, List.flatMap_append, List.flatMap_map, @List.flatMap_def _ _ sources]

/-- Without flags and editor settings the report is the strictly sorted list of what the editor
shows for the files and the file-level findings, provided that no two of them have one baseline
path. -/
theorem report_published (sources : List CheckedSource) (synthetic : List (Path × Finding))
    (hraw : ∀ source ∈ sources, ∀ d ∈ source.raw, d.path = source.path)
    (hapart : (sources ++ synthetic.map fun s => fileLevel s.1 s.2).Pairwise fun s s' =>
      Apart post currentDir s.path s'.path) :
    ∃ report, checkReport fs glob cfg post currentDir noFlags sources synthetic = some report ∧
      report.Pairwise (· < ·) ∧
      ∀ d, d ∈ report ↔ ∃ source ∈ sources ++ synthetic.map (fun s => fileLevel s.1 s.2),
        ∃ shown, published fs glob cfg post currentDir noSettings source = some shown ∧
          d ∈ shown := by
  obtain ⟨kept, hkept, hown⟩ := exists_kept fun native => editorFilter fs glob native cfg noSettings
  have hpaths : ∀ source ∈ sources ++ synthetic.map (fun s => fileLevel s.1 s.2),
      ∀ d ∈ kept source, d.path = source.path := by
    intro source hsource
    refine hown source fun d hd => ?_
    rcases List.mem_append.mp hsource with hmem | hmem
    · exact hraw source hmem d hd
    · obtain ⟨s, -, rfl⟩ := List.mem_map.mp hmem
      exact congrArg Finding.path (List.mem_singleton.mp hd)
  refine ⟨_, checkReport_eq fs glob cfg post currentDir hkept sources synthetic,
    pairwise_sortAndDeduplicate _, fun d => ?_⟩
  rw [mem_sortAndDeduplicate, postDemotion_flatMap post fs currentDir hpaths hapart,
    List.mem_flatMap]
  refine exists_congr fun source => and_congr_right fun _ => ?_
  have hpublished : published fs glob cfg post currentDir noSettings source =
      some (postDemotion post fs currentDir (kept source)) := by
    rw [published, hkept, Option.map_some]
  rw [hpublished]
  constructor
  · exact fun hd => ⟨_, rfl, hd⟩
  · rintro ⟨shown, hshown, hd⟩
    exact Option.some.inj hshown ▸ hd

end Agree

/-- Two files with one finding each. -/
def twoSources : List CheckedSource :=
  let finding := fun path => Finding.new .warning ⟨0, 1, 0, 0⟩ path "RY010" "unbound variable `x`"
  [⟨"b.R", ⟨false, ["b.R"]⟩, [finding "b.R"], none⟩, ⟨"a.R", ⟨false, ["a.R"]⟩, [finding "a.R"], none⟩]

def lowThreshold : PostProcess := ⟨none, .low, none⟩

theorem report_published_twoSources : ∃ report,
    checkReport scriptFiles plainGlob layeredConfig lowThreshold none noFlags twoSources [] =
        some report ∧ report.Pairwise (· < ·) ∧
      ∀ d, d ∈ report ↔ ∃ source ∈ twoSources ++
          ([] : List (Path × Finding)).map fun s => fileLevel s.1 s.2,
        ∃ shown, published scriptFiles plainGlob layeredConfig lowThreshold none noSettings source =
          some shown ∧ d ∈ shown :=
  report_published scriptFiles plainGlob layeredConfig lowThreshold none twoSources []
    (by simp [twoSources, Finding.new]) (by
      simp only [twoSources, List.map_nil, List.append_nil, List.pairwise_cons, List.mem_singleton,
        forall_eq, List.not_mem_nil, false_imp_iff, implies_true, List.Pairwise.nil, and_true]
      show diagnosticPath none none "b.R" ≠ diagnosticPath none none "a.R"
      decide +kernel)

end Ry
