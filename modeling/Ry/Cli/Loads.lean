import Ry.Cli.Watch

/-! # A load reads what is stamped

Two disks on which no configuration input was touched give the same load.
-/

namespace Ry.Watch

open Discovery (Glob dedupAdjacent)

variable {Pattern Stub : Type}

/-! ## The configuration file -/

section File

variable {d d' : Disk} {glob : Glob Pattern} {toml : String → Option (Config Pattern)}

theorem Disk.Lawful.not_isFile_of_isDir {p : Path} (h : d.isDir p = true) : d.isFile p = false := by
  unfold FileSystem.isDir at h
  unfold FileSystem.isFile
  cases hmeta : d.metadata p with
  | none => rfl
  | some found =>
    rw [hmeta] at h
    simp only [Option.any_some, decide_eq_true_eq] at h
    simp [h]

/-- Nothing stands below a file. -/
theorem Disk.Lawful.absent_below_file (hd : d.Lawful) {p : Path} (hp : p.rooted = true)
    (h : d.isFile p = true) (name : String) : d.pathExists (p.join name) = false := by
  rw [← Bool.not_eq_true]
  intro hexists
  have hdir := hd.tree.parent_isDir p name (by simp [Path.isEmpty, hp])
    (hd.tree.entry (p.join name) hexists)
  rw [not_isFile_of_isDir hdir] at h
  exact absurd h (by decide)

variable {here start : Path}

theorem rooted_joinPath (h : here.rooted = true) (start : Path) :
    (here.joinPath start).rooted = true := by
  unfold Path.joinPath
  split
  · assumption
  · exact h

/-- Every place for a configuration file above the start. -/
def probed (here start : Path) : List Path :=
  (here.joinPath start).ancestors.map (·.join configFilename)

/-- A start that is a file only leaves out a place where nothing is. -/
theorem Disk.Lawful.candidates (hd : d.Lawful) (hhere : here.rooted = true) :
    configCandidates d.toFileSystem here start = probed here start ∨
      ∃ p, probed here start = p :: configCandidates d.toFileSystem here start ∧
        d.pathExists p = false := by
  have hrooted := rooted_joinPath hhere start
  unfold configCandidates probed
  dsimp only
  generalize here.joinPath start = path at hrooted
  by_cases hfile : d.isFile path = true
  · rw [if_pos hfile]
    refine .inr ⟨path.join configFilename, ?_, hd.absent_below_file hrooted hfile _⟩
    obtain ⟨rooted, names⟩ := path
    obtain rfl : rooted = true := hrooted
    induction names using List.reverseRecOn with
    | nil => exact absurd hfile (by rw [hd.top]; decide)
    | append_singleton names name _ =>
      have hjoin : (⟨true, names ++ [name]⟩ : Path) = (⟨true, names⟩ : Path).join name := rfl
      rw [hjoin, Path.ancestors_join, Path.parent_join, List.map_cons]
      rfl
  · rw [if_neg hfile]
    exact .inl rfl

/-- The nearest file is the nearest of all places. -/
theorem Disk.Lawful.find_candidates (hd : d.Lawful) (hhere : here.rooted = true) :
    (configCandidates d.toFileSystem here start).find? d.pathExists =
      (probed here start).find? d.pathExists := by
  rcases hd.candidates hhere with h | ⟨p, h, habsent⟩
  · rw [h]
  · rw [h, List.find?_cons_of_neg (by simp [habsent])]

theorem Disk.Lawful.absent_of_not_candidate (hd : d.Lawful) (hhere : here.rooted = true) {p : Path}
    (hp : p ∈ probed here start) (h : p ∉ configCandidates d.toFileSystem here start) :
    d.pathExists p = false := by
  rcases hd.candidates hhere with heq | ⟨q, heq, habsent⟩
  · exact absurd (heq ▸ hp) h
  · rw [heq] at hp
    rcases List.mem_cons.mp hp with rfl | hmem
    · exact habsent
    · exact absurd hmem h

theorem anchored_congr (cfg : Config Pattern) {path root : Path}
    (h : d.scopedPathIdentity root = d'.scopedPathIdentity root) :
    cfg.anchored d.toFileSystem glob path root = cfg.anchored d'.toFileSystem glob path root := by
  have hscope : scopeAt d.toFileSystem glob path root = scopeAt d'.toFileSystem glob path root := by
    funext key patterns
    unfold scopeAt Discovery.ScopedPaths.new
    rw [h]
  unfold Config.anchored environmentScope ruleOverrideScope
  rw [hscope]

/-- A file that was not touched loads as before. -/
theorem loadFile_congr (hd : d.Lawful) (hd' : d'.Lawful) {p dir : Path}
    (hparent : p.parent = some dir) (hdir : dir.rooted = true)
    (hexists : d.pathExists p = true) (h : Disk.SameAt d d' p) :
    Config.loadFile d.toFileSystem glob toml p = Config.loadFile d'.toFileSystem glob toml p := by
  unfold Config.loadFile
  rw [h.text, hparent, Option.getD_some, hd.absolute dir hdir, hd'.absolute dir hdir]
  simp only [anchored_congr _ (h.identity hexists dir hparent)]

end File

/-! ## The settings -/

/-- The configuration inputs are the same paths, and none of them was touched. -/
structure Untouched (inv : Invocation Pattern Stub) (d d' : Disk) (cfg : Config Pattern) : Prop where
  paths : ∀ p, p ∈ configPaths inv d cfg ↔ p ∈ configPaths inv d' cfg
  same : ∀ p ∈ configPaths inv d cfg, Disk.SameAt d d' p

section Settings

variable {inv : Invocation Pattern Stub} {d d' : Disk} {cfg : Config Pattern}

theorem mem_configPaths {p : Path} : p ∈ configPaths inv d cfg ↔
    p ∈ configCandidates d.toFileSystem inv.here inv.searchStart ∨ cfg.baseline = some p ∨
      p ∈ stubFiles d.toFileSystem cfg.typeshed := by
  rw [configPaths, List.mem_append, List.mem_append, Option.mem_toList, or_assoc]

theorem Untouched.exists_probed (h : Untouched inv d d' cfg) (hd : d.Lawful) (hd' : d'.Lawful)
    {p : Path} (hp : p ∈ probed inv.here inv.searchStart) : d.pathExists p = d'.pathExists p := by
  by_cases hmem : p ∈ configPaths inv d cfg
  · exact (h.same p hmem).isSome
  · have hmem' : p ∉ configPaths inv d' cfg := fun hmem' => hmem ((h.paths p).mpr hmem')
    rw [hd.absent_of_not_candidate inv.rooted hp fun hc => hmem (mem_configPaths.mpr (.inl hc)),
      hd'.absent_of_not_candidate inv.rooted hp fun hc => hmem' (mem_configPaths.mpr (.inl hc))]

theorem rooted_of_mem_ancestors {p q : Path} (h : q ∈ p.ancestors) : q.rooted = p.rooted := by
  obtain ⟨names, -, rfl⟩ := List.mem_map.mp h
  rfl

theorem Untouched.discover (h : Untouched inv d d' cfg) (hd : d.Lawful) (hd' : d'.Lawful) :
    Config.discover d.toFileSystem inv.glob inv.toml inv.here inv.searchStart =
      Config.discover d'.toFileSystem inv.glob inv.toml inv.here inv.searchStart := by
  unfold Config.discover
  rw [hd.find_candidates inv.rooted, hd'.find_candidates inv.rooted,
    ← List.find?_congr fun p hp => h.exists_probed hd hd' hp]
  cases hfind : (probed inv.here inv.searchStart).find? d.pathExists with
  | none => rfl
  | some p =>
    have hprobed := List.mem_of_find?_eq_some hfind
    have hexists := List.find?_some hfind
    have hcandidate : p ∈ configCandidates d.toFileSystem inv.here inv.searchStart := by
      by_contra hnot
      rw [hd.absent_of_not_candidate inv.rooted hprobed hnot] at hexists
      exact absurd hexists (by decide)
    obtain ⟨dir, hdir, rfl⟩ := List.mem_map.mp hprobed
    have hrooted : dir.rooted = true :=
      (rooted_of_mem_ancestors hdir).trans (rooted_joinPath inv.rooted inv.searchStart)
    dsimp only
    rw [loadFile_congr hd hd' (Path.parent_join dir configFilename) hrooted hexists
      (h.same _ (mem_configPaths.mpr (.inl hcandidate)))]

theorem Untouched.loadSettings (h : Untouched inv d d' cfg) (hd : d.Lawful) (hd' : d'.Lawful) :
    loadSettings inv d = loadSettings inv d' := by
  unfold Watch.loadSettings
  rw [h.discover hd hd']

theorem Untouched.loadBaseline (h : Untouched inv d d' cfg) {path : Path}
    (hpath : cfg.baseline = some path) :
    loadBaseline inv d path = loadBaseline inv d' path ∧ d.pathExists path = d'.pathExists path := by
  have hsame := h.same path (mem_configPaths.mpr (.inr (.inl hpath)))
  unfold Watch.loadBaseline
  exact ⟨by rw [hsame.text], hsame.isSome⟩

end Settings

end Ry.Watch
