import Ry.Cli.StubLoads
import Ry.Cli.Metadata

/-! # What watch mode shows

Whatever is edited, and whenever: the settings in use are those of one load that succeeded, and a
round in which nothing moves leaves on the screen a check of what is there.
-/

namespace Ry.Watch

variable {Pattern Stub : Type}

/-! ## Loading the baseline -/

section Baselines

variable (inv : Invocation Pattern Stub)

/-- What a load makes of the baseline; a broken one may leave any. -/
structure BaselineOf (d : Disk) (cfg : Config Pattern) (baseline : Option Baseline) : Prop where
  absent : cfg.baseline = none → baseline = none
  loaded : ∀ path value, cfg.baseline = some path → loadBaseline inv d path = some value →
    baseline = some value
  deleted : ∀ path, cfg.baseline = some path → loadBaseline inv d path = none →
    d.pathExists path = false → inv.baselineFromCli = false → baseline = none

variable {inv}

theorem reloadBaseline_inputs (d : Disk) (s : WatchState Pattern Stub) :
    (reloadBaseline inv d s).inputs = s.inputs := by
  unfold reloadBaseline
  split
  · rfl
  · split
    · rfl
    · split <;> rfl

theorem reloadBaseline_configBroken (d : Disk) (s : WatchState Pattern Stub) :
    (reloadBaseline inv d s).configBroken = s.configBroken := by
  unfold reloadBaseline
  split
  · rfl
  · split
    · rfl
    · split <;> rfl

theorem baselineOf_reload (d : Disk) (s : WatchState Pattern Stub) :
    BaselineOf inv d s.inputs.cfg (reloadBaseline inv d s).baseline := by
  unfold reloadBaseline
  split
  · rename_i hcfg
    exact ⟨fun _ => rfl, fun path _ h => absurd (hcfg.symm.trans h) (by simp),
      fun path h => absurd (hcfg.symm.trans h) (by simp)⟩
  · rename_i path hcfg
    have hpath : ∀ {other}, s.inputs.cfg.baseline = some other → other = path := fun h =>
      (Option.some.inj (hcfg.symm.trans h)).symm
    split
    · rename_i value hload
      refine ⟨fun h => absurd (hcfg.symm.trans h) (by simp), fun other found h hfound => ?_,
        fun other h hnone => ?_⟩
      · rw [hpath h, hload] at hfound
        exact hfound
      · rw [hpath h, hload] at hnone
        exact absurd hnone (by simp)
    · rename_i hload
      refine ⟨fun h => absurd (hcfg.symm.trans h) (by simp), fun other found h hfound => ?_,
        fun other h hnone hgone hcli => ?_⟩
      · rw [hpath h, hload] at hfound
        exact absurd hfound (by simp)
      · rw [hpath h] at hgone
        rw [hgone, hcli]
        rfl

theorem baselineOf_start {d : Disk} {cfg : Config Pattern} {baseline : Option Baseline}
    (h : startBaseline inv d cfg = some baseline) : BaselineOf inv d cfg baseline := by
  unfold startBaseline at h
  split at h
  · rename_i hcfg
    obtain rfl := Option.some.inj h
    exact ⟨fun _ => rfl, fun path _ h => absurd (hcfg.symm.trans h) (by simp),
      fun path h => absurd (hcfg.symm.trans h) (by simp)⟩
  · rename_i path hcfg
    have hpath : ∀ {other}, cfg.baseline = some other → other = path := fun h =>
      (Option.some.inj (hcfg.symm.trans h)).symm
    split at h
    · rename_i value hload
      obtain rfl := Option.some.inj h
      refine ⟨fun h => absurd (hcfg.symm.trans h) (by simp), fun other found h hfound => ?_,
        fun other h hnone => ?_⟩
      · rw [hpath h, hload] at hfound
        exact hfound
      · rw [hpath h, hload] at hnone
        exact absurd hnone (by simp)
    · rename_i hload
      split at h
      · cases h
      · obtain rfl := Option.some.inj h
        refine ⟨fun _ => rfl, fun other found h hfound => ?_, fun _ _ _ _ _ => rfl⟩
        rw [hpath h, hload] at hfound
        exact absurd hfound (by simp)

/-- A configured baseline that is there can be loaded. -/
def BaselineReadable (inv : Invocation Pattern Stub) (d : Disk) (cfg : Config Pattern) : Prop :=
  ∀ path, cfg.baseline = some path → loadBaseline inv d path = none → d.pathExists path = false

theorem BaselineOf.eq_start {d : Disk} {cfg : Config Pattern} {baseline fresh : Option Baseline}
    (h : BaselineOf inv d cfg baseline) (hreadable : BaselineReadable inv d cfg)
    (hfresh : startBaseline inv d cfg = some fresh) : baseline = fresh := by
  have hstart := baselineOf_start hfresh
  cases hcfg : cfg.baseline with
  | none => rw [h.absent hcfg, hstart.absent hcfg]
  | some path =>
    cases hload : loadBaseline inv d path with
    | some value => rw [h.loaded path value hcfg hload, hstart.loaded path value hcfg hload]
    | none =>
      have hgone := hreadable path hcfg hload
      have hcli : inv.baselineFromCli = false := by
        rw [startBaseline, hcfg] at hfresh
        dsimp only at hfresh
        rw [hload] at hfresh
        by_contra hcli
        rw [Bool.not_eq_false] at hcli
        rw [hcli] at hfresh
        cases hfresh
      rw [h.deleted path hcfg hload hgone hcli, hstart.deleted path hcfg hload hgone hcli]

theorem Untouched.baselineOf {d d' : Disk} {cfg : Config Pattern} {baseline : Option Baseline}
    (h : Untouched inv d d' cfg) (hof : BaselineOf inv d cfg baseline) :
    BaselineOf inv d' cfg baseline where
  absent := hof.absent
  loaded := fun path value hcfg hload =>
    hof.loaded path value hcfg ((h.loadBaseline hcfg).1.trans hload)
  deleted := fun path hcfg hload hgone hcli =>
    hof.deleted path hcfg ((h.loadBaseline hcfg).1.trans hload)
      ((h.loadBaseline hcfg).2.trans hgone) hcli

end Baselines

/-! ## What every run keeps -/

section Runs

variable (τ : Timeline) (inv : Invocation Pattern Stub)

/-- The load of a moment gave the settings and the baseline, unless it failed. -/
structure Loaded (t : Nat) (s : WatchState Pattern Stub) : Prop where
  inputs : s.configBroken = false →
    loadInputs inv (τ.disk t) = some s.inputs ∧
      BaselineOf inv (τ.disk t) s.inputs.cfg s.baseline
  broken : s.configBroken = true → loadInputs inv (τ.disk t) = none

/-- A baseline is one that was loaded at some moment. -/
def FromFile (now : Nat) (baseline : Option Baseline) : Prop :=
  ∀ value, baseline = some value → ∃ t ≤ now, ∃ path, loadBaseline inv (τ.disk t) path = some value

structure Kept (now : Nat) (l : Loop Pattern Stub) : Prop where
  loadedAt : l.loadedAt ≤ now
  loaded : Loaded τ inv l.loadedAt l.state
  /-- The settings in use were loaded together. -/
  together : ∃ t ≤ now, loadInputs inv (τ.disk t) = some l.state.inputs
  fromFile : FromFile τ inv now l.state.baseline
  /-- The check on the screen was made with the state in use. -/
  state : l.shown.state = l.state
  moment : l.shown.moment ≤ now
  /-- The sources were stamped before they were checked. -/
  stamped : ∃ t ≤ l.shown.moment,
    l.sourceStamps = sourceInputs inv (τ.disk t) l.state.inputs l.shown.paths

variable {τ inv}

theorem FromFile.mono {now later : Nat} {baseline : Option Baseline}
    (h : FromFile τ inv now baseline) (hle : now ≤ later) : FromFile τ inv later baseline := by
  intro value hvalue
  obtain ⟨t, ht, hloaded⟩ := h value hvalue
  exact ⟨t, ht.trans hle, hloaded⟩

theorem fromFile_start {t : Nat} {cfg : Config Pattern} {baseline : Option Baseline}
    (h : startBaseline inv (τ.disk t) cfg = some baseline) : FromFile τ inv t baseline := by
  rintro value rfl
  unfold startBaseline at h
  split at h
  · cases h
  · rename_i path _
    split at h
    · rename_i found hload
      obtain rfl := Option.some.inj (Option.some.inj h)
      exact ⟨t, le_rfl, path, hload⟩
    · split at h <;> cases h

theorem fromFile_reload {t : Nat} {s : WatchState Pattern Stub} (h : FromFile τ inv t s.baseline) :
    FromFile τ inv t (reload inv (τ.disk t) s).baseline := by
  unfold reload
  split
  · rename_i inputs _
    unfold reloadBaseline
    dsimp only
    split
    · rintro value ⟨⟩
    · rename_i path _
      split
      · rename_i found hload
        rintro value hvalue
        obtain rfl := Option.some.inj hvalue
        exact ⟨t, le_rfl, path, hload⟩
      · split
        · rintro value ⟨⟩
        · exact h
  · exact h

theorem kept_start {m : Moments} (hm : m.AtStart) {l : Loop Pattern Stub}
    (h : start τ inv m = some l) : Kept τ inv m.checked l := by
  unfold start at h
  obtain ⟨state, hstate, h⟩ := Option.bind_eq_some_iff.mp h
  unfold startState at hstate
  obtain ⟨inputs, hinputs, hstate⟩ := Option.bind_eq_some_iff.mp hstate
  obtain ⟨baseline, hbaseline, hstate⟩ := Option.bind_eq_some_iff.mp hstate
  obtain rfl := Option.some.inj hstate
  have hbefore : m.loaded ≤ m.checked :=
    hm.rescanned.trans (hm.restamped.trans (hm.stamped.trans hm.checked))
  dsimp only at h
  split at h
  · cases h
  · split at h
    · cases h
    · obtain rfl := Option.some.inj h
      have hloaded : Loaded τ inv m.loaded ⟨inputs, baseline, false, false⟩ :=
        ⟨fun _ => ⟨hinputs, baselineOf_start hbaseline⟩, fun h => absurd h (by simp)⟩
      exact ⟨hbefore, hloaded, ⟨m.loaded, hbefore, hinputs⟩,
        (fromFile_start hbaseline).mono hbefore, rfl, le_rfl, m.stamped, hm.checked, rfl⟩

theorem loaded_reload (t : Nat) (s : WatchState Pattern Stub) :
    Loaded τ inv t (reload inv (τ.disk t) s) ∧
      ((reload inv (τ.disk t) s).inputs = s.inputs ∨
        loadInputs inv (τ.disk t) = some (reload inv (τ.disk t) s).inputs) := by
  unfold reload
  cases hload : loadInputs inv (τ.disk t) with
  | none => exact ⟨⟨fun h => absurd h (by simp), fun _ => hload⟩, .inl rfl⟩
  | some inputs =>
    dsimp only
    have hof := @baselineOf_reload _ _ inv (τ.disk t) { s with inputs, configBroken := false }
    refine ⟨⟨fun _ => ⟨?_, ?_⟩, fun h => ?_⟩, .inr ?_⟩
    · rw [reloadBaseline_inputs]
      exact hload
    · rw [reloadBaseline_inputs]
      exact hof
    · rw [reloadBaseline_configBroken] at h
      exact absurd h (by simp)
    · rw [reloadBaseline_inputs]

theorem kept_round {now : Nat} {l : Loop Pattern Stub} (hl : Kept τ inv now l) {m : Moments}
    (hm : m.InRound now) : Kept τ inv m.checked (round τ inv m l) := by
  have hloaded : m.loaded ≤ m.checked :=
    hm.restamped.trans (hm.rescanned.trans (hm.stamped.trans hm.checked))
  have hbefore : now ≤ m.loaded := hm.compared.trans hm.loaded
  have hnow : now ≤ m.checked := hbefore.trans hloaded
  unfold round
  split
  · obtain ⟨hload, horigin⟩ := @loaded_reload _ _ τ inv m.loaded l.state
    refine ⟨hloaded, hload, ?_, (fromFile_reload (hl.fromFile.mono hbefore)).mono hloaded, rfl,
      le_rfl, m.stamped, hm.checked, rfl⟩
    rcases horigin with hsame | hnew
    · obtain ⟨t, ht, hgood⟩ := hl.together
      exact ⟨t, ht.trans hnow, hgood.trans (congrArg some hsame.symm)⟩
    · exact ⟨m.loaded, hloaded, hnew⟩
  · obtain ⟨t, ht, hgood⟩ := hl.together
    split
    · exact ⟨hl.loadedAt.trans hnow, hl.loaded, ⟨t, ht.trans hnow, hgood⟩, hl.fromFile.mono hnow,
        hl.state, hl.moment.trans hnow, hl.stamped⟩
    · exact ⟨hl.loadedAt.trans hnow, hl.loaded, ⟨t, ht.trans hnow, hgood⟩, hl.fromFile.mono hnow,
        rfl, le_rfl, m.stamped, hm.checked, rfl⟩

theorem Watches.kept {now : Nat} {l : Loop Pattern Stub} (h : Watches τ inv now l) :
    Kept τ inv now l := by
  induction h with
  | start m hm h => exact kept_start hm h
  | round m _ hm ih => exact kept_round ih hm

/-! ## A small run -/

section Lone

/-- The file system of one source file. -/
def lone : Disk where
  symlinkMetadata p :=
    if p = ⟨true, []⟩ then some ⟨.dir, 0⟩ else if p = ⟨true, ["a.R"]⟩ then some ⟨.file, 6⟩ else none
  metadata p :=
    if p = ⟨true, []⟩ then some ⟨.dir, 0⟩ else if p = ⟨true, ["a.R"]⟩ then some ⟨.file, 6⟩ else none
  readDir p := if p = ⟨true, []⟩ then .ok ["a.R"] else .error "not a directory"
  readToString p := if p = ⟨true, ["a.R"]⟩ then some "x <- 1" else none
  absolute := some
  scopedPathIdentity := some
  modified _ := 7

theorem lone_lawful : lone.Lawful where
  tree := {
    listed := fun dir hdir => by
      have hroot : dir = ⟨true, []⟩ := by
        by_contra hne
        simp [FileSystem.isDir, lone, hne] at hdir
        split at hdir <;> simp at hdir
      subst hroot
      refine ⟨["a.R"], rfl, fun name => ?_⟩
      simp [lone, Path.join]
    parent_isDir := fun dir name _ h => by
      have hroot : dir = ⟨true, []⟩ := by
        obtain ⟨rooted, names⟩ := dir
        simp [lone, Path.join] at h
        obtain ⟨rfl, hnames⟩ := h
        cases names with
        | nil => rfl
        | cons first rest => simp at hnames
      subst hroot
      rfl
    empty := fun p hp => by
      obtain ⟨rooted, names⟩ := p
      simp [Path.isEmpty] at hp
      obtain ⟨rfl, rfl⟩ := hp
      rfl
    entry := fun _ h => h
    same := fun _ _ => rfl }
  unlisted := fun p hp => by
    have hne : p ≠ ⟨true, []⟩ := by
      rintro rfl
      exact absurd hp (by decide)
    exact ⟨"not a directory", if_neg hne⟩
  absolute := fun _ _ => rfl
  top := rfl
  present := fun p hp => by
    by_cases hfile : p = ⟨true, ["a.R"]⟩
    · subst hfile
      rfl
    · simp [lone, hfile] at hp

def loneTimeline : Timeline where
  disk _ := lone
  lawful _ := lone_lawful
  kept p _ _ _ := Disk.SameAt.refl lone p

def loneInvocation : Invocation String Unit where
  here := ⟨true, []⟩
  searchStart := ⟨true, ["a.R"]⟩
  searchRoots := [⟨true, ["a.R"]⟩]
  overrides := ⟨[], [], [], [], none, none, none, none, 0, 0⟩
  glob := ⟨some, fun pattern text => pattern == text, fun pattern text => pattern == text⟩
  toml _ := none
  baselineJson _ := none
  stubPackage _ := none
  parseTypeshed _ := none
  rooted := rfl

def loneState : WatchState String Unit :=
  (startState loneInvocation lone).get rfl

def loneLoop : Loop String Unit where
  state := loneState
  configStamps := configInputs loneInvocation lone loneState
  sourceStamps :=
    sourceInputs loneInvocation lone loneState.inputs
      (rescan loneInvocation lone loneState.inputs).paths
  shown := ⟨loneState, (rescan loneInvocation lone loneState.inputs).paths, 0⟩
  loadedAt := 0

theorem start_lone : start loneTimeline loneInvocation ⟨0, 0, 0, 0, 0, 0⟩ = some loneLoop := by
  have hstate : startState loneInvocation lone = some loneState := rfl
  have herrors : (rescan loneInvocation lone loneState.inputs).readErrors = [] := by
    simp only [rescan, loneInvocation, List.map_cons, List.map_nil, List.flatMap_cons,
      List.flatMap_nil, List.append_nil, Discovery.discoverRFiles]
    rw [if_pos (by decide)]
    split <;> simp [Discovery.Found.nothing, Discovery.dedupAdjacent]
  unfold start
  rw [show startState loneInvocation (loneTimeline.disk 0) = some loneState from hstate]
  dsimp only [bind, Option.bind]
  rw [if_neg (by decide), show loneTimeline.disk 0 = lone from rfl, herrors,
    if_neg (by simp)]
  rfl

theorem watches_lone : Watches loneTimeline loneInvocation 0 loneLoop :=
  .start ⟨0, 0, 0, 0, 0, 0⟩ ⟨le_rfl, le_rfl, le_rfl, le_rfl⟩ start_lone

end Lone

/-! ## The screen -/

/-- Whatever was edited, and whenever: the settings of the check on the screen were loaded together
at one moment, its baseline was read from a file, and the last load failed exactly when the run
takes the configuration to be broken. -/
theorem settings_of_one_load {now : Nat} {l : Loop Pattern Stub} (h : Watches τ inv now l) :
    (∃ t ≤ now, loadInputs inv (τ.disk t) = some l.shown.state.inputs) ∧
      FromFile τ inv now l.shown.state.baseline ∧
      (l.shown.state.configBroken = true ↔ loadInputs inv (τ.disk l.loadedAt) = none) := by
  have hkept := h.kept
  rw [hkept.state]
  refine ⟨hkept.together, hkept.fromFile, hkept.loaded.broken, fun hnone => ?_⟩
  by_contra hbroken
  have hload := (hkept.loaded.inputs (eq_false_of_ne_true hbroken)).1
  rw [hnone] at hload
  cases hload

theorem settings_of_one_load_lone :
    (∃ t ≤ 0, loadInputs loneInvocation (loneTimeline.disk t) = some loneLoop.shown.state.inputs) ∧
      FromFile loneTimeline loneInvocation 0 loneLoop.shown.state.baseline ∧
      (loneLoop.shown.state.configBroken = true ↔
        loadInputs loneInvocation (loneTimeline.disk loneLoop.loadedAt) = none) :=
  settings_of_one_load watches_lone

variable (τ inv)

/-- Nothing is edited while a round polls, loads and checks. -/
def Still (m : Moments) : Prop :=
  ∀ t, m.compared ≤ t → t ≤ m.checked → τ.disk t = τ.disk m.compared

/-- No configuration input was edited between the last load and the stamps taken after it; such an
edit is not noticed. -/
def QuietLoad (l : Loop Pattern Stub) : Prop :=
  configInputs inv (τ.disk l.loadedAt) l.state = l.configStamps

variable {τ inv}

theorem Moments.InRound.within {m : Moments} {now : Nat} (hm : m.InRound now) :
    m.compared ≤ m.rescanned ∧ m.rescanned ≤ m.checked ∧ m.compared ≤ m.stamped ∧
      m.loaded ≤ m.checked := by
  obtain ⟨-, hloaded, hrestamped, hrescanned, hstamped, hchecked⟩ := hm
  omega

/-- Equal stamps at two moments leave the inputs untouched. -/
theorem untouched_of_stamps {l : Loop Pattern Stub} {t : Nat} (hquiet : QuietLoad τ inv l)
    (hle : l.loadedAt ≤ t) (h : configInputs inv (τ.disk t) l.state = l.configStamps) :
    Untouched inv (τ.disk l.loadedAt) (τ.disk t) l.state.inputs.cfg := by
  obtain ⟨hpaths, htimes⟩ := stamps_agree (hquiet.trans h.symm)
  exact ⟨hpaths, fun p hp => τ.kept p hle le_rfl (htimes p hp)⟩

/-- What a fresh load of the same inputs would give is already in use. -/
theorem Loaded.eq_fresh {t t' : Nat} {s fresh : WatchState Pattern Stub} (h : Loaded τ inv t s)
    (hsame : Untouched inv (τ.disk t) (τ.disk t') s.inputs.cfg)
    (hfresh : loadInputs inv (τ.disk t') = some fresh.inputs) :
    s.inputs = fresh.inputs ∧ BaselineOf inv (τ.disk t') fresh.inputs.cfg s.baseline := by
  have hnotBroken : s.configBroken = false := by
    by_contra hbroken
    have hnone := h.broken (Bool.not_eq_false _ ▸ hbroken)
    rw [loadInputs, Option.map_eq_none_iff,
      hsame.loadSettings (τ.lawful t) (τ.lawful t')] at hnone
    rw [loadInputs, hnone] at hfresh
    cases hfresh
  obtain ⟨hload, hof⟩ := h.inputs hnotBroken
  have hinputs : s.inputs = fresh.inputs := by
    have hagain := hsame.loadInputs (τ.lawful t) (τ.lawful t') hload rfl
    exact Option.some.inj (hagain.symm.trans hfresh)
  exact ⟨hinputs, hinputs ▸ hsame.baselineOf hof⟩

/-- A round in which nothing is edited ends with the settings that a run started then would have,
and with its baseline, unless that one is there and broken. -/
theorem settings_settle {now : Nat} {l : Loop Pattern Stub} (h : Watches τ inv now l)
    (hquiet : QuietLoad τ inv l) {m : Moments} (hm : m.InRound now) (hstill : Still τ m)
    {fresh : WatchState Pattern Stub} (hfresh : startState inv (τ.disk m.compared) = some fresh) :
    (round τ inv m l).shown.state.inputs = fresh.inputs ∧
      (BaselineReadable inv (τ.disk m.compared) fresh.inputs.cfg →
        (round τ inv m l).shown.state.baseline = fresh.baseline) := by
  have hkept := h.kept
  unfold startState at hfresh
  obtain ⟨inputs, hinputs, hfresh⟩ := Option.bind_eq_some_iff.mp hfresh
  obtain ⟨baseline, hbaseline, hfresh⟩ := Option.bind_eq_some_iff.mp hfresh
  obtain rfl := Option.some.inj hfresh
  suffices hsettled : (round τ inv m l).shown.state.inputs = inputs ∧
      BaselineOf inv (τ.disk m.compared) inputs.cfg (round τ inv m l).shown.state.baseline from
    ⟨hsettled.1, fun hreadable => hsettled.2.eq_start hreadable hbaseline⟩
  by_cases hchanged : configInputs inv (τ.disk m.compared) l.state = l.configStamps
  · have hshown : (round τ inv m l).shown.state = l.state := by
      unfold round
      rw [if_neg (not_not_intro hchanged)]
      split
      · exact hkept.state
      · rfl
    have hsame := untouched_of_stamps hquiet (hkept.loadedAt.trans hm.compared) hchanged
    rw [hshown]
    exact @Loaded.eq_fresh _ _ τ inv l.loadedAt m.compared l.state ⟨inputs, baseline, false, false⟩
      hkept.loaded hsame hinputs
  · have hshown : (round τ inv m l).shown.state = reload inv (τ.disk m.compared) l.state := by
      unfold round
      rw [if_pos hchanged, ← hstill m.loaded hm.loaded hm.within.2.2.2]
      rfl
    rw [hshown, reload, hinputs]
    have hof := @baselineOf_reload _ _ inv (τ.disk m.compared)
      { l.state with inputs, configBroken := false }
    exact ⟨reloadBaseline_inputs _ _, hof⟩

theorem settings_settle_lone :
    (round loneTimeline loneInvocation ⟨0, 0, 0, 0, 0, 0⟩ loneLoop).shown.state.inputs =
        loneState.inputs ∧
      (BaselineReadable loneInvocation lone loneState.inputs.cfg →
        (round loneTimeline loneInvocation ⟨0, 0, 0, 0, 0, 0⟩ loneLoop).shown.state.baseline =
          loneState.baseline) :=
  settings_settle watches_lone rfl ⟨le_rfl, le_rfl, le_rfl, le_rfl, le_rfl, le_rfl⟩
    (fun _ _ _ => rfl) rfl

/-- A check is of what is there now: of the same files, unchanged, each in its package, whose
metadata is unchanged too. -/
structure Current (τ : Timeline) (inv : Invocation Pattern Stub) (d : Disk)
    (pass : Pass Pattern Stub) : Prop where
  paths : ∀ p, (∀ name ∈ metadataNames, p.fileName ≠ some name) →
    (p ∈ pass.paths ↔ p ∈ (rescan inv d pass.state.inputs).paths)
  sources : ∀ p ∈ pass.paths, Disk.SameAt (τ.disk pass.moment) d p
  packages : ∀ p ∈ pass.paths, ∀ dir, p.parent = some dir →
    packageRoot (τ.disk pass.moment).toFileSystem inv.here pass.state.inputs.configRoot dir =
      packageRoot d.toFileSystem inv.here pass.state.inputs.configRoot dir
  metadata : ∀ p ∈ pass.paths, ∀ dir root, p.parent = some dir →
    packageRoot d.toFileSystem inv.here pass.state.inputs.configRoot dir = some root →
      ∀ name ∈ metadataNames, Disk.SameAt (τ.disk pass.moment) d (root.join name)

/-- What is not metadata is watched only as a source. -/
theorem mem_sourcePaths {d : Disk} {inputs : Inputs Pattern Stub} {found : List Path} {p : Path}
    (hname : ∀ name ∈ metadataNames, p.fileName ≠ some name) :
    p ∈ sourcePaths inv d inputs found ↔ p ∈ found := by
  unfold sourcePaths
  rw [List.mem_append]
  refine ⟨fun h => h.elim id fun hmeta => ?_, .inl⟩
  obtain ⟨name, hmem, heq⟩ := fileName_of_mem_packageMetaPaths hmeta
  exact absurd heq (hname name hmem)

/-- A check of a moment is of what is there then. -/
theorem current_self (s : WatchState Pattern Stub) (t : Nat) :
    Current τ inv (τ.disk t) ⟨s, (rescan inv (τ.disk t) s.inputs).paths, t⟩ where
  paths := fun _ _ => Iff.rfl
  sources := fun p _ => Disk.SameAt.refl _ p
  packages := fun _ _ _ _ => rfl
  metadata := fun _ _ _ _ _ _ _ _ => Disk.SameAt.refl _ _

/-- Equal stamps of the sources leave the last check current. -/
theorem current_of_stamps {pass : Pass Pattern Stub} {before later : Nat}
    (hbefore : before ≤ pass.moment) (hlater : pass.moment ≤ later)
    (h : sourceInputs inv (τ.disk before) pass.state.inputs pass.paths =
      sourceInputs inv (τ.disk later) pass.state.inputs
        (rescan inv (τ.disk later) pass.state.inputs).paths) :
    Current τ inv (τ.disk later) pass := by
  obtain ⟨hpaths, htimes⟩ := stamps_agree h
  -- Nothing stamped was touched, neither before the check nor after it.
  have hcheck : ∀ p ∈ sourcePaths inv (τ.disk before) pass.state.inputs pass.paths,
      Disk.SameAt (τ.disk before) (τ.disk pass.moment) p := fun p hp =>
    τ.kept p hbefore hlater (htimes p hp)
  have hnow : ∀ p ∈ sourcePaths inv (τ.disk before) pass.state.inputs pass.paths,
      Disk.SameAt (τ.disk before) (τ.disk later) p := fun p hp =>
    τ.kept p (hbefore.trans hlater) le_rfl (htimes p hp)
  have hmeta : ∀ p ∈ packageMetaPaths (τ.disk before).toFileSystem inv.here inv.searchRoots
      pass.paths pass.state.inputs.configRoot,
      p ∈ sourcePaths inv (τ.disk before) pass.state.inputs pass.paths := fun p hp =>
    List.mem_append_right _ hp
  refine ⟨fun p hname => ?_, fun p hp => ?_, fun p hp dir hdir => ?_,
    fun p hp dir root hdir hroot name hmem => ?_⟩
  · rw [← mem_sourcePaths hname, hpaths, mem_sourcePaths hname]
  · have hmem := List.mem_append_left (packageMetaPaths (τ.disk before).toFileSystem inv.here
      inv.searchRoots pass.paths pass.state.inputs.configRoot) hp
    exact (hcheck p hmem).symm.trans (hnow p hmem)
  · have hthen := packageRoot_congr hp hdir fun q hq => hcheck q (hmeta q hq)
    have hafter := packageRoot_congr hp hdir fun q hq => hnow q (hmeta q hq)
    exact hthen.symm.trans hafter
  · have hbeforeRoot := packageRoot_congr hp hdir fun q hq => hnow q (hmeta q hq)
    have hwatched := hmeta _ (join_mem_packageMetaPaths hp hdir (hbeforeRoot.trans hroot) hmem)
    exact (hcheck _ hwatched).symm.trans (hnow _ hwatched)

/-- A round in which nothing is edited ends with a current check on the screen. -/
theorem sources_settle {now : Nat} {l : Loop Pattern Stub} (h : Watches τ inv now l) {m : Moments}
    (hm : m.InRound now) (hstill : Still τ m) :
    Current τ inv (τ.disk m.compared) (round τ inv m l).shown := by
  have hkept := h.kept
  obtain ⟨hrescanned, hrescannedChecked, hstamped, -⟩ := hm.within
  have hfresh : ∀ s : WatchState Pattern Stub, Current τ inv (τ.disk m.compared)
      ⟨s, (rescan inv (τ.disk m.rescanned) s.inputs).paths, m.checked⟩ := fun s => by
    rw [hstill m.rescanned hrescanned hrescannedChecked,
      ← hstill m.checked (hstamped.trans hm.checked) le_rfl]
    exact current_self s m.checked
  unfold round
  split
  · exact hfresh (reloaded τ inv m l).state
  · split
    · rename_i hsame
      obtain ⟨before, hbefore, hstamps⟩ := hkept.stamped
      rw [← hstill m.stamped hstamped hm.checked]
      rw [hstamps, ← hkept.state, sourcesAt, discovered, ← hkept.state,
        hstill m.rescanned hrescanned hrescannedChecked,
        ← hstill m.stamped hstamped hm.checked] at hsame
      have hlater : l.shown.moment ≤ m.stamped :=
        hkept.moment.trans (hm.compared.trans hstamped)
      exact current_of_stamps hbefore hlater hsame.symm
    · exact hfresh l.state

theorem sources_settle_lone :
    Current loneTimeline loneInvocation lone
      (round loneTimeline loneInvocation ⟨0, 0, 0, 0, 0, 0⟩ loneLoop).shown :=
  sources_settle watches_lone ⟨le_rfl, le_rfl, le_rfl, le_rfl, le_rfl, le_rfl⟩ fun _ _ _ => rfl

end Runs

end Ry.Watch
