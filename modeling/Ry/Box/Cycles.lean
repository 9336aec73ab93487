import Ry.Box.Modules
import Mathlib.Data.Set.Finite.Basic

/-! # Cyclic imports make a module opaque, and nothing else does

`opens` is the module a request names, apart from what is loading or cached.  The modules then
ask for each other's inventories, and `settled` gives each its inventory where those it asks for
have theirs.  A request keeps three things: what is cached is settled, what is loading leads to
what is asked for, and the flag tells whether something asked for has no inventory.
-/

namespace Ry.Box

variable {Finding Code Inventory : Type}

namespace Host

variable (host : Host Finding Code Inventory)

/-- The first candidate that is there, if it can be read and R accepts it. -/
def select : List Path → Option (Module Finding Code)
  | [] => none
  | candidate :: candidates =>
    match host.pathIdentity candidate with
    | none => none
    | some identity =>
      match host.locate candidate identity with
      | .file file => if rejectedByR file then none else some ⟨identity, canonical identity file⟩
      | .unreadable => none
      | .nextCandidate => select candidates

/-- The readable, accepted module that a request names. -/
def opens (caller : Path) (segments : List String) : Option (Module Finding Code) :=
  (moduleCandidates caller segments).bind host.select

/-- Paths with one identity name one file. -/
def SameFile : Prop :=
  ∀ path path', (host.pathIdentity path).isSome = true →
    host.pathIdentity path = host.pathIdentity path' →
      host.symlinkMetadata path = host.symlinkMetadata path' ∧
      host.metadata path = host.metadata path' ∧ host.parse path = host.parse path'

/-- Some request names the module. -/
def Opened (m : Module Finding Code) : Prop := ∃ caller segments, host.opens caller segments = some m

/-- The graph of the imports: `m` asks for `n` when its own imports answer `answer`. -/
def Imports (answer : Module Finding Code → Option Inventory) (m n : Module Finding Code) : Prop :=
  Asking.AsksFor (fun m => host.opens m.identity) (fun m => host.analysis m.file) answer m n

/-- The inventory of a module whose imports have theirs. -/
noncomputable def inventory (m : Module Finding Code) : Option Inventory :=
  Asking.settled (fun m => host.opens m.identity) (fun m => host.analysis m.file) m

variable {host}

/-! ## Identities -/

/-- A module is found at its identity. -/
theorem select_eq_some {candidates : List Path} {m : Module Finding Code}
    (h : host.select candidates = some m) :
    ∃ candidate file, host.pathIdentity candidate = some m.identity ∧
      host.locate candidate m.identity = .file file ∧ rejectedByR file = false ∧
        m.file = canonical m.identity file := by
  induction candidates with
  | nil => cases h
  | cons candidate candidates ih =>
    unfold select at h
    split at h
    · cases h
    · rename_i identity hidentity
      split at h
      · rename_i file hlocate
        split at h
        · cases h
        · rename_i haccepted
          obtain rfl := Option.some.inj h
          exact ⟨candidate, file, hidentity, hlocate, by simpa using haccepted, rfl⟩
      · cases h
      · exact ih h

theorem Opened.exists_candidate {m : Module Finding Code} (h : host.Opened m) :
    ∃ candidate file, host.pathIdentity candidate = some m.identity ∧
      host.locate candidate m.identity = .file file ∧ rejectedByR file = false ∧
        m.file = canonical m.identity file := by
  obtain ⟨caller, segments, hopens⟩ := h
  obtain ⟨candidates, -, hselect⟩ := Option.bind_eq_some_iff.mp hopens
  exact select_eq_some hselect

theorem SameFile.locate (hsame : host.SameFile) {path path' identity : Path}
    (h : host.pathIdentity path = some identity) (h' : host.pathIdentity path' = some identity) :
    host.locate path identity = host.locate path' identity := by
  obtain ⟨hprobe, hmetadata, hparse⟩ := hsame path path' (by rw [h]; rfl) (h.trans h'.symm)
  unfold Host.locate Host.readModule
  rw [hprobe, hmetadata, hparse]

/-- A candidate with the identity of an opened module is that module. -/
theorem Opened.locate (hsame : host.SameFile) {m : Module Finding Code} (h : host.Opened m)
    {candidate : Path} (hidentity : host.pathIdentity candidate = some m.identity) :
    ∃ file, host.locate candidate m.identity = .file file ∧ rejectedByR file = false ∧
      m.file = canonical m.identity file := by
  obtain ⟨candidate', file, hidentity', hlocate, haccepted, hfile⟩ := h.exists_candidate
  exact ⟨file, (hsame.locate hidentity hidentity').trans hlocate, haccepted, hfile⟩

theorem Opened.select (hsame : host.SameFile) {m : Module Finding Code} (h : host.Opened m)
    {candidate : Path} (hidentity : host.pathIdentity candidate = some m.identity)
    (candidates : List Path) : host.select (candidate :: candidates) = some m := by
  obtain ⟨file, hlocate, haccepted, hfile⟩ := h.locate hsame hidentity
  obtain ⟨identity, _⟩ := m
  obtain rfl : _ = canonical identity file := hfile
  unfold Host.select
  simp only [hidentity, hlocate, haccepted, Bool.false_eq_true, if_false]

theorem Opened.eq_of_identity (hsame : host.SameFile) {m m' : Module Finding Code}
    (h : host.Opened m) (h' : host.Opened m') (hidentity : m.identity = m'.identity) : m = m' := by
  obtain ⟨candidate, file, hcandidate, -⟩ := h.exists_candidate
  have hselect := h.select hsame hcandidate []
  rw [h'.select hsame (hidentity ▸ hcandidate) []] at hselect
  exact (Option.some.inj hselect).symm

/-! ## The graph -/

theorem inventory_eq (m : Module Finding Code) :
    host.inventory m = Asking.settleOnce (fun m => host.opens m.identity)
      (fun m => host.analysis m.file) host.inventory m :=
  (Asking.settleOnce_settled m).symm

/-- A module on a cycle has no inventory. -/
theorem inventory_of_cycle {m : Module Finding Code}
    (h : Relation.TransGen (host.Imports host.inventory) m m) : host.inventory m = none := by
  by_contra hsome
  refine Asking.not_reachesCycle_of_settled (n := m) ?_ ⟨m, Relation.ReflTransGen.refl, h⟩
  exact Option.isSome_iff_ne_none.mpr hsome

/-- Among finitely many modules, those without an inventory are those that reach a cycle. -/
theorem inventory_eq_none_iff (hsame : host.SameFile) {modules : Finset Path}
    (hmodules : ∀ m, host.Opened m → m.identity ∈ modules) {m : Module Finding Code}
    (h : host.Opened m) :
    host.inventory m = none ↔ Asking.ReachesCycle (host.Imports host.inventory) m := by
  classical
  constructor
  · intro hnone
    have hfinite : {m | host.Opened m}.Finite := by
      refine Set.Finite.of_finite_image (f := Module.identity) ?_ ?_
      · refine modules.finite_toSet.subset ?_
        rintro _ ⟨m, hm, rfl⟩
        exact hmodules m hm
      · intro m hm m' hm' hidentity
        exact hm.eq_of_identity hsame hm' hidentity
    refine Asking.reachesCycle_of_not_settled hfinite.toFinset ?_ ?_ hnone
    · intro n segments m hm
      exact hfinite.mem_toFinset.mpr ⟨n.identity, segments, hm⟩
    · exact hfinite.mem_toFinset.mpr h
  · intro hcycle
    by_contra hsome
    exact Asking.not_reachesCycle_of_settled (Option.isSome_iff_ne_none.mpr hsome) hcycle

end Host

/-! ## One request -/

variable {host : Host Finding Code Inventory}

variable (host) in
/-- What is cached is settled. -/
def Right (inventories : Inventories Inventory) : Prop :=
  ∀ identity answer, inventories identity = some answer →
    ∃ m, host.Opened m ∧ m.identity = identity ∧ host.inventory m = answer

variable (host) in
/-- A request for `target` ends with its inventory and keeps the cache right; the flag is raised
if and only if the target has none. -/
def Answered (target : Option (Module Finding Code)) (checking : Checking Inventory)
    (result : Option (Option Inventory × Checking Inventory)) : Prop :=
  ∃ checking', result = some (target.bind host.inventory, checking') ∧
    Right host checking'.inventories ∧ (checking'.boxCycle = true ↔
      checking.boxCycle = true ∨ ∃ m, target = some m ∧ host.inventory m = none)

theorem Right.update {inventories : Inventories Inventory} (h : Right host inventories)
    {m : Module Finding Code} (hm : host.Opened m) {answer : Option Inventory}
    (hanswer : host.inventory m = answer) :
    Right host (Function.update inventories m.identity (some answer)) := by
  intro identity cached hcached
  by_cases heq : identity = m.identity
  · subst heq
    rw [Function.update_self] at hcached
    exact ⟨m, hm, rfl, hanswer.trans (Option.some.inj hcached)⟩
  · rw [Function.update_of_ne heq] at hcached
    exact h identity cached hcached

/-- A nested checker ends with what the settled inventories make of the file, and its flag tells
whether something it asked for has none. -/
theorem analyze_right {m : Module Finding Code} {request : List String → Checking Inventory →
      Option (Option Inventory × Checking Inventory)}
    {analysis : Asking (List String) (Option Inventory) Inventory}
    (hrequest : ∀ segments ∈ analysis.asked (Asking.told (fun m => host.opens m.identity)
        host.inventory m), ∀ checking, Right host checking.inventories →
      Answered host (host.opens m.identity segments) checking (request segments checking))
    {checking : Checking Inventory} (hright : Right host checking.inventories) :
    ∃ checking', analyze request analysis checking = some (analysis.conclude
        (Asking.told (fun m => host.opens m.identity) host.inventory m), checking') ∧
      Right host checking'.inventories ∧ (checking'.boxCycle = true ↔ checking.boxCycle = true ∨
        ∃ segments ∈ analysis.asked (Asking.told (fun m => host.opens m.identity)
          host.inventory m), ∃ n, host.opens m.identity segments = some n ∧
            host.inventory n = none) := by
  induction analysis generalizing checking with
  | done inventory => exact ⟨checking, rfl, hright, by simp [Asking.asked]⟩
  | ask segments next ih =>
    obtain ⟨middle, hfirst, hmiddle, hflag⟩ := hrequest segments List.mem_cons_self checking hright
    obtain ⟨last, hrest, hlast, hflags⟩ := ih _ (fun segments' hmem =>
      hrequest segments' (List.mem_cons_of_mem _ hmem)) hmiddle
    refine ⟨last, ?_, hlast, ?_⟩
    · rw [analyze, hfirst]
      exact hrest
    · rw [hflags, hflag, or_assoc, Asking.asked]
      simp only [List.mem_cons, or_and_right, exists_or, exists_eq_left]

/-- The candidates, when what `load` makes of a module is right. -/
theorem tryCandidates_answered (hsame : host.SameFile) {boxLoading candidates : List Path}
    {load : Module Finding Code → Inventories Inventory →
      Option (Inventory × Checking Inventory)}
    (hopened : ∀ m, host.select candidates = some m → host.Opened m)
    (hloading : ∀ identity ∈ boxLoading, ∃ m, host.Opened m ∧ m.identity = identity ∧
      ∀ n, host.select candidates = some n →
        Relation.TransGen (host.Imports host.inventory) m n)
    (hload : ∀ m, host.select candidates = some m → m.identity ∉ boxLoading →
      ∀ inventories, Right host inventories → ∃ inventory nested,
        load m inventories = some (inventory, nested) ∧ Right host nested.inventories ∧
        host.inventory m = if nested.boxCycle then none else some inventory)
    {checking : Checking Inventory} (hright : Right host checking.inventories) :
    Answered host (host.select candidates) checking
      (tryCandidates host load boxLoading candidates checking) := by
  induction candidates with
  | nil => exact ⟨checking, rfl, hright, by simp [Host.select]⟩
  | cons candidate candidates ih =>
    unfold tryCandidates
    cases hidentity : host.pathIdentity candidate with
    | none =>
      have hselect : host.select (candidate :: candidates) = none := by
        simp only [Host.select, hidentity]
      rw [hselect]
      exact ⟨checking, rfl, hright, by simp⟩
    | some identity =>
      dsimp only
      by_cases hmem : identity ∈ boxLoading
      · -- what is loading leads to the target, and the target is what is loading
        obtain ⟨m, hm, rfl, hleads⟩ := hloading identity hmem
        have hselect := hm.select hsame hidentity candidates
        have hnone := Host.inventory_of_cycle (hleads m hselect)
        rw [if_pos hmem, hselect]
        refine ⟨{ checking with boxCycle := true }, ?_, hright, ?_⟩
        · rw [Option.bind_some, hnone]
        · simp [hnone]
      · rw [if_neg hmem]
        cases hcached : checking.inventories identity with
        | some answer =>
          obtain ⟨m, hm, rfl, hanswer⟩ := hright identity answer hcached
          rw [hm.select hsame hidentity candidates]
          refine ⟨{ checking with boxCycle := checking.boxCycle || answer.isNone }, ?_, hright, ?_⟩
          · rw [Option.bind_some, hanswer]
          · simp [hanswer]
        | none =>
          dsimp only
          cases hlocate : host.locate candidate identity with
          | unreadable =>
            have hselect : host.select (candidate :: candidates) = none := by
              simp only [Host.select, hidentity, hlocate]
            rw [hselect]
            exact ⟨checking, rfl, hright, by simp⟩
          | nextCandidate =>
            have hselect : host.select (candidate :: candidates) = host.select candidates := by
              simp only [Host.select, hidentity, hlocate]
            rw [hselect] at hopened hloading hload ⊢
            exact ih hopened hloading hload
          | file file =>
            dsimp only
            by_cases hrejected : rejectedByR file = true
            · have hselect : host.select (candidate :: candidates) = none := by
                simp only [Host.select, hidentity, hlocate, hrejected, if_true]
              rw [if_pos hrejected, hselect]
              exact ⟨checking, rfl, hright, by simp⟩
            · have hselect : host.select (candidate :: candidates) =
                  some ⟨identity, canonical identity file⟩ := by
                simp only [Host.select, hidentity, hlocate, hrejected]
                rfl
              obtain ⟨inventory, nested, hresult, hnested, hinventory⟩ :=
                hload _ hselect hmem checking.inventories hright
              rw [if_neg hrejected, hresult, hselect]
              refine ⟨_, congrArg (fun answer => some (answer, _)) hinventory.symm, ?_, ?_⟩
              · exact hnested.update (hopened _ hselect) hinventory
              · cases hcycle : nested.boxCycle <;> simp [hinventory, hcycle]

/-- A request ends within as many nested checkers as there are modules that are not loading, and
one more. -/
theorem boxModuleInventory_answered (hsame : host.SameFile) {modules : Finset Path}
    (hmodules : ∀ m, host.Opened m → m.identity ∈ modules) {depth : Nat} {boxLoading : List Path}
    (hdepth : (modules \ boxLoading.toFinset).card < depth) {caller : Path}
    {segments : List String}
    (hloading : ∀ identity ∈ boxLoading, ∃ m, host.Opened m ∧ m.identity = identity ∧
      ∀ n, host.opens caller segments = some n →
        Relation.TransGen (host.Imports host.inventory) m n)
    {checking : Checking Inventory} (hright : Right host checking.inventories) :
    Answered host (host.opens caller segments) checking
      (boxModuleInventory host depth boxLoading caller segments checking) := by
  induction depth generalizing boxLoading caller segments checking with
  | zero => cases hdepth
  | succ depth ih =>
    unfold boxModuleInventory
    cases hcandidates : moduleCandidates caller segments with
    | none =>
      have hopens : host.opens caller segments = none := by
        rw [Host.opens, hcandidates, Option.bind_none]
      rw [hopens]
      exact ⟨checking, rfl, hright, by simp⟩
    | some candidates =>
      have hopens : host.opens caller segments = host.select candidates := by
        rw [Host.opens, hcandidates, Option.bind_some]
      rw [hopens] at hloading ⊢
      refine tryCandidates_answered hsame (fun m hm => ⟨caller, segments, hopens.trans hm⟩) hloading
        ?_ hright
      intro m hm hfresh inventories hinventories
      have hopened : host.Opened m := ⟨caller, segments, hopens.trans hm⟩
      have hdeeper : (modules \ (boxLoading ++ [m.identity]).toFinset).card < depth := by
        have hmem : m.identity ∈ modules \ boxLoading.toFinset :=
          Finset.mem_sdiff.mpr ⟨hmodules m hopened, by simpa using hfresh⟩
        have herase : modules \ (boxLoading ++ [m.identity]).toFinset =
            (modules \ boxLoading.toFinset).erase m.identity := by
          ext p
          simp only [Finset.mem_sdiff, List.mem_toFinset, List.mem_append, List.mem_singleton,
            Finset.mem_erase]
          tauto
        rw [herase, Finset.card_erase_of_mem hmem]
        have hpos := Finset.card_pos.mpr ⟨_, hmem⟩
        omega
      have hrequest : ∀ segments' ∈ (host.analysis m.file).asked (Asking.told
          (fun m => host.opens m.identity) host.inventory m), ∀ checking,
          Right host checking.inventories →
            Answered host (host.opens m.identity segments') checking (boxModuleInventory host depth
              (boxLoading ++ [m.identity]) m.identity segments' checking) := by
        intro segments' hasked checking' hright'
        refine ih hdeeper ?_ hright'
        intro identity hidentity
        have himports : ∀ n, host.opens m.identity segments' = some n →
            host.Imports host.inventory m n := fun n hn => ⟨segments', hasked, hn⟩
        rcases List.mem_append.mp hidentity with hbefore | hlast
        · obtain ⟨m', hm', hidentity', hleads⟩ := hloading identity hbefore
          exact ⟨m', hm', hidentity', fun n hn => (hleads m hm).tail (himports n hn)⟩
        · obtain rfl := List.mem_singleton.mp hlast
          exact ⟨m, hopened, rfl, fun n hn => Relation.TransGen.single (himports n hn)⟩
      obtain ⟨nested, hresult, hnested, hflag⟩ := analyze_right hrequest
        (show Right host (Checking.mk inventories false).inventories from hinventories)
      refine ⟨_, nested, hresult, hnested, ?_⟩
      rw [Host.inventory_eq, Asking.settleOnce]
      have hopen : (∃ n, Asking.AsksFor (fun m => host.opens m.identity)
          (fun m => host.analysis m.file) host.inventory m n ∧ host.inventory n = none) ↔
            nested.boxCycle = true := by
        rw [hflag]
        constructor
        · rintro ⟨n, ⟨segments', hasked, hn⟩, hnone⟩
          exact Or.inr ⟨segments', hasked, n, hn, hnone⟩
        · rintro (hfalse | ⟨segments', hasked, n, hn, hnone⟩)
          · cases hfalse
          · exact ⟨n, ⟨segments', hasked, hn⟩, hnone⟩
      by_cases hcycle : nested.boxCycle = true
      · rw [if_pos (hopen.mpr hcycle), if_pos hcycle]
      · rw [if_neg (mt hopen.mp hcycle), if_neg hcycle]

/-! ## Whole runs -/

variable (host) in
/-- The answer to an event when each module answers for itself. -/
def expected (answer : Module Finding Code → Option Inventory) : Event → Option (Option Inventory)
  | .request _ caller segments => some ((host.opens caller segments).bind answer)
  | .forgetInventories => none

theorem answers_eq (hsame : host.SameFile) {modules : Finset Path}
    (hmodules : ∀ m, host.Opened m → m.identity ∈ modules) {depth : Nat}
    (hdepth : modules.card < depth) {inventories : Inventories Inventory}
    (hright : Right host inventories) (events : List Event) :
    answers host depth events inventories =
      some (events.filterMap (expected host host.inventory)) := by
  induction events generalizing inventories with
  | nil => rfl
  | cons event events ih =>
    cases event with
    | forgetInventories =>
      have hempty : Right host fun _ => (none : Option (Option Inventory)) := by
        intro identity answer hcached
        cases hcached
      exact ih hempty
    | request boxCycle caller segments =>
      have hone : Answered host (host.opens caller segments) ⟨inventories, boxCycle⟩
          (boxModuleInventory host depth [] caller segments ⟨inventories, boxCycle⟩) :=
        boxModuleInventory_answered hsame hmodules (by simpa using hdepth) (by simp) hright
      obtain ⟨checking, hresult, hchecking, -⟩ := hone
      rw [answers, hresult, Option.bind_some]
      dsimp only
      rw [ih hchecking]
      rfl

/-- Each module has one answer of its own, which no order of requests and nothing cached before
changes: none if and only if the module reaches an import cycle, and what its analysis makes of
its imports' answers otherwise.  Every request ends with the answer of the module it names. -/
theorem exists_answer (hsame : host.SameFile) {modules : Finset Path}
    (hmodules : ∀ m, host.Opened m → m.identity ∈ modules) :
    ∃ answer : Module Finding Code → Option Inventory,
      (∀ m, host.Opened m → (answer m = none ↔
        Asking.ReachesCycle (host.Imports answer) m)) ∧
      (∀ m inventory, answer m = some inventory → inventory = (host.analysis m.file).conclude
        fun segments => (host.opens m.identity segments).bind answer) ∧
      ∀ depth, modules.card < depth → ∀ events, answers host depth events (fun _ => none) =
        some (events.filterMap (expected host answer)) := by
  refine ⟨host.inventory, fun m hm => Host.inventory_eq_none_iff hsame hmodules hm, ?_, ?_⟩
  · intro m inventory hm
    rw [Host.inventory_eq, Asking.settleOnce] at hm
    split at hm
    · cases hm
    · exact (Option.some.inj hm).symm
  · intro depth hdepth events
    refine answers_eq hsame hmodules hdepth ?_ events
    intro identity answer hcached
    cases hcached

section Sample

/-- Files whose code is the list of their imports. -/
def importsInOrder : List (List String) → Asking (List String) (Option Unit) Unit
  | [] => .done ()
  | segments :: imports => .ask segments fun _ => importsInOrder imports

def buffer (path : Path) (imports : List (List String)) :
    SourceFile String (List (List String)) :=
  ⟨false, [], [], [], some path, imports⟩

/-- `a` imports `b`, `b` imports itself and `c`, and `c` imports nothing. -/
def threeModules : Host String (List (List String)) Unit where
  pathIdentity path := some { path with names := path.names.filter (· ≠ ".") }
  sources path :=
    if path = ⟨true, ["a.r"]⟩ then some (some (buffer path [[".", "b"]]))
    else if path = ⟨true, ["b.r"]⟩ then some (some (buffer path [[".", "b"], [".", "c"]]))
    else if path = ⟨true, ["c.r"]⟩ then some (some (buffer path []))
    else none
  symlinkMetadata _ := .notFound
  metadata _ := none
  parse _ := none
  analysis file := importsInOrder file.code

example : (threeModules.opens ⟨true, ["a.r"]⟩ [".", "b"]).map Module.identity =
    some ⟨true, ["b.r"]⟩ := by decide

theorem threeModules_identity (m : Module String (List (List String)))
    (h : threeModules.Opened m) :
    m.identity ∈ ({⟨true, ["a.r"]⟩, ⟨true, ["b.r"]⟩, ⟨true, ["c.r"]⟩} : Finset Path) := by
  obtain ⟨candidate, file, -, hlocate, -⟩ := h.exists_candidate
  by_contra hother
  simp only [Finset.mem_insert, Finset.mem_singleton, not_or] at hother
  simp [Host.locate, threeModules, hother] at hlocate

theorem exists_answer_threeModules :
    ∃ answer : Module String (List (List String)) → Option Unit,
      (∀ m, threeModules.Opened m → (answer m = none ↔
        Asking.ReachesCycle (threeModules.Imports answer) m)) ∧
      (∀ m inventory, answer m = some inventory → inventory =
        (threeModules.analysis m.file).conclude
          fun segments => (threeModules.opens m.identity segments).bind answer) ∧
      ∀ depth, 3 < depth → ∀ events, answers threeModules depth events (fun _ => none) =
        some (events.filterMap (expected threeModules answer)) :=
  exists_answer (fun _ _ _ _ => ⟨rfl, rfl, rfl⟩) threeModules_identity

end Sample

end Ry.Box
