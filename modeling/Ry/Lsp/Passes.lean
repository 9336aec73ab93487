import Ry.Lsp.InFlight

/-! # What a pass publishes, and what is still owed

What was requested goes from the queue to the pending set and from there to a pass, which puts
it back unless it publishes (`Covered`).
-/

namespace Ry

variable {Uri Tree Ast Error Ctx D : Type}

namespace Server

variable {s : Server Uri Tree Ast Error Ctx D}

/-! ## What is sent -/

/-- Nothing was sent but empty lists. -/
def OnlyClears (s s' : Server Uri Tree Ast Error Ctx D) : Prop :=
  ∃ uris : List Uri, s'.sent = uris.map (fun uri => ⟨uri, [], none⟩) ++ s.sent

theorem onlyClears_of_sent {s' : Server Uri Tree Ast Error Ctx D} (h : s'.sent = s.sent) :
    s.OnlyClears s' := ⟨[], h⟩

theorem onlyClears_request {s' : Server Uri Tree Ast Error Ctx D} (h : s.OnlyClears s')
    (names : Finset String) : s.OnlyClears (s'.request names) := by
  obtain ⟨uris, hsent⟩ := h
  exact ⟨uris, (s'.request_frame names).2.2.2.1.trans hsent⟩

section Steps

variable [LinearOrder Uri] (paths : UriPaths Uri) {g : Grammar Tree Ast Error}
  (a : Analyzer Uri Ast Error Ctx D)

theorem onlyClears_clear {s' : Server Uri Tree Ast Error Ctx D} (h : s'.sent = s.sent)
    (uris : Finset Uri) : s.OnlyClears (s'.clear uris) := by
  refine ⟨uris.sort (· ≤ ·), ?_⟩
  simp only [clear, h]

theorem onlyClears_take (world : World Ast Ctx) : s.OnlyClears (s.take paths world) := by
  unfold take
  split
  · exact onlyClears_of_sent rfl
  · dsimp only
    split
    · exact onlyClears_request (onlyClears_of_sent rfl) _
    · exact onlyClears_request (onlyClears_clear rfl _) _
    · unfold watchedFiles
      dsimp only
      split
      · exact onlyClears_of_sent rfl
      · exact onlyClears_request (onlyClears_of_sent rfl) _
      · exact onlyClears_of_sent rfl
      · exact onlyClears_request (onlyClears_of_sent rfl) _
    · exact onlyClears_request (onlyClears_of_sent rfl) _
    · unfold close
      dsimp only
      split
      · exact onlyClears_request (onlyClears_clear rfl _) _
      · split
        · exact onlyClears_clear rfl _
        · exact onlyClears_request (onlyClears_clear rfl _) _
    · exact onlyClears_of_sent rfl

/-- The commit of a pass whose generation is still the server's publishes. -/
def Publishes (s : Server Uri Tree Ast Error Ctx D) (event : ServerEvent Uri Tree Ast Error Ctx)
    (pass : Pass Uri Tree Ast) (files : List (PackageFile Ast)) : Prop :=
  event = .commit ∧ s.phase = .checking pass ∧ pass.files = some files ∧
    s.generation = pass.generation

/-- Only a commit that publishes sends anything but empty lists. -/
theorem sent_step (event : ServerEvent Uri Tree Ast Error Ctx) :
    s.OnlyClears (s.step paths g a event) ∨ ∃ pass files, s.Publishes event pass files ∧
      (s.step paths g a event).sent =
        ((s.outgoing a pass files).flatMap (s.publications paths a pass)).reverse ++ s.sent := by
  have hsame : (s.step paths g a event).sent = s.sent →
      s.OnlyClears (s.step paths g a event) := onlyClears_of_sent
  cases event with
  | didOpen | didClose | call | lock | land => exact .inl (hsame rfl)
  | didChange uri changes version =>
    dsimp only [step]
    split <;> exact .inl (onlyClears_of_sent rfl)
  | queue work => cases work <;> exact .inl (hsame rfl)
  | take world =>
    dsimp only [step]
    split
    · exact .inl (onlyClears_take paths world)
    · exact .inl (onlyClears_of_sent rfl)
  | due order =>
    dsimp only [step]
    split
    · split
      · unfold beginPass
        dsimp only
        split
        · exact .inl (onlyClears_request (onlyClears_of_sent rfl) _)
        · exact .inl (onlyClears_of_sent rfl)
      · exact .inl (onlyClears_of_sent rfl)
    · exact .inl (onlyClears_of_sent rfl)
  | parse =>
    dsimp only [step]
    split
    · unfold startParse
      split <;> exact .inl (onlyClears_of_sent rfl)
    · exact .inl (onlyClears_of_sent rfl)
  | gather =>
    dsimp only [step]
    split
    · unfold gather
      split <;> exact .inl (onlyClears_of_sent rfl)
    · exact .inl (onlyClears_of_sent rfl)
  | commit =>
    dsimp only [step]
    split
    · rename_i pass hphase
      unfold commit
      split
      · exact .inl (onlyClears_of_sent rfl)
      · rename_i files hfiles
        split
        · exact .inl (onlyClears_request (onlyClears_of_sent rfl) _)
        · rename_i hgeneration
          exact .inr ⟨pass, files, ⟨rfl, hphase, hfiles, not_not.mp hgeneration⟩, rfl⟩
    · exact .inl (onlyClears_of_sent rfl)
  | reconcile =>
    dsimp only [step]
    split
    · exact .inl (onlyClears_clear rfl _)
    · exact .inl (onlyClears_of_sent rfl)

end Steps

end Server

/-! ## What is owed -/

/-- The path that this work will request for its handler. -/
def Work.requested : Work Uri → Finset String
  | .publish path => {path}
  | .closed _ path true => {path}
  | _ => ∅

namespace Server

variable {s : Server Uri Tree Ast Error Ctx D}

/-- A request for the path is queued, pending with a pass armed, or in flight. -/
def Covered (s : Server Uri Tree Ast Error Ctx D) (path : String) : Prop :=
  (∃ work ∈ s.work, path ∈ work.requested) ∨ (path ∈ s.pending ∧ s.deadline = true) ∨
    ∃ pass, s.phase = .checking pass ∧ path ∈ pass.requested

/-- It is covered, or the writer has stopped. -/
def Accounted (s : Server Uri Tree Ast Error Ctx D) (path : String) : Prop :=
  (∃ work ∈ s.work, path ∈ work.requested) ∨ (path ∈ s.pending ∧ s.deadline = true) ∨
    (∃ pass, s.phase = .checking pass ∧ path ∈ pass.requested) ∨ s.phase = .stopped

theorem accounted_iff {path : String} :
    s.Accounted path ↔ s.Covered path ∨ s.phase = .stopped := by
  unfold Accounted Covered
  rw [or_assoc, or_assoc]

/-- A pass is armed exactly if something is pending. -/
def Armed (s : Server Uri Tree Ast Error Ctx D) : Prop :=
  s.deadline = true ↔ s.pending ≠ ∅

/-- What is requested is armed. -/
theorem request_armed (h : s.Armed) (names : Finset String) :
    (s.request names).Armed ∧ ∀ path ∈ s.pending ∪ names, (s.request names).Accounted path := by
  unfold request
  dsimp only
  split
  · rename_i hempty
    obtain ⟨hpending, -⟩ := Finset.union_eq_empty.mp hempty
    refine ⟨?_, fun path hmem => ?_⟩
    · unfold Armed at h ⊢
      dsimp only
      rw [hempty]
      rwa [hpending] at h
    · rw [hempty] at hmem
      exact absurd hmem (Finset.notMem_empty path)
  · rename_i hne
    exact ⟨iff_of_true rfl hne, fun path hmem => .inr (.inl ⟨hmem, rfl⟩)⟩

/-- What a request leaves covered. -/
theorem accounted_request (h : s.Armed) {names : Finset String} {path : String}
    (hpath : (∃ work ∈ s.work, path ∈ work.requested) ∨ path ∈ s.pending ∪ names) :
    (s.request names).Accounted path := by
  rcases hpath with ⟨work, hwork, hin⟩ | hmem
  · exact .inl ⟨work, (s.request_frame names).2.1.symm ▸ hwork, hin⟩
  · exact (request_armed h names).2 path hmem

/-- What is covered does not depend on documents, calls and records. -/
theorem Accounted.keep {s' : Server Uri Tree Ast Error Ctx D} {path : String} (h : s.Accounted path)
    (hwork : ∀ work ∈ s.work, work ∈ s'.work) (hpending : s'.pending = s.pending)
    (hdeadline : s'.deadline = s.deadline) (hphase : s'.phase = s.phase) : s'.Accounted path := by
  rcases h with ⟨work, hmem, hin⟩ | hpath | hpass | hstopped
  · exact .inl ⟨work, hwork work hmem, hin⟩
  · exact .inr (.inl (by rwa [hpending, hdeadline]))
  · exact .inr (.inr (.inl (by rwa [hphase])))
  · exact .inr (.inr (.inr (hphase.trans hstopped)))

theorem beginPass_armed (a : Analyzer Uri Ast Error Ctx D) (hidle : s.phase = .idle) (order : IterOrder) :
    (s.beginPass a order).Armed ∧ ∀ path, s.Accounted path → (s.beginPass a order).Accounted path := by
  have hempty : Armed { s with pending := ∅, deadline := false } := iff_of_false nofun (· rfl)
  have hcases : ∀ path, s.Accounted path →
      (∃ work ∈ s.work, path ∈ work.requested) ∨ path ∈ s.pending := by
    rintro path (hqueued | hpath | ⟨pass, hnow, -⟩ | hstopped)
    · exact .inl hqueued
    · exact .inr hpath.1
    · exact nomatch hidle.symm.trans hnow
    · exact nomatch hidle.symm.trans hstopped
  unfold beginPass
  dsimp only
  split
  · refine ⟨(request_armed hempty _).1, fun path hpath => accounted_request hempty ?_⟩
    exact (hcases path hpath).imp_right fun hmem => Finset.mem_union_right _ hmem
  · rename_i hwork
    refine ⟨hempty, fun path hpath => .inr (.inr (.inl ⟨_, rfl, ?_⟩))⟩
    refine (hcases path hpath).resolve_left fun ⟨work, hmem, _⟩ => ?_
    rw [not_not.mp hwork] at hmem
    exact absurd hmem List.not_mem_nil

section Owed

variable [LinearOrder Uri] (paths : UriPaths Uri) {g : Grammar Tree Ast Error}
  (a : Analyzer Uri Ast Error Ctx D)

/-- What the writer requests for one item of work. -/
def taken (s : Server Uri Tree Ast Error Ctx D) (world : World Ast Ctx) : Work Uri → Finset String
  | .configure => s.docs.paths
  | .folders removed => s.docs.paths.filter fun path => !removed.any (pathStartsWith path)
  | .watched =>
    match world.refreshed with
    | .nothing | .sources [] => ∅
    | .resolution => s.publishedUris.keys ∪ s.docs.paths
    | .sources names => names.toFinset ∪ s.docs.paths
  | .publish path => {path}
  | .closed _ path true => {path}
  | .closed _ _ false => s.docs.paths
  | .shutdown => ∅

/-- The paths a step requests a publication for: a handler through the queue, the writer for its
work. -/
def requests (paths : UriPaths Uri) (g : Grammar Tree Ast Error)
    (s : Server Uri Tree Ast Error Ctx D) :
    ServerEvent Uri Tree Ast Error Ctx → Finset String
  | .didOpen uri _ _ => {paths.toPath uri}
  | .didChange uri changes version =>
    if (s.docs.change paths g.editTree uri changes version).2 then {paths.toPath uri} else ∅
  | .didClose uri =>
    if (s.docs.close paths uri).contains (paths.toPath uri) then {paths.toPath uri} else ∅
  | .take world =>
    match s.phase, s.work with
    | .idle, work :: _ => s.taken world work
    | _, _ => ∅
  | _ => ∅

/-- The path whose last document's close the writer handles. -/
def lastClosed (s : Server Uri Tree Ast Error Ctx D) :
    ServerEvent Uri Tree Ast Error Ctx → Finset String
  | .take _ =>
    match s.phase, s.work with
    | .idle, .closed _ path false :: _ => {path}
    | _, _ => ∅
  | _ => ∅

/-- The step is a commit that publishes. -/
def publishesNow (s : Server Uri Tree Ast Error Ctx D) :
    ServerEvent Uri Tree Ast Error Ctx → Bool
  | .commit =>
    match s.phase with
    | .checking pass => pass.files.isSome && s.generation == pass.generation
    | _ => false
  | _ => false

/-- The paths requested since the last pass that published, less those that `drops` takes
away. -/
def requestedSince (drops : Server Uri Tree Ast Error Ctx D →
      ServerEvent Uri Tree Ast Error Ctx → Finset String)
    (paths : UriPaths Uri) (g : Grammar Tree Ast Error) (a : Analyzer Uri Ast Error Ctx D)
    (ctx : Ctx) (events : List (ServerEvent Uri Tree Ast Error Ctx)) :
    Server Uri Tree Ast Error Ctx D × Finset String :=
  events.foldl (fun (s, owed) event =>
    (s.step paths g a event,
      if s.publishesNow event then ∅ else owed \ drops s event ∪ s.requests paths g event))
    (start ctx, ∅)

/-- One item of work: what is requested is covered, and what was pending stays so, except for
the path of a last close. -/
theorem take_armed (h : s.Armed) (hidle : s.phase = .idle) (world : World Ast Ctx)
    {work : Work Uri} {rest : List (Work Uri)} (hwork : s.work = work :: rest) :
    (s.take paths world).Armed ∧ ∀ path,
      ((∃ work' ∈ rest, path ∈ work'.requested) ∨ path ∈ s.taken world work ∨
        path ∈ s.pending ∧ path ∉ s.lastClosed (.take world : ServerEvent Uri Tree Ast Error Ctx)) →
      (s.take paths world).Accounted path := by
  have hrequest : ∀ (s' : Server Uri Tree Ast Error Ctx D) names, s'.Armed → s'.work = rest →
      (s'.request names).Armed ∧ ∀ path,
        ((∃ work' ∈ rest, path ∈ work'.requested) ∨ path ∈ names ∨ path ∈ s'.pending) →
          (s'.request names).Accounted path := by
    rintro s' names harmed hrest
    refine ⟨(request_armed harmed names).1, fun path hpath => accounted_request harmed ?_⟩
    rw [hrest, Finset.mem_union, or_comm (a := path ∈ s'.pending)]
    exact hpath
  have hkeep : ∀ s' : Server Uri Tree Ast Error Ctx D, s'.Armed → s'.work = rest → ∀ path,
      ((∃ work' ∈ rest, path ∈ work'.requested) ∨ path ∈ s'.pending) → s'.Accounted path := by
    rintro s' harmed hrest path (hqueued | hpending)
    · exact .inl (hrest ▸ hqueued)
    · exact .inr (.inl ⟨hpending, harmed.mpr (Finset.ne_empty_of_mem hpending)⟩)
  have hdrop : ∀ {path : String} {P Q : Prop},
      (P ∨ Q ∨ path ∈ s.pending ∧
        path ∉ s.lastClosed (.take world : ServerEvent Uri Tree Ast Error Ctx)) →
      P ∨ Q ∨ path ∈ s.pending := fun hpath => hpath.imp_right (Or.imp_right And.left)
  unfold take
  rw [hwork]
  dsimp only
  cases work with
  | configure =>
    obtain ⟨harmed, hcovered⟩ := hrequest
      { s with work := rest, ctx := world.ctx, disk := world.disk, indexed := true } s.docs.paths h
      rfl
    exact ⟨harmed, fun path hpath => hcovered path (hdrop hpath)⟩
  | folders removed =>
    dsimp only [changeFolders]
    generalize hs' : clear (_ : Server Uri Tree Ast Error Ctx D) (_ : Finset Uri) = s'
    obtain ⟨harmed, hcovered⟩ := hrequest s' _ (hs' ▸ h) (hs' ▸ rfl)
    refine ⟨harmed, fun path hpath => hcovered path ?_⟩
    subst hs'
    exact hdrop hpath
  | watched =>
    dsimp only [watchedFiles, taken]
    cases world.refreshed with
    | nothing =>
      refine ⟨h, fun path hpath => hkeep { s with work := rest } h rfl path ?_⟩
      exact (hdrop hpath).imp_right fun hcase =>
        hcase.resolve_left (Finset.notMem_empty path)
    | resolution =>
      obtain ⟨harmed, hcovered⟩ := hrequest
        { s with work := rest, ctx := world.ctx, disk := world.disk, indexed := true } _ h rfl
      exact ⟨harmed, fun path hpath => hcovered path (hdrop hpath)⟩
    | sources names =>
      cases names with
      | nil =>
        refine ⟨h, fun path hpath => hkeep { s with work := rest } h rfl path ?_⟩
        exact (hdrop hpath).imp_right fun hcase =>
          hcase.resolve_left (Finset.notMem_empty path)
      | cons name names =>
        obtain ⟨harmed, hcovered⟩ := hrequest
          { s with work := rest, ctx := world.ctx, disk := world.disk } _ h rfl
        exact ⟨harmed, fun path hpath => hcovered path (hdrop hpath)⟩
  | publish path =>
    obtain ⟨harmed, hcovered⟩ := hrequest { s with work := rest } {path} h rfl
    exact ⟨harmed, fun path hpath => hcovered path (hdrop hpath)⟩
  | closed uri path shared =>
    cases shared with
    | true =>
      dsimp only [close]
      rw [if_pos rfl]
      generalize hs' : clear (_ : Server Uri Tree Ast Error Ctx D) (_ : Finset Uri) = s'
      obtain ⟨harmed, hcovered⟩ := hrequest s' {path} (hs' ▸ h) (hs' ▸ rfl)
      refine ⟨harmed, fun path hpath => hcovered path ?_⟩
      subst hs'
      exact hdrop hpath
    | false =>
      have hlast : ∀ path', path' ∈ s.pending ∧
          path' ∉ s.lastClosed (.take world : ServerEvent Uri Tree Ast Error Ctx) →
          path' ∈ s.pending.erase path := by
        rintro path' ⟨hmem, hnot⟩
        simp only [lastClosed, hidle, hwork, Finset.mem_singleton] at hnot
        exact Finset.mem_erase.mpr ⟨hnot, hmem⟩
      have hclosed : Armed { s with
          work := rest
          publishedUris := s.publishedUris.erase path
          pending := s.pending.erase path
          deadline := if s.pending.erase path = ∅ then false else s.deadline
          ctx := world.ctx
          disk := world.disk } := by
        unfold Armed at h ⊢
        dsimp only
        split
        · rename_i hempty
          exact iff_of_false nofun (not_not.mpr hempty)
        · rename_i hne
          have hpending : s.pending ≠ ∅ := fun hempty => hne (by rw [hempty]; rfl)
          exact iff_of_true (h.mpr hpending) hne
      dsimp only [close]
      rw [if_neg nofun]
      generalize hs' : clear (_ : Server Uri Tree Ast Error Ctx D) (_ : Finset Uri) = s'
      have harmed : s'.Armed := hs' ▸ hclosed
      have hrest : s'.work = rest := hs' ▸ rfl
      have hpending : s'.pending = s.pending.erase path := hs' ▸ rfl
      split
      · rename_i hnone
        refine ⟨harmed, fun path' hpath => hkeep s' harmed hrest path' (hpath.imp_right fun hcase => ?_)⟩
        rw [hpending]
        refine hlast path' (hcase.resolve_left fun hopen => ?_)
        rw [show s.taken world (.closed uri path false) = ∅ from hnone] at hopen
        exact absurd hopen (Finset.notMem_empty path')
      · obtain ⟨hnext, hcovered⟩ := hrequest s' s.docs.paths harmed hrest
        refine ⟨hnext, fun path' hpath => hcovered path' ?_⟩
        rw [hpending]
        exact hpath.imp_right (Or.imp_right (hlast path'))
  | shutdown => exact ⟨h, fun path _ => .inr (.inr (.inr rfl))⟩

theorem commit_armed (h : s.Armed) {pass : Pass Uri Tree Ast} (hnow : s.phase = .checking pass) :
    (s.commit paths a pass).Armed ∧ ∀ path, s.Accounted path →
      s.publishesNow (.commit : ServerEvent Uri Tree Ast Error Ctx) = false →
      (s.commit paths a pass).Accounted path := by
  unfold commit
  split
  · exact ⟨h, fun path hpath _ => hpath⟩
  · rename_i files hfiles
    split
    · have hidle : Armed { s with phase := .idle } := h
      refine ⟨(request_armed hidle _).1, fun path hpath _ => accounted_request hidle ?_⟩
      rcases hpath with hqueued | hpath | ⟨pass', hpass, hmem⟩ | hstopped
      · exact .inl hqueued
      · exact .inr (Finset.mem_union_left _ hpath.1)
      · obtain rfl := Phase.checking.inj (hnow.symm.trans hpass)
        exact .inr (Finset.mem_union_right _ hmem)
      · exact nomatch hnow.symm.trans hstopped
    · rename_i hgeneration
      refine ⟨h, fun path hpath hnot => ?_⟩
      simp [publishesNow, hnow, hfiles, not_not.mp hgeneration] at hnot

/-- One step: what is requested is covered, and what was covered stays so, except for the path of
a last close and when a pass publishes. -/
theorem accounted_step (h : s.Armed) (event : ServerEvent Uri Tree Ast Error Ctx) :
    (s.step paths g a event).Armed ∧
      (∀ path ∈ s.requests paths g event, (s.step paths g a event).Accounted path) ∧
      ∀ path, s.Accounted path → path ∉ s.lastClosed event → s.publishesNow event = false →
        (s.step paths g a event).Accounted path := by
  have hnone : ∀ {s' : Server Uri Tree Ast Error Ctx D}, ∀ path ∈ (∅ : Finset String),
      s'.Accounted path := fun path hmem => absurd hmem (Finset.notMem_empty path)
  have hqueue : ∀ (session : Session Uri Tree Ast Error) (work : Work Uri),
      (s.changed session work).Armed ∧ (∀ path ∈ work.requested, (s.changed session work).Accounted path) ∧
        ∀ path, s.Accounted path → (s.changed session work).Accounted path := fun session work =>
    ⟨h, fun path hmem => .inl ⟨work, List.mem_append_right _ (List.mem_singleton.mpr rfl), hmem⟩,
      fun path hpath => hpath.keep (fun _ => List.mem_append_left _) rfl rfl rfl⟩
  cases event with
  | didOpen uri text version =>
    obtain ⟨harmed, hnew, hold⟩ := hqueue (s.session.step paths g (.didOpen uri text version))
      (.publish (paths.toPath uri))
    exact ⟨harmed, hnew, fun path hpath _ _ => hold path hpath⟩
  | didChange uri changes version =>
    dsimp only [step, requests]
    split
    · obtain ⟨harmed, hnew, hold⟩ := hqueue
        (s.session.step paths g (.didChange uri changes version)) (.publish (paths.toPath uri))
      exact ⟨harmed, hnew, fun path hpath _ _ => hold path hpath⟩
    · exact ⟨h, hnone, fun path hpath _ _ => hpath⟩
  | didClose uri =>
    obtain ⟨harmed, hnew, hold⟩ := hqueue (s.session.step paths g (.didClose uri))
      (.closed uri (paths.toPath uri)
        ((s.session.step paths g (.didClose uri)).docs.contains (paths.toPath uri)))
    refine ⟨harmed, fun path hpath => hnew path ?_, fun path hpath _ _ => hold path hpath⟩
    dsimp only [requests] at hpath
    split at hpath
    · rename_i hcontains
      rw [show (s.session.step paths g (.didClose uri)).docs.contains (paths.toPath uri) = true from
        hcontains]
      exact hpath
    · exact absurd hpath (Finset.notMem_empty path)
  | queue work =>
    have hadd : ∀ work : Work Uri, Armed { s with work := s.work ++ [work] } ∧
        ∀ path, s.Accounted path → Accounted { s with work := s.work ++ [work] } path := fun work =>
      ⟨h, fun path hpath => hpath.keep (fun _ => List.mem_append_left _) rfl rfl rfl⟩
    cases work with
    | publish | closed => exact ⟨h, hnone, fun path hpath _ _ => hpath⟩
    | configure | folders | watched | shutdown =>
      exact ⟨(hadd _).1, hnone, fun path hpath _ _ => (hadd _).2 path hpath⟩
  | call | lock | land =>
    exact ⟨h, hnone, fun path hpath _ _ => hpath.keep (fun _ => id) rfl rfl rfl⟩
  | take world =>
    cases hnow : s.phase with
    | idle =>
      cases hwork : s.work with
      | nil =>
        simp only [step, hnow, take, hwork, requests]
        exact ⟨h, hnone, fun path hpath _ _ => hpath⟩
      | cons work rest =>
        obtain ⟨harmed, hcovered⟩ := take_armed paths h hnow world hwork
        simp only [step, hnow, requests, hwork]
        refine ⟨harmed, fun path hpath => hcovered path (.inr (.inl hpath)),
          fun path hpath hlast _ => hcovered path ?_⟩
        rcases hpath with ⟨work', hmem, hin⟩ | hpath | ⟨pass, hpass, -⟩ | hstopped
        · rw [hwork] at hmem
          rcases List.mem_cons.mp hmem with rfl | hrest
          · right; left
            cases work' with
            | publish path' => exact hin
            | closed uri path' shared =>
              cases shared with
              | true => exact hin
              | false => exact absurd hin (Finset.notMem_empty path)
            | _ => exact absurd hin (Finset.notMem_empty path)
          · exact .inl ⟨work', hrest, hin⟩
        · exact .inr (.inr ⟨hpath.1, hlast⟩)
        · exact absurd (hnow.symm.trans hpass) (by simp)
        · exact absurd (hnow.symm.trans hstopped) (by simp)
    | _ =>
      simp only [step, hnow, requests]
      exact ⟨h, hnone, fun path hpath _ _ => hpath⟩
  | due order =>
    dsimp only [step]
    split
    · rename_i hnow
      split
      · obtain ⟨harmed, hold⟩ := beginPass_armed a hnow order
        exact ⟨harmed, hnone, fun path hpath _ _ => hold path hpath⟩
      · exact ⟨h, hnone, fun path hpath _ _ => hpath⟩
    · exact ⟨h, hnone, fun path hpath _ _ => hpath⟩
  | parse =>
    dsimp only [step]
    split
    · rename_i pass hnow
      unfold startParse
      split
      · exact ⟨h, hnone, fun path hpath _ _ => hpath⟩
      · refine ⟨h, hnone, fun path hpath _ _ => ?_⟩
        rcases hpath with hqueued | hpath | ⟨pass', hpass, hmem⟩ | hstopped
        · exact .inl hqueued
        · exact .inr (.inl hpath)
        · obtain rfl := Phase.checking.inj (hnow.symm.trans hpass)
          exact .inr (.inr (.inl ⟨_, rfl, hmem⟩))
        · exact absurd (hnow.symm.trans hstopped) (by simp)
    · exact ⟨h, hnone, fun path hpath _ _ => hpath⟩
  | gather =>
    dsimp only [step]
    split
    · rename_i pass hnow
      unfold gather
      split
      · refine ⟨h, hnone, fun path hpath _ _ => ?_⟩
        rcases hpath with hqueued | hpath | ⟨pass', hpass, hmem⟩ | hstopped
        · exact .inl hqueued
        · exact .inr (.inl hpath)
        · obtain rfl := Phase.checking.inj (hnow.symm.trans hpass)
          exact .inr (.inr (.inl ⟨_, rfl, hmem⟩))
        · exact absurd (hnow.symm.trans hstopped) (by simp)
      · exact ⟨h, hnone, fun path hpath _ _ => hpath⟩
    · exact ⟨h, hnone, fun path hpath _ _ => hpath⟩
  | commit =>
    cases hnow : s.phase with
    | checking pass =>
      obtain ⟨harmed, hold⟩ := commit_armed paths a h hnow
      simp only [step, hnow]
      exact ⟨harmed, hnone, fun path hpath _ hnot => hold path hpath hnot⟩
    | _ =>
      simp only [step, hnow]
      exact ⟨h, hnone, fun path hpath _ _ => hpath⟩
  | reconcile =>
    dsimp only [step]
    split
    · rename_i requested published hnow
      refine ⟨h, hnone, fun path hpath _ _ => ?_⟩
      rcases hpath with hqueued | hpath | ⟨pass', hpass, hmem⟩ | hstopped
      · exact .inl hqueued
      · exact .inr (.inl hpath)
      · exact absurd (hnow.symm.trans hpass) (by simp)
      · exact absurd (hnow.symm.trans hstopped) (by simp)
    · exact ⟨h, hnone, fun path hpath _ _ => hpath⟩

/-! ## Runs -/

variable {paths a} {ctx : Ctx} {events : List (ServerEvent Uri Tree Ast Error Ctx)}
  {drops : Server Uri Tree Ast Error Ctx D → ServerEvent Uri Tree Ast Error Ctx → Finset String}

theorem requestedSince_append (event : ServerEvent Uri Tree Ast Error Ctx) :
    requestedSince drops paths g a ctx (events ++ [event]) =
      ((requestedSince drops paths g a ctx events).1.step paths g a event,
        if (requestedSince drops paths g a ctx events).1.publishesNow event then ∅
        else (requestedSince drops paths g a ctx events).2 \
            drops (requestedSince drops paths g a ctx events).1 event ∪
          (requestedSince drops paths g a ctx events).1.requests paths g event) := by
  unfold requestedSince
  rw [List.foldl_append]
  rfl

theorem requestedSince_server :
    (requestedSince drops paths g a ctx events).1 = run paths g a ctx events := by
  induction events using List.reverseRecOn with
  | nil => rfl
  | append_singleton events event ih => rw [requestedSince_append, run_append, ih]

theorem accounted_run :
    (run paths g a ctx events).Armed ∧
      ∀ path ∈ (requestedSince lastClosed paths g a ctx events).2,
        (run paths g a ctx events).Accounted path := by
  induction events using List.reverseRecOn with
  | nil => exact ⟨iff_of_false nofun (· rfl), fun path hmem => absurd hmem (Finset.notMem_empty path)⟩
  | append_singleton events event ih =>
    obtain ⟨harmed, howed⟩ := ih
    obtain ⟨hnext, hnew, hold⟩ := accounted_step paths (g := g) a harmed event
    rw [run_append]
    refine ⟨hnext, fun path hmem => ?_⟩
    rw [requestedSince_append, requestedSince_server] at hmem
    dsimp only at hmem
    split at hmem
    · exact absurd hmem (Finset.notMem_empty path)
    · rename_i hnot
      rcases Finset.mem_union.mp hmem with hkept | hrequested
      · obtain ⟨howing, hlast⟩ := Finset.mem_sdiff.mp hkept
        exact hold path (howed path howing) hlast (Bool.eq_false_iff.mpr hnot)
      · exact hnew path hrequested

end Owed

end Server

/-! ## An opened document -/

/-- A document is opened, a pass takes it, and its parse lands. -/
def openedEvents : List (ServerEvent (WithBot String) Nat Unit Unit Unit) :=
  [.queue .configure, .take (fileWorld .nothing), .reconcile, .didOpen "/a.R" ['x'] 1,
    .take (fileWorld .nothing), .due .sorted, .parse, .lock 0,
    .land 0 (.ok (⟨"/a.R", none, ['x'], ()⟩, some 1)), .gather]

/-- The call at `/a.R` parses the text `x`. -/
def Call.parsesLetter {Uri Ast : Type} (call : Call Uri Nat Ast Unit) : Bool :=
  match call.state with
  | .parsing seen => decide (call.path = "/a.R" ∧ seen.text = ['x'])
  | _ => false

def ServerEvent.isLand {Uri Tree Ast Error Ctx : Type} :
    ServerEvent Uri Tree Ast Error Ctx → Bool
  | .land .. => true
  | _ => false

theorem openedEvents_allowed :
    Server.AllowedRun spelledPaths lengthGrammar oneDiagnostic () openedEvents := by
  rintro before event after hsplit
  have hbefore : before = openedEvents.take before.length := by rw [hsplit, List.take_left]
  have hevent : openedEvents[before.length]? = some event := by rw [hsplit]; simp
  by_cases hlanding : before.length = 8
  · rw [hlanding] at hbefore hevent
    obtain rfl := Option.some.inj hevent
    intro path seen hcall
    have hseen : (Server.run spelledPaths lengthGrammar oneDiagnostic ()
        (openedEvents.take 8)).session.calls.head?.all (·.parsesLetter) = true := by
      decide +kernel
    rw [← hbefore, List.head?_eq_getElem?, hcall] at hseen
    obtain ⟨rfl, htext⟩ := of_decide_eq_true hseen
    rw [htext]
    exact .plain (by decide +kernel) rfl
  · have hland : ∀ k < 10, k ≠ 8 → (openedEvents[k]?.all fun event => !event.isLand) = true := by
      decide +kernel
    have hlt : before.length < openedEvents.length := by simp [hsplit]
    have hnot := hland before.length hlt hlanding
    rw [hevent] at hnot
    cases event with
    | land => cases hnot
    | _ => trivial

/-- The document is closed again before a pass is due. -/
def droppedEvents : List (ServerEvent (WithBot String) Nat Unit Unit Unit) :=
  [.didOpen "/a.R" ['x'] 1, .take (fileWorld .nothing), .didClose "/a.R",
    .take (fileWorld .nothing)]

end Ry
