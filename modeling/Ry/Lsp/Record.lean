import Ry.Lsp.Writer
import Ry.Lsp.OneParse
import Mathlib.Order.WithBot

/-! # The publication record

`published_uris` is to have exactly the URIs whose last publication carried diagnostics, each
under its display path.  A pass sends first and records afterwards, so while it reconciles
the record is what it will be (`Settled`).

Every step keeps this but one: the close of a path's last document drops the path's record and
clears only the document's own URI.
-/

namespace Ry

variable {Uri Tree Ast Error Ctx D : Type}

/-! ## What the client shows -/

/-- The diagnostics of a URI's last publication. -/
def lastSent [DecidableEq Uri] (sent : List (Publication Uri D)) (uri : Uri) : List D :=
  ((sent.find? (·.uri = uri)).map (·.diagnostics)).getD []

/-- A record is exact for what is shown. -/
def ExactFor (paths : UriPaths Uri) (record : Table String (Finset Uri)) (shown : Uri → List D) :
    Prop :=
  ∀ path uri, uri ∈ (record.lookup path).getD ∅ ↔ paths.toPath uri = path ∧ shown uri ≠ []

section Sent

variable [LinearOrder Uri] {sent : List (Publication Uri D)} {uri : Uri}

/-- Sending each of `uris` what `f` has for it. -/
theorem lastSent_map (uris : List Uri) (f : Uri → Publication Uri D) (hf : ∀ u, (f u).uri = u) :
    lastSent (uris.map f ++ sent) uri =
      if uri ∈ uris then (f uri).diagnostics else lastSent sent uri := by
  induction uris with
  | nil => simp
  | cons u uris ih =>
    by_cases hu : u = uri
    · subst hu
      simp [lastSent, hf]
    · have hskip : lastSent (((u :: uris).map f) ++ sent) uri = lastSent (uris.map f ++ sent) uri := by
        simp [lastSent, hf, hu]
      rw [hskip, ih]
      simp [Ne.symm hu]

theorem lastSent_clear (s : Server Uri Tree Ast Error Ctx D) (uris : Finset Uri) :
    lastSent (s.clear uris).sent uri = if uri ∈ uris then [] else lastSent s.sent uri := by
  refine (lastSent_map (uris.sort (· ≤ ·)) _ fun _ => rfl).trans ?_
  simp only [Finset.mem_sort]

end Sent

namespace Documents

/-- Documents are grouped by their display path. -/
def Keyed (paths : UriPaths Uri) (docs : Documents Uri Tree Ast) : Prop :=
  ∀ path, ∀ doc ∈ docs.docsAt path, paths.toPath doc.uri = path

variable [LinearOrder Uri] {paths : UriPaths Uri} {docs : Documents Uri Tree Ast}

theorem Keyed.toPath_of_mem_uris (h : docs.Keyed paths) {path : String} {uri : Uri}
    (huri : uri ∈ docs.uris paths path) : paths.toPath uri = path := by
  unfold uris at huri
  split at huri
  · rw [List.mem_singleton.mp huri, paths.toPath_toUri]
  · rw [List.mem_mergeSort] at huri
    obtain ⟨doc, hdoc, rfl⟩ := List.mem_map.mp huri
    exact h path doc hdoc

end Documents

namespace Session

variable [LinearOrder Uri] {paths : UriPaths Uri} {g : Grammar Tree Ast Error}

theorem keyed_step {s : Session Uri Tree Ast Error} (h : s.docs.Keyed paths)
    (event : SessionEvent Uri Tree Ast Error) : (s.step paths g event).docs.Keyed paths := by
  intro path doc hdoc
  cases event with
  | didOpen uri text version =>
    rcases s.docs.mem_docsAt_push List.filter_sublist hdoc with hold | ⟨rfl, rfl⟩
    · exact h path doc hold
    · rfl
  | didChange uri changes version =>
    simp only [Session.step, Documents.change] at hdoc
    split at hdoc
    · exact h path doc hdoc
    · rename_i found hfind
      split at hdoc
      · exact h path doc hdoc
      · rename_i edited hedited
        rcases s.docs.mem_docsAt_push List.eraseP_sublist hdoc with hold | ⟨rfl, rfl⟩
        · exact h path doc hold
        · have huri := (found.applyChanges_keeps g changes).1
          rw [hedited] at huri
          exact (congrArg paths.toPath huri).trans (h _ found (List.mem_of_find?_eq_some hfind))
  | didClose uri => exact h path doc ((s.docs.docsAt_close paths uri path).subset hdoc)
  | call path' => exact h path doc hdoc
  | lock i =>
    simp only [Session.step] at hdoc
    split at hdoc <;> exact h path doc hdoc
  | land i result =>
    simp only [Session.step] at hdoc
    split at hdoc
    · rename_i path' seen hi
      cases result with
      | error error => exact h path doc hdoc
      | ok parsed =>
        dsimp only at hdoc
        unfold Session.install at hdoc
        split at hdoc
        · exact h path doc hdoc
        · rename_i active hactive
          have hactive := (Option.filter_eq_some_iff.mp hactive).1
          split at hdoc
          · exact h path doc hdoc
          · rw [s.docs.docsAt_updateActive hactive] at hdoc
            split at hdoc
            · rename_i hpath
              subst hpath
              rcases List.mem_append.mp hdoc with hfirst | hlast
              · exact h path doc (List.mem_of_mem_dropLast hfirst)
              · rw [List.mem_singleton.mp hlast]
                exact h path active (s.docs.mem_of_active hactive)
            · exact h path doc hdoc
    · exact h path doc hdoc

end Session

/-! ## One path's publications -/

section Reconcile

variable [LinearOrder Uri] {paths : UriPaths Uri}

/-- What a path was sent, and who of it received diagnostics. -/
structure Published.Reports (p : Published Uri) (publications : List (Publication Uri D)) : Prop where
  other : ∀ sent uri, uri ∉ p.destinations →
    lastSent (publications.reverse ++ sent) uri = lastSent sent uri
  own : ∀ sent uri, uri ∈ p.destinations →
    (lastSent (publications.reverse ++ sent) uri ≠ [] ↔ uri ∈ p.nonEmpty)
  nonEmpty : p.nonEmpty ⊆ p.destinations

open Server (reconcilePath)

variable {record : Table String (Finset Uri)} {stale : Finset Uri} {sent : List (Publication Uri D)}

theorem lookup_reconcilePath (p : Published Uri) (path : String) :
    (((reconcilePath (record, stale) p).1).lookup path).getD ∅ =
      if path = p.path then p.nonEmpty else (record.lookup path).getD ∅ := by
  simp only [reconcilePath]
  split
  · rename_i hempty
    rw [Table.lookup_erase]
    split
    · rw [hempty]
      rfl
    · rfl
  · rw [Table.lookup_insert]
    split <;> rfl

/-- Sending one path and then recording it keeps the record exact, once what the path no
longer sends to is cleared. -/
theorem exactFor_reconcilePath {p : Published Uri} {publications : List (Publication Uri D)}
    (hreports : p.Reports publications) (hdestinations : ∀ uri ∈ p.destinations, paths.toPath uri = p.path)
    (hstale : ∀ uri ∈ p.destinations, uri ∉ stale)
    (h : ExactFor paths record fun uri => if uri ∈ stale then [] else lastSent sent uri) :
    ExactFor paths (reconcilePath (record, stale) p).1 fun uri =>
      if uri ∈ (reconcilePath (record, stale) p).2 then []
      else lastSent (publications.reverse ++ sent) uri := by
  intro path uri
  rw [lookup_reconcilePath]
  dsimp only
  have hmem : uri ∈ (reconcilePath (record, stale) p).2 ↔
      uri ∈ stale ∨ uri ∈ (record.lookup p.path).getD ∅ ∧ uri ∉ p.destinations := by
    simp [reconcilePath]
  by_cases hdest : uri ∈ p.destinations
  · have hkeep : uri ∉ (reconcilePath (record, stale) p).2 := by
      rw [hmem]
      exact fun hcase => hcase.elim (hstale uri hdest) fun hold => hold.2 hdest
    rw [if_neg hkeep, hreports.own sent uri hdest, hdestinations uri hdest]
    split
    · rename_i hpath
      exact (and_iff_right hpath.symm).symm
    · rename_i hpath
      rw [h]
      exact ⟨fun hold => absurd (hold.1.symm.trans (hdestinations uri hdest)) hpath,
        fun hold => absurd hold.1.symm hpath⟩
  · have hnot : uri ∉ p.nonEmpty := fun hin => hdest (hreports.nonEmpty hin)
    rw [hreports.other sent uri hdest]
    by_cases hold : uri ∈ (record.lookup p.path).getD ∅
    · rw [if_pos (hmem.mpr (.inr ⟨hold, hdest⟩))]
      have hpath := ((h p.path uri).mp hold).1
      split
      · exact iff_of_false hnot fun hboth => hboth.2 rfl
      · rename_i hne
        rw [h]
        exact iff_of_false (fun hboth => hne (hboth.1.symm.trans hpath)) fun hboth => hboth.2 rfl
    · have hsame : uri ∈ (reconcilePath (record, stale) p).2 ↔ uri ∈ stale := by
        rw [hmem]
        exact ⟨fun hcase => hcase.elim id fun hin => absurd hin.1 hold, .inl⟩
      simp only [hsame]
      split
      · rename_i hpath
        subst hpath
        exact iff_of_false hnot fun hboth => hold ((h _ uri).mpr hboth)
      · exact h path uri

/-- Recording all that was sent. -/
theorem exactFor_reconcilePaths {A : Type} {entries : List A} {published : A → Published Uri}
    {publications : A → List (Publication Uri D)} (destinations : String → Finset Uri)
    (hreports : ∀ e ∈ entries, (published e).Reports (publications e))
    (hentries : ∀ e ∈ entries, (published e).destinations = destinations (published e).path)
    (hdestinations : ∀ path, ∀ uri ∈ destinations path, paths.toPath uri = path)
    (hstale : ∀ uri ∈ stale, ∀ path, uri ∉ destinations path)
    (h : ExactFor paths record fun uri => if uri ∈ stale then [] else lastSent sent uri) :
    ExactFor paths ((entries.map published).foldl reconcilePath (record, stale)).1 fun uri =>
      if uri ∈ ((entries.map published).foldl reconcilePath (record, stale)).2 then []
      else lastSent ((entries.flatMap publications).reverse ++ sent) uri := by
  induction entries generalizing record stale sent with
  | nil => exact h
  | cons e entries ih =>
    have hown := hentries e List.mem_cons_self
    have hstep := exactFor_reconcilePath (hreports e List.mem_cons_self)
      (fun uri huri => hdestinations _ uri (hown ▸ huri))
      (fun uri huri hin => hstale uri hin _ (hown ▸ huri)) h
    simp only [List.map_cons, List.foldl_cons, List.flatMap_cons, List.reverse_append,
      List.append_assoc]
    refine ih (fun e' he' => hreports e' (List.mem_cons_of_mem e he'))
      (fun e' he' => hentries e' (List.mem_cons_of_mem e he')) (fun uri hin path huri => ?_) hstep
    simp only [Finset.mem_union, Finset.mem_sdiff] at hin
    rcases hin with hin | ⟨hold, hnot⟩
    · exact hstale uri hin path huri
    · -- a URI has one path, and a path one set of destinations
      have hpath := ((h _ uri).mp hold).1
      rw [hdestinations path uri huri] at hpath
      exact hnot (hown ▸ hpath ▸ huri)

end Reconcile

/-- Clearing what leaves the record. -/
theorem ExactFor.clear [DecidableEq Uri] {paths : UriPaths Uri}
    {record record' : Table String (Finset Uri)} {shown : Uri → List D}
    (h : ExactFor paths record shown) {cleared : Finset Uri}
    (hrecord : ∀ path uri, uri ∈ (record'.lookup path).getD ∅ ↔
      uri ∈ (record.lookup path).getD ∅ ∧ uri ∉ cleared) :
    ExactFor paths record' fun uri => if uri ∈ cleared then [] else shown uri := by
  intro path uri
  rw [hrecord, h]
  dsimp only
  split
  · rename_i hin
    exact iff_of_false (fun hboth => hboth.2 hin) fun hboth => hboth.2 rfl
  · rename_i hout
    exact ⟨fun hboth => hboth.1, fun hboth => ⟨hboth, hout⟩⟩

theorem cleared_twice [DecidableEq Uri] (stale cleared : Finset Uri) (uri : Uri)
    (shown : List D) :
    (if uri ∈ stale ∪ cleared then [] else shown) =
      if uri ∈ cleared then [] else if uri ∈ stale then [] else shown := by
  by_cases hstale : uri ∈ stale <;> by_cases hcleared : uri ∈ cleared <;> simp [hstale, hcleared]

namespace Server

variable {s : Server Uri Tree Ast Error Ctx D}

/-- What the pass sent and has not recorded yet. -/
def unrecorded (s : Server Uri Tree Ast Error Ctx D) : List (Published Uri) :=
  match s.phase with
  | .reconciling _ published => published
  | _ => []

theorem unrecorded_of_idle (h : s.phase = .idle) : s.unrecorded = [] := by
  simp [unrecorded, h]

theorem request_frame (s : Server Uri Tree Ast Error Ctx D) (names : Finset String) :
    (s.request names).session = s.session ∧ (s.request names).work = s.work ∧
      (s.request names).publishedUris = s.publishedUris ∧ (s.request names).sent = s.sent ∧
      ((s.request names).phase = s.phase ∨ (s.request names).phase = .reconciling ∅ []) := by
  unfold request
  dsimp only
  split
  · exact ⟨rfl, rfl, rfl, rfl, .inr rfl⟩
  · exact ⟨rfl, rfl, rfl, rfl, .inl rfl⟩

theorem unrecorded_request {names : Finset String} (h : s.unrecorded = []) :
    (s.request names).unrecorded = [] := by
  rcases (s.request_frame names).2.2.2.2 with hphase | hphase
  · unfold unrecorded at h ⊢
    rw [hphase]
    exact h
  · simp [unrecorded, hphase]

theorem sentTo_of_unrecorded (h : s.unrecorded = []) : ∃ destinations : String → Finset Uri,
    ∀ p ∈ s.unrecorded, p.destinations = destinations p.path ∧ p.nonEmpty ⊆ p.destinations :=
  ⟨fun _ => ∅, fun p hp => by simp [h] at hp⟩

theorem phase_request {names : Finset String} (h : names ≠ ∅) :
    (s.request names).phase = s.phase := by
  unfold request
  dsimp only
  rw [if_neg fun hempty => h (Finset.union_eq_empty.mp hempty).2]

theorem recorded_eq (s : Server Uri Tree Ast Error Ctx D) (path : String) :
    s.recorded path = (s.publishedUris.lookup path).getD ∅ := rfl

section Steps

variable [LinearOrder Uri] (paths : UriPaths Uri) {g : Grammar Tree Ast Error}
  (a : Analyzer Uri Ast Error Ctx D)

theorem publications_reports (s : Server Uri Tree Ast Error Ctx D) (pass : Pass Uri Tree Ast)
    (out : String × Option (List D)) :
    (s.published paths a pass out).Reports (s.publications paths a pass out) := by
  unfold published publications
  refine ⟨fun sent uri hnot => ?_, fun sent uri hin => ?_, fun uri hin => ?_⟩
  · rw [List.mem_toFinset] at hnot
    rw [← List.map_reverse, lastSent_map, if_neg (by simpa using hnot)]
    exact fun _ => rfl
  · rw [List.mem_toFinset] at hin
    rw [← List.map_reverse, lastSent_map, if_pos (by simpa using hin)]
    · simp only [List.mem_toFinset, List.mem_map, List.mem_filter]
      constructor
      · intro hne
        exact ⟨_, ⟨⟨uri, hin, rfl⟩, by simpa using hne⟩, rfl⟩
      · rintro ⟨publication, ⟨⟨uri', hin', rfl⟩, hne⟩, rfl⟩
        simpa using hne
    · exact fun _ => rfl
  · simp only [List.mem_toFinset, List.mem_map, List.mem_filter] at hin
    obtain ⟨publication, ⟨⟨uri', hin', rfl⟩, -⟩, rfl⟩ := hin
    exact List.mem_toFinset.mpr hin'

/-! ## Every step keeps it -/

/-- A URI is recorded, under its display path, exactly if its last publication carried
diagnostics. -/
def Exact (s : Server Uri Tree Ast Error Ctx D) : Prop :=
  ExactFor paths s.publishedUris (lastSent s.sent)

/-- The record is exact, once it knows of what was sent. -/
def Settled (s : Server Uri Tree Ast Error Ctx D) : Prop :=
  ExactFor paths (s.unrecorded.foldl reconcilePath (s.publishedUris, ∅)).1 fun uri =>
    if uri ∈ (s.unrecorded.foldl reconcilePath (s.publishedUris, ∅)).2 then []
    else lastSent s.sent uri

structure Kept (s : Server Uri Tree Ast Error Ctx D) : Prop where
  keyed : s.docs.Keyed paths
  passKeyed : ∀ pass, s.phase = .checking pass → pass.docs.Keyed paths
  works : ∀ uri path shared, .closed uri path shared ∈ s.work → paths.toPath uri = path
  settled : s.Settled paths
  /-- One pass sends a path to one set of URIs. -/
  sentTo : ∃ destinations : String → Finset Uri, ∀ p ∈ s.unrecorded,
    p.destinations = destinations p.path ∧ p.nonEmpty ⊆ p.destinations

variable {paths}

theorem settled_of_unrecorded (h : s.unrecorded = []) : s.Settled paths ↔ s.Exact paths := by
  simp [Settled, Exact, h]

/-- A request after which the record is exact. -/
theorem kept_request {names : Finset String} (hkeyed : s.docs.Keyed paths)
    (hwork : ∀ uri path shared, .closed uri path shared ∈ s.work → paths.toPath uri = path)
    (hphase : s.phase = .idle) (hexact : s.Exact paths) : (s.request names).Kept paths := by
  obtain ⟨hsession, hworks, hrecord, hsent, hnext⟩ := s.request_frame names
  have hnone : (s.request names).unrecorded = [] :=
    unrecorded_request (unrecorded_of_idle hphase)
  refine ⟨?_, fun pass hpass => ?_, hworks ▸ hwork, ?_, sentTo_of_unrecorded hnone⟩
  · unfold docs
    rw [hsession]
    exact hkeyed
  · rw [hpass, hphase] at hnext
    exact hnext.elim nofun nofun
  · rw [settled_of_unrecorded hnone, Exact, hrecord, hsent]
    exact hexact

/-- The close of a path's last document finds no other URI in the path's record. -/
def Tidy (s : Server Uri Tree Ast Error Ctx D) (event : ServerEvent Uri Tree Ast Error Ctx) :
    Prop :=
  ∀ world uri path, event = .take world → s.phase = .idle →
    s.work.head? = some (.closed uri path false) → s.recorded path ⊆ {uri}

/-- A URI is recorded only under its display path. -/
theorem Exact.toPath (h : s.Exact paths) {path : String} {uri : Uri}
    (huri : uri ∈ s.recorded path) : paths.toPath uri = path :=
  ((h path uri).mp huri).1

/-- After the record was cut down and the rest cleared. -/
theorem exact_clear (h : s.Exact paths) {publishedUris : Table String (Finset Uri)}
    {cleared : Finset Uri} (s' : Server Uri Tree Ast Error Ctx D) (hsent : s'.sent = s.sent)
    (hrecord' : s'.publishedUris = publishedUris)
    (hrecord : ∀ path uri, uri ∈ (publishedUris.lookup path).getD ∅ ↔
      uri ∈ s.recorded path ∧ uri ∉ cleared) : (s'.clear cleared).Exact paths := by
  have hexact := ExactFor.clear h hrecord
  intro path uri
  rw [lastSent_clear, hsent]
  exact hrecord' ▸ hexact path uri

theorem kept_close (hk : s.Kept paths) (hphase : s.phase = .idle) (world : World Ast Ctx)
    {uri : Uri} {path : String} {shared : Bool} (hpath : paths.toPath uri = path)
    (htidy : shared = false → s.recorded path ⊆ {uri}) :
    (s.close world uri path shared).Kept paths := by
  have hexact := (settled_of_unrecorded (unrecorded_of_idle hphase)).mp hk.settled
  have hself : ∀ path' uri', uri' ∈ s.recorded path' → path' ≠ path → uri' ≠ uri := by
    rintro path' uri' huri' hne rfl
    exact hne ((hexact.toPath huri').symm.trans hpath)
  unfold close
  cases shared with
  | true =>
    rw [if_pos rfl]
    refine kept_request hk.keyed hk.works hphase (exact_clear hexact _ rfl rfl ?_)
    intro path' uri'
    have hlookup : (Finmap.lookup path' (if (s.recorded path).erase uri = ∅ then
        s.publishedUris.erase path else s.publishedUris.insert path ((s.recorded path).erase uri))).getD
          ∅ = if path' = path then (s.recorded path).erase uri else s.recorded path' := by
      split
      · rename_i hempty
        rw [Table.lookup_erase, hempty]
        split <;> rfl
      · rw [Table.lookup_insert]
        split <;> rfl
    rw [hlookup, Finset.mem_singleton]
    split
    · rename_i hsame
      rw [hsame, Finset.mem_erase, and_comm]
    · rename_i hne
      exact (and_iff_left_of_imp fun huri' => hself path' uri' huri' hne).symm
  | false =>
    rw [if_neg nofun]
    have hclosed : ∀ path' uri', uri' ∈ ((s.publishedUris.erase path).lookup path').getD ∅ ↔
        uri' ∈ s.recorded path' ∧ uri' ∉ ({uri} : Finset Uri) := by
      intro path' uri'
      rw [Table.lookup_erase, Finset.mem_singleton]
      split
      · rename_i hsame
        subst hsame
        refine iff_of_false (Finset.notMem_empty uri') fun hboth => hboth.2 ?_
        exact Finset.mem_singleton.mp (htidy rfl hboth.1)
      · rename_i hne
        exact (and_iff_left_of_imp fun huri' => hself path' uri' huri' hne).symm
    dsimp only
    split
    · have hcleared := exact_clear hexact
        { s with
          publishedUris := s.publishedUris.erase path
          pending := s.pending.erase path
          deadline := if s.pending.erase path = ∅ then false else s.deadline
          ctx := world.ctx
          disk := world.disk } rfl rfl hclosed
      refine ⟨hk.keyed, fun pass hpass => (nomatch hphase.symm.trans hpass), hk.works, ?_,
        sentTo_of_unrecorded (unrecorded_of_idle hphase)⟩
      refine (settled_of_unrecorded (unrecorded_of_idle ?_)).mpr hcleared
      exact hphase
    · exact kept_request hk.keyed hk.works hphase (exact_clear hexact _ rfl rfl hclosed)

theorem kept_changeFolders (hk : s.Kept paths) (hphase : s.phase = .idle) (world : World Ast Ctx)
    (removed : List String) : (s.changeFolders paths world removed).Kept paths := by
  have hexact := (settled_of_unrecorded (unrecorded_of_idle hphase)).mp hk.settled
  unfold changeFolders
  refine kept_request hk.keyed hk.works hphase (exact_clear hexact _ rfl rfl fun path uri => ?_)
  have hlookup : ((Table.retain s.publishedUris fun path _ =>
      !removed.any (pathStartsWith path)).lookup path).getD ∅ =
      if removed.any (pathStartsWith path) then ∅ else s.recorded path := by
    rw [Table.lookup_retain, recorded_eq]
    cases s.publishedUris.lookup path <;> cases removed.any (pathStartsWith path) <;> rfl
  rw [hlookup]
  simp only [Finset.mem_union, Finset.mem_biUnion, Finset.mem_filter, List.mem_toFinset, not_or]
  split
  · rename_i hunder
    refine iff_of_false (Finset.notMem_empty uri) fun ⟨huri, _, hnot⟩ => hnot ⟨path, ⟨?_, hunder⟩, huri⟩
    rw [Table.mem_keys_iff]
    rw [recorded_eq] at huri
    cases h : s.publishedUris.lookup path with
    | none => simp [h] at huri
    | some uris => rfl
  · rename_i hkept
    refine (and_iff_left_of_imp fun huri => ⟨?_, ?_⟩).symm
    · rintro ⟨path', ⟨-, hunder⟩, huri'⟩
      have hsame := (hk.keyed.toPath_of_mem_uris huri').symm.trans (hexact.toPath huri)
      exact hkept (hsame ▸ hunder)
    · rintro ⟨path', ⟨-, hunder⟩, huri'⟩
      have hsame := (hexact.toPath huri').symm.trans (hexact.toPath huri)
      exact hkept (hsame ▸ hunder)

theorem kept_take (hk : s.Kept paths) (hphase : s.phase = .idle) (world : World Ast Ctx)
    (htidy : s.Tidy (.take world : ServerEvent Uri Tree Ast Error Ctx)) :
    (s.take paths world).Kept paths := by
  unfold take
  split
  · exact hk
  · rename_i work rest hwork
    have hrest : ∀ uri path shared, .closed uri path shared ∈ rest → paths.toPath uri = path :=
      fun uri path shared hmem => hk.works uri path shared (hwork ▸ List.mem_cons_of_mem work hmem)
    have hk' : Kept paths { s with work := rest } :=
      ⟨hk.keyed, hk.passKeyed, hrest, hk.settled, hk.sentTo⟩
    have hexact := (settled_of_unrecorded (unrecorded_of_idle hphase)).mp hk.settled
    dsimp only
    cases work with
    | configure => exact kept_request hk.keyed hrest hphase hexact
    | folders removed => exact kept_changeFolders hk' hphase world removed
    | watched =>
      dsimp only [watchedFiles]
      split
      · exact hk'
      · exact kept_request hk.keyed hrest hphase hexact
      · exact hk'
      · exact kept_request hk.keyed hrest hphase hexact
    | publish path => exact kept_request hk.keyed hrest hphase hexact
    | closed uri path shared =>
      refine kept_close hk' hphase world (hk.works uri path shared (hwork ▸ List.mem_cons_self))
        fun hshared => ?_
      subst hshared
      exact htidy world uri path rfl hphase (by rw [hwork]; rfl)
    | shutdown =>
      exact ⟨hk.keyed, nofun, hrest, (settled_of_unrecorded rfl).mpr hexact,
        sentTo_of_unrecorded rfl⟩

/-- A step of the session alone. -/
theorem Kept.session (hk : s.Kept paths) {session : Session Uri Tree Ast Error}
    (hkeyed : session.docs.Keyed paths) : Kept paths { s with session } :=
  ⟨hkeyed, hk.passKeyed, hk.works, hk.settled, hk.sentTo⟩

theorem kept_changed (hk : s.Kept paths) {session : Session Uri Tree Ast Error}
    (hkeyed : session.docs.Keyed paths) {work : Work Uri}
    (hwork : ∀ uri path shared, work = .closed uri path shared → paths.toPath uri = path) :
    (s.changed session work).Kept paths := by
  refine ⟨hkeyed, hk.passKeyed, fun uri path shared hmem => ?_, hk.settled, hk.sentTo⟩
  rcases List.mem_append.mp hmem with hold | hnew
  · exact hk.works uri path shared hold
  · exact hwork uri path shared (List.mem_singleton.mp hnew).symm

theorem kept_beginPass (hk : s.Kept paths) (hphase : s.phase = .idle) (order : IterOrder) :
    (s.beginPass a order).Kept paths := by
  have hexact := (settled_of_unrecorded (unrecorded_of_idle hphase)).mp hk.settled
  unfold beginPass
  dsimp only
  split
  · exact kept_request hk.keyed hk.works hphase hexact
  · refine ⟨hk.keyed, fun pass hpass => ?_, hk.works, (settled_of_unrecorded rfl).mpr hexact,
      sentTo_of_unrecorded rfl⟩
    obtain rfl := Phase.checking.inj hpass
    exact hk.keyed

theorem kept_commit (hk : s.Kept paths) {pass : Pass Uri Tree Ast} (hphase : s.phase = .checking pass) :
    (s.commit paths a pass).Kept paths := by
  have hnone : s.unrecorded = [] := by simp [unrecorded, hphase]
  have hexact := (settled_of_unrecorded hnone).mp hk.settled
  unfold commit
  split
  · exact hk
  · split
    · exact kept_request hk.keyed hk.works rfl hexact
    · refine ⟨hk.keyed, nofun, hk.works, ?_,
        fun path => (pass.docs.uris paths path).toFinset, fun p hp => ?_⟩
      swap
      · obtain ⟨out, -, rfl⟩ := List.mem_map.mp hp
        exact ⟨rfl, (publications_reports paths a s pass out).nonEmpty⟩
      refine exactFor_reconcilePaths (fun path => (pass.docs.uris paths path).toFinset)
        (fun out _ => publications_reports paths a s pass out) (fun _ _ => rfl)
        (fun path uri huri => ?_) (fun uri huri => absurd huri (Finset.notMem_empty uri)) hexact
      exact (hk.passKeyed pass hphase).toPath_of_mem_uris (List.mem_toFinset.mp huri)

theorem kept_reconcile (hk : s.Kept paths) {requested : Finset String}
    {published : List (Published Uri)} (hphase : s.phase = .reconciling requested published) :
    (s.reconcile paths a requested published).Kept paths := by
  have hsettled := hk.settled
  have hunrecorded : s.unrecorded = published := by simp [unrecorded, hphase]
  rw [Settled, hunrecorded] at hsettled
  unfold reconcile
  generalize published.foldl reconcilePath (s.publishedUris, ∅) = state at hsettled ⊢
  obtain ⟨record, stale⟩ := state
  dsimp only at hsettled ⊢
  let dropped := record.keys.filter fun path =>
    !s.anyOpenSourceEligible a path ||
      (!s.docs.contains path && (s.disk.lookup path).isNone)
  have hlookup : ∀ path, ((Table.retain record fun path _ => decide (path ∉ dropped)).lookup path).getD
      ∅ = if path ∈ dropped then ∅ else (record.lookup path).getD ∅ := by
    intro path
    rw [Table.lookup_retain]
    split
    · rename_i hin
      cases record.lookup path <;> simp [hin]
    · rename_i hout
      cases record.lookup path <;> simp [hout, Option.filter]
  have hrecord : ∀ path uri,
      uri ∈ ((Table.retain record fun path _ => decide (path ∉ dropped)).lookup path).getD ∅ ↔
        uri ∈ (record.lookup path).getD ∅ ∧
          uri ∉ (requested.filter (!s.anyOpenSourceEligible a ·)).biUnion (fun path =>
            (s.docs.uris paths path).toFinset) ∪
            dropped.biUnion fun path => (record.lookup path).getD ∅ := by
    intro path uri
    rw [hlookup]
    simp only [Finset.mem_union, Finset.mem_biUnion, Finset.mem_filter, List.mem_toFinset, not_or]
    split
    · rename_i hin
      exact iff_of_false (Finset.notMem_empty uri) fun ⟨huri, _, hnot⟩ => hnot ⟨path, hin, huri⟩
    · rename_i hout
      refine (and_iff_left_of_imp fun huri => ⟨?_, ?_⟩).symm
      · rintro ⟨path', ⟨-, hineligible⟩, huri'⟩
        obtain rfl := (hk.keyed.toPath_of_mem_uris huri').symm.trans ((hsettled path uri).mp huri).1
        refine hout (Finset.mem_filter.mpr ⟨?_, by rw [hineligible, Bool.true_or]⟩)
        rw [Table.mem_keys_iff]
        cases h : record.lookup path' with
        | none => simp [h] at huri
        | some uris => rfl
      · rintro ⟨path', hin, huri'⟩
        obtain rfl := ((hsettled path' uri).mp huri').1.symm.trans ((hsettled path uri).mp huri).1
        exact hout hin
  refine ⟨hk.keyed, nofun, hk.works, (settled_of_unrecorded rfl).mpr fun path uri => ?_,
    sentTo_of_unrecorded rfl⟩
  rw [lastSent_clear, Finset.union_assoc, cleared_twice]
  exact ExactFor.clear hsettled hrecord path uri

theorem kept_step (hk : s.Kept paths) (event : ServerEvent Uri Tree Ast Error Ctx)
    (htidy : s.Tidy event) : (s.step paths g a event).Kept paths := by
  have hsession := fun event' => Session.keyed_step (g := g) hk.keyed event'
  cases event with
  | didOpen uri text version => exact kept_changed hk (hsession _) nofun
  | didChange uri changes version =>
    dsimp only [step]
    split
    · exact kept_changed hk (hsession _) nofun
    · exact hk
  | didClose uri =>
    refine kept_changed hk (hsession _) fun uri' path shared hwork => ?_
    obtain ⟨rfl, rfl, -⟩ := Work.closed.inj hwork
    rfl
  | queue work =>
    have hadd : ∀ w : Work Uri, (∀ uri path shared, w ≠ .closed uri path shared) →
        Kept paths { s with work := s.work ++ [w] } := by
      refine fun w hw => ⟨hk.keyed, hk.passKeyed, fun uri path shared hmem => ?_, hk.settled,
        hk.sentTo⟩
      rcases List.mem_append.mp hmem with hold | hnew
      · exact hk.works uri path shared hold
      · exact absurd (List.mem_singleton.mp hnew).symm (hw uri path shared)
    cases work with
    | publish | closed => exact hk
    | configure | folders | watched | shutdown => exact hadd _ nofun
  | call path => exact hk.session (hsession _)
  | lock call => exact hk.session (hsession _)
  | land call result => exact hk.session (hsession _)
  | take world =>
    dsimp only [step]
    split
    · rename_i hphase
      exact kept_take hk hphase world htidy
    · exact hk
  | due order =>
    dsimp only [step]
    split
    · rename_i hphase
      split
      · exact kept_beginPass a hk hphase order
      · exact hk
    · exact hk
  | parse =>
    dsimp only [step]
    split
    · rename_i pass hphase
      unfold startParse
      split
      · exact hk
      · refine ⟨hsession _, fun pass' hpass => ?_, hk.works, ?_, sentTo_of_unrecorded rfl⟩
        · obtain rfl := Phase.checking.inj hpass
          exact hk.passKeyed pass hphase
        · have hexact := (settled_of_unrecorded (by simp [unrecorded, hphase])).mp hk.settled
          exact (settled_of_unrecorded rfl).mpr hexact
    · exact hk
  | gather =>
    dsimp only [step]
    split
    · rename_i pass hphase
      unfold gather
      split
      · refine ⟨hk.keyed, fun pass' hpass => ?_, hk.works, ?_, sentTo_of_unrecorded rfl⟩
        · obtain rfl := Phase.checking.inj hpass
          exact hk.passKeyed pass hphase
        · have hexact := (settled_of_unrecorded (by simp [unrecorded, hphase])).mp hk.settled
          exact (settled_of_unrecorded rfl).mpr hexact
      · exact hk
    · exact hk
  | commit =>
    dsimp only [step]
    split
    · rename_i pass hphase
      exact kept_commit a hk hphase
    · exact hk
  | reconcile =>
    dsimp only [step]
    split
    · rename_i requested published hphase
      exact kept_reconcile a hk hphase
    · exact hk

/-! ## Runs -/

/-- The server after a run, from an empty one. -/
def run (paths : UriPaths Uri) (g : Grammar Tree Ast Error) (a : Analyzer Uri Ast Error Ctx D)
    (ctx : Ctx) (events : List (ServerEvent Uri Tree Ast Error Ctx)) :
    Server Uri Tree Ast Error Ctx D :=
  events.foldl (step paths g a) (start ctx)

theorem run_append (ctx : Ctx) (events : List (ServerEvent Uri Tree Ast Error Ctx))
    (event : ServerEvent Uri Tree Ast Error Ctx) :
    run paths g a ctx (events ++ [event]) = (run paths g a ctx events).step paths g a event := by
  simp [run]

theorem kept_start (ctx : Ctx) :
    (start ctx : Server Uri Tree Ast Error Ctx D).Kept paths where
  keyed path doc hdoc := by simp [docs, start, Session.empty, Documents.empty, Documents.docsAt] at hdoc
  passKeyed := nofun
  works uri path shared hmem := absurd hmem List.not_mem_nil
  settled := (settled_of_unrecorded rfl).mpr fun path uri => by simp [start, lastSent]
  sentTo := sentTo_of_unrecorded rfl

/-- A run of tidy steps, by induction from its end. -/
theorem kept_run (ctx : Ctx) (events : List (ServerEvent Uri Tree Ast Error Ctx))
    (htidy : ∀ before event after, events = before ++ event :: after →
      (run paths g a ctx before).Tidy event) : (run paths g a ctx events).Kept paths := by
  induction events using List.reverseRecOn with
  | nil => exact kept_start ctx
  | append_singleton events event ih =>
    rw [run_append]
    refine kept_step a (ih fun before event' after hsplit => ?_) event ?_
    · exact htidy before event' (after ++ [event]) (by simp [hsplit])
    · exact htidy events event [] rfl

/-- Another URI of the path keeps its diagnostics and leaves the record. -/
theorem not_exact_of_untidy (hexact : s.Exact paths) (hphase : s.phase = .idle)
    (world : World Ast Ctx) {uri : Uri} {path : String}
    (hhead : s.work.head? = some (.closed uri path false))
    (hother : ¬ s.recorded path ⊆ {uri}) :
    (s.step paths g a (.take world)).phase = .idle ∧
      ¬ (s.step paths g a (.take world)).Exact paths := by
  obtain ⟨rest, hwork⟩ := List.head?_eq_some_iff.mp hhead
  obtain ⟨uri', huri', hne⟩ := Finset.not_subset.mp hother
  have hshown := (hexact path uri').mp huri'
  have hgone : ∀ s' : Server Uri Tree Ast Error Ctx D,
      s'.publishedUris = s.publishedUris.erase path →
      (∀ uri'', lastSent s'.sent uri'' = if uri'' ∈ ({uri} : Finset Uri) then [] else lastSent s.sent uri'') →
      ¬ s'.Exact paths := by
    intro s' hrecord hsent hexact'
    have hin := (hexact' path uri').mpr ⟨hshown.1, by rw [hsent, if_neg hne]; exact hshown.2⟩
    rw [hrecord, Table.lookup_erase, if_pos rfl] at hin
    exact absurd hin (Finset.notMem_empty uri')
  have htake : s.step paths g a (.take world) =
      close { s with work := rest } world uri path false := by
    simp only [step, hphase, take, hwork]
  rw [htake]
  dsimp only [close]
  rw [if_neg nofun]
  split
  · exact ⟨hphase, hgone _ rfl fun uri'' => lastSent_clear _ _⟩
  · rename_i hopen
    refine ⟨(phase_request hopen).trans hphase, hgone _ ?_ fun uri'' => ?_⟩
    · exact (request_frame _ _).2.2.1
    · rw [(request_frame _ _).2.2.2.1]
      exact lastSent_clear _ _

/-- What stays recorded went to the URIs the path has. -/
theorem record_subset_destinations {published : List (Published Uri)}
    {destinations : String → Finset Uri}
    (hsent : ∀ p ∈ published, p.destinations = destinations p.path ∧ p.nonEmpty ⊆ p.destinations)
    (path : String) (state : Table String (Finset Uri) × Finset Uri)
    (h : ((state.1).lookup path).getD ∅ ⊆ destinations path ∨ ∃ p ∈ published, p.path = path) :
    (((published.foldl reconcilePath state).1).lookup path).getD ∅ ⊆ destinations path := by
  induction published generalizing state with
  | nil => exact h.resolve_right fun ⟨p, hp, _⟩ => absurd hp List.not_mem_nil
  | cons p published ih =>
    rw [List.foldl_cons]
    refine ih (fun p' hp' => hsent p' (List.mem_cons_of_mem p hp')) _ ?_
    rw [lookup_reconcilePath]
    obtain ⟨hown, hsub⟩ := hsent p List.mem_cons_self
    split
    · rename_i hpath
      exact .inl (hpath ▸ hown ▸ hsub)
    · rename_i hpath
      refine h.imp_right fun ⟨p', hp', hpath'⟩ => ⟨p', ?_, hpath'⟩
      exact (List.mem_cons.mp hp').resolve_left fun heq => hpath (heq ▸ hpath').symm

/-- A URI that shows diagnostics after a pass is one of an analyzed path, and one of those the
pass sent the path to. -/
theorem analyzed_reconcile (hk : s.Kept paths) {requested : Finset String}
    {published : List (Published Uri)} (hphase : s.phase = .reconciling requested published)
    {uri : Uri} (hshown : lastSent (s.reconcile paths a requested published).sent uri ≠ []) :
    s.anyOpenSourceEligible a (paths.toPath uri) = true ∧
      (s.docs.contains (paths.toPath uri) = true ∨
        (s.disk.lookup (paths.toPath uri)).isSome = true) ∧
      ∀ p ∈ published, p.path = paths.toPath uri → uri ∈ p.destinations := by
  have hexact := (settled_of_unrecorded rfl).mp (kept_reconcile a hk hphase).settled
  have hin := (hexact (paths.toPath uri) uri).mpr ⟨rfl, hshown⟩
  obtain ⟨destinations, hsent⟩ := hk.sentTo
  have hunrecorded : s.unrecorded = published := by simp [unrecorded, hphase]
  rw [hunrecorded] at hsent
  have hsubset := fun hpath => record_subset_destinations hsent (paths.toPath uri)
    (s.publishedUris, ∅) (.inr hpath)
  unfold reconcile at hin
  generalize published.foldl reconcilePath (s.publishedUris, ∅) = state at hin hsubset
  obtain ⟨record, stale⟩ := state
  simp only [clear, Table.lookup_retain] at hin hsubset
  cases hrecord : record.lookup (paths.toPath uri) with
  | none => simp [hrecord] at hin
  | some uris =>
    rw [hrecord] at hin hsubset
    have hkeys : paths.toPath uri ∈ record.keys := by
      rw [Table.mem_keys_iff, hrecord]
      rfl
    simp only [Finset.mem_filter, hkeys, true_and, Option.filter_some, Bool.or_eq_true,
      Bool.not_eq_true', Bool.and_eq_true, Option.isNone_iff_eq_none] at hin
    split at hin
    · rename_i hkept
      rw [decide_eq_true_eq, not_or, not_and_or, Bool.not_eq_false, Bool.not_eq_false] at hkept
      refine ⟨hkept.1, hkept.2.imp_right fun hdisk => Option.isSome_iff_ne_none.mpr hdisk,
        fun p hp hpath => ?_⟩
      rw [(hsent p hp).1, hpath]
      exact hsubset ⟨p, hp, hpath⟩ hin
    · exact absurd hin (Finset.notMem_empty uri)

/-- Between the writer's steps the record is exact throughout a run if and only if every close of
a path's last document finds no other URI in the path's record.  Then no URI goes on
showing diagnostics after a pass unless its path is analyzed and the pass had it among the
path's URIs. -/
theorem record_exact_iff (ctx : Ctx) (events : List (ServerEvent Uri Tree Ast Error Ctx)) :
    ((∀ before after, events = before ++ after → (run paths g a ctx before).phase = .idle →
        (run paths g a ctx before).Exact paths) ↔
      ∀ before event after, events = before ++ event :: after →
        (run paths g a ctx before).Tidy event) ∧
    ((∀ before event after, events = before ++ event :: after →
        (run paths g a ctx before).Tidy event) →
      ∀ requested published, (run paths g a ctx events).phase = .reconciling requested published →
        ∀ uri, lastSent ((run paths g a ctx events).step paths g a .reconcile).sent uri ≠ [] →
          (run paths g a ctx events).anyOpenSourceEligible a (paths.toPath uri) = true ∧
          ((run paths g a ctx events).docs.contains (paths.toPath uri) = true ∨
            ((run paths g a ctx events).disk.lookup (paths.toPath uri)).isSome = true) ∧
          ∀ p ∈ published, p.path = paths.toPath uri → uri ∈ p.destinations) := by
  refine ⟨⟨fun hexact before event after hsplit => ?_, fun htidy before after hsplit hphase => ?_⟩,
    fun htidy requested published hphase uri hshown => ?_⟩
  · rintro world uri path rfl hphase hhead
    by_contra hother
    obtain ⟨hidle, hnot⟩ := not_exact_of_untidy (g := g) a
      (hexact before _ hsplit hphase) hphase world hhead hother
    have hlead : events = before ++ [.take world] ++ after := by rw [hsplit]; simp
    have hexact' := hexact (before ++ [.take world]) after hlead
    rw [run_append] at hexact'
    exact hnot (hexact' hidle)
  · have hk := kept_run a ctx before fun before' event after' hsplit' =>
      htidy before' event (after' ++ after) (by simp [hsplit, hsplit'])
    exact (settled_of_unrecorded (unrecorded_of_idle hphase)).mp hk.settled
  · have hk := kept_run a ctx events htidy
    simp only [step, hphase] at hshown
    exact analyzed_reconcile a hk hphase hshown

end Steps

end Server

/-! ## A second spelling -/

/-- Paths are their own URIs, and `/a.R` has a second spelling. -/
def spelledPaths : UriPaths (WithBot String) where
  toPath uri := uri.recBotCoe "/a.R" id
  toUri path := path
  native _ := none
  toPath_toUri _ := rfl

/-- Every file has one diagnostic. -/
def oneDiagnostic : Analyzer (WithBot String) Unit Unit Unit Unit where
  eligible _ _ _ := true
  excludes _ _ := false
  check _ _ _ files := files.map fun f => (f.path, [()])
  parseFailure _ _ _ _ _ _ := []
  ambiguous _ _ _ _ _ _ := []

/-- `/a.R` is on the disk. -/
def fileWorld (refreshed : Refreshed) : World Unit Unit :=
  ⟨(), (∅ : Table String (SourceFile Unit)).insert "/a.R" ⟨"/a.R", none, [], ()⟩, refreshed⟩

/-- The file is found, and a pass publishes it at its own URI. -/
def publishedEvents : List (ServerEvent (WithBot String) Nat Unit Unit Unit) :=
  [.queue .configure, .take (fileWorld .nothing), .reconcile, .queue .watched,
    .take (fileWorld (.sources ["/a.R"])), .due .sorted, .gather, .commit]

/-- Then it is opened and closed under the other spelling, before the next pass. -/
def spelledEvents : List (ServerEvent (WithBot String) Nat Unit Unit Unit) :=
  publishedEvents ++ [.reconcile, .didOpen ⊥ [] 1, .didClose ⊥, .take (fileWorld .nothing),
    .take (fileWorld .nothing)]

/-- The writer waits for work. -/
def Phase.isIdle {Uri Tree Ast : Type} : Phase Uri Tree Ast → Bool
  | .idle => true
  | _ => false

def Phase.isReconciling {Uri Tree Ast : Type} : Phase Uri Tree Ast → Bool
  | .reconciling .. => true
  | _ => false

def Work.isClosed {Uri : Type} : Work Uri → Bool
  | .closed .. => true
  | _ => false

theorem Phase.eq_idle_of_isIdle {Uri Tree Ast : Type} {phase : Phase Uri Tree Ast}
    (h : phase.isIdle = true) : phase = .idle := by
  cases phase with
  | idle => rfl
  | _ => cases h

theorem Phase.eq_of_isReconciling {Uri Tree Ast : Type} {phase : Phase Uri Tree Ast}
    (h : phase.isReconciling = true) :
    ∃ requested published, phase = .reconciling requested published := by
  cases phase with
  | reconciling requested published => exact ⟨requested, published, rfl⟩
  | _ => cases h

theorem record_exact_iff_published :
    (Server.run spelledPaths lengthGrammar oneDiagnostic () publishedEvents).anyOpenSourceEligible
      oneDiagnostic "/a.R" = true := by
  have hopen : ∀ k < 8, ((Server.run spelledPaths lengthGrammar oneDiagnostic ()
      (publishedEvents.take k)).work.head?.all fun work => !work.isClosed) = true := by
    decide +kernel
  have htidy : ∀ before event after, publishedEvents = before ++ event :: after →
      (Server.run spelledPaths lengthGrammar oneDiagnostic () before).Tidy event := by
    rintro before event after hsplit world uri path rfl - hhead
    have hbefore : before = publishedEvents.take before.length := by rw [hsplit, List.take_left]
    have hlt : before.length < publishedEvents.length := by simp [hsplit]
    have hnone := hopen _ hlt
    rw [← hbefore, hhead] at hnone
    cases hnone
  have hshown : lastSent ((Server.run spelledPaths lengthGrammar oneDiagnostic ()
      publishedEvents).step spelledPaths lengthGrammar oneDiagnostic .reconcile).sent
      (("/a.R" : String) : WithBot String) ≠ [] := by decide +kernel
  have hreconciling : (Server.run spelledPaths lengthGrammar oneDiagnostic ()
      publishedEvents).phase.isReconciling = true := by decide +kernel
  obtain ⟨requested, published, hphase⟩ := Phase.eq_of_isReconciling hreconciling
  exact ((Server.record_exact_iff (g := lengthGrammar) oneDiagnostic () publishedEvents).2 htidy
    requested published hphase _ hshown).1

/-- The file's own URI goes on showing its diagnostics and is not recorded. -/
theorem spelled_record_not_exact :
    (Server.run spelledPaths lengthGrammar oneDiagnostic () spelledEvents).phase = .idle ∧
      ¬ (Server.run spelledPaths lengthGrammar oneDiagnostic () spelledEvents).Exact
        spelledPaths := by
  have hidle : (Server.run spelledPaths lengthGrammar oneDiagnostic ()
      spelledEvents).phase.isIdle = true := by decide +kernel
  refine ⟨Phase.eq_idle_of_isIdle hidle, fun hexact => ?_⟩
  have hshown : lastSent (Server.run spelledPaths lengthGrammar oneDiagnostic ()
      spelledEvents).sent (("/a.R" : String) : WithBot String) ≠ [] := by decide +kernel
  have hrecorded : ((Server.run spelledPaths lengthGrammar oneDiagnostic ()
      spelledEvents).publishedUris.lookup "/a.R").getD ∅ = ∅ := by decide +kernel
  have hin := (hexact "/a.R" _).mpr ⟨rfl, hshown⟩
  rw [hrecorded] at hin
  exact absurd hin (Finset.notMem_empty _)

end Ry
