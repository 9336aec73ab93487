import Ry.Lsp.Record

/-! # A pass in flight

A pass takes its snapshot under one lock and commits under a later one.  Between the two its
facts hold as long as no document was edited (`InFlight`): the generation counts the edits.
-/

namespace Ry

variable {Uri Tree Ast Error Ctx D : Type}

/-! ## Documents without their parses -/

/-- The document as its handlers left it. -/
def Document.buffer (doc : Document Uri Tree Ast) : Document Uri Tree Ast :=
  { doc with tree := none, parsed := none, hints := none }

theorem Document.eq_of_buffer {doc doc' : Document Uri Tree Ast} (h : doc'.buffer = doc.buffer) :
    doc'.uri = doc.uri ∧ doc'.native = doc.native ∧ doc'.text = doc.text ∧
      doc'.version = doc.version ∧ doc'.edit = doc.edit := by
  obtain ⟨huri, hnative, htext, hversion, hedit, -, -, -⟩ := Document.mk.inj h
  exact ⟨huri, hnative, htext, hversion, hedit⟩

namespace Documents

/-- No document was opened, changed or closed. -/
def Same (docs docs' : Documents Uri Tree Ast) : Prop :=
  ∀ path, (docs'.docsAt path).map (·.buffer) = (docs.docsAt path).map (·.buffer)

variable {docs docs' docs'' : Documents Uri Tree Ast}

theorem Same.refl (docs : Documents Uri Tree Ast) : docs.Same docs := fun _ => rfl

theorem Same.trans (h : docs.Same docs') (h' : docs'.Same docs'') : docs.Same docs'' :=
  fun path => (h' path).trans (h path)

theorem Same.active_buffer (h : docs.Same docs') (path : String) :
    (docs'.active path).map (·.buffer) = (docs.active path).map (·.buffer) := by
  simp only [active, ← List.getLast?_map]
  rw [h path]

theorem Same.active (h : docs.Same docs') {path : String} {doc : Document Uri Tree Ast}
    (hdoc : docs.active path = some doc) :
    ∃ doc', docs'.active path = some doc' ∧ doc'.buffer = doc.buffer := by
  have hbuffer := h.active_buffer path
  rw [hdoc] at hbuffer
  exact Option.map_eq_some_iff.mp hbuffer

theorem contains_of_mem {path : String} {doc : Document Uri Tree Ast}
    (hdoc : doc ∈ docs.docsAt path) : docs.contains path = true := by
  unfold docsAt at hdoc
  unfold contains
  cases h : docs.byPath.lookup path with
  | none => simp [h] at hdoc
  | some list => rfl

theorem Same.uris [LinearOrder Uri] {paths : UriPaths Uri} (h : docs.Same docs') {path : String} :
    docs'.uris paths path = docs.uris paths path := by
  have huris : ∀ docs : Documents Uri Tree Ast,
      (docs.docsAt path).map (·.uri) = ((docs.docsAt path).map (·.buffer)).map (·.uri) :=
    fun docs => by rw [List.map_map]; rfl
  unfold Documents.uris
  rw [huris, huris, h path]

end Documents

namespace Session

/-- A document is opened, changed or closed. -/
def Edits : SessionEvent Uri Tree Ast Error → Prop
  | .didOpen .. | .didChange .. | .didClose _ => True
  | .call _ | .lock _ | .land .. => False

/-- Where a call goes in one step. -/
inductive CallStep (s : Session Uri Tree Ast Error) (i : Nat) (path : String) :
    CallState Uri Tree Ast Error → CallState Uri Tree Ast Error → Prop
  | stays {state} : CallStep s i path state state
  | looks : CallStep s i path .waiting (s.look path)
  | again {seen} : CallStep s i path (.parsing seen) .waiting
  | returns {seen file} : CallStep s i path (.parsing seen) (.returned seen.edit file seen.text)
  | fails {seen error} : CallStep s i path (.parsing seen) (.failed seen.text error)

variable {s : Session Uri Tree Ast Error}

/-- The call is of the document as its handlers left it. -/
def CallOf (doc : Document Uri Tree Ast) : CallState Uri Tree Ast Error → Prop
  | .parsing seen => seen.edit = doc.edit
  | .returned edit _ _ => edit = doc.edit
  | .failed text _ => text = doc.text
  | .waiting | .closed => True

/-- A call keeps to the document its path analyzes. -/
theorem Explained.callOf {g : Grammar Tree Ast Error} {h : History Uri Ast} (hs : s.Explained g h) {i : Nat} {path : String}
    {doc active : Document Uri Tree Ast} {state next : CallState Uri Tree Ast Error}
    (hactive : s.docs.active path = some active) (hbuffer : active.buffer = doc.buffer)
    (hi : s.calls[i]? = some ⟨path, state⟩) (hstep : s.CallStep i path state next)
    (hof : CallOf doc state) : CallOf doc next := by
  obtain ⟨-, -, htext, -, hedit⟩ := Document.eq_of_buffer hbuffer
  cases hstep with
  | stays => exact hof
  | looks =>
    unfold look
    rw [hactive]
    dsimp only
    split
    · exact hedit
    · exact hedit
  | again => trivial
  | returns => exact hof
  | fails =>
    rename_i seen error
    have hseen := (hs.seen i path seen hi).2.1
    have hown := (hs.docs path active (s.docs.mem_of_active hactive)).2.1
    rw [hedit, ← (hof : seen.edit = doc.edit), hseen] at hown
    exact (congrArg Content.text hown).trans htext

theorem callStep_setCall {i j : Nat} {path path' : String}
    {state state' : CallState Uri Tree Ast Error} (hi : s.calls[i]? = some ⟨path, state⟩)
    (hj : j = i → path' = path ∧ s.CallStep i path state state') :
    ∃ next, (s.setCall j path' state').calls[i]? = some ⟨path, next⟩ ∧
      s.CallStep i path state next := by
  unfold setCall
  rw [List.getElem?_set]
  split
  · rename_i hji
    obtain ⟨rfl, hstep⟩ := hj hji
    rw [if_pos (hji ▸ (List.getElem?_eq_some_iff.mp hi).1)]
    exact ⟨state', rfl, hstep⟩
  · exact ⟨state, hi, .stays⟩

section Steps

variable [LinearOrder Uri] (paths : UriPaths Uri) {g : Grammar Tree Ast Error}

/-- A call stays at its index and takes one of its own steps. -/
theorem callStep_step {i : Nat} {path : String} {state : CallState Uri Tree Ast Error}
    (hi : s.calls[i]? = some ⟨path, state⟩) (event : SessionEvent Uri Tree Ast Error) :
    ∃ next, (s.step paths g event).calls[i]? = some ⟨path, next⟩ ∧
      s.CallStep i path state next := by
  have hstays : ∃ next, s.calls[i]? = some ⟨path, next⟩ ∧ s.CallStep i path state next :=
    ⟨state, hi, .stays⟩
  cases event with
  | didOpen | didChange | didClose => exact hstays
  | call path' =>
    refine ⟨state, ?_, .stays⟩
    exact (List.getElem?_append_left (List.getElem?_eq_some_iff.mp hi).1).trans hi
  | lock j =>
    dsimp only [step]
    split
    · rename_i path' hj
      refine callStep_setCall hi fun hji => ?_
      obtain ⟨rfl, rfl⟩ := Call.mk.inj (Option.some.inj ((hji ▸ hj).symm.trans hi))
      exact ⟨rfl, .looks⟩
    · exact hstays
  | land j result =>
    dsimp only [step]
    split
    · rename_i path' seen hj
      have hown : j = i → path' = path ∧ .parsing seen = state := fun hji =>
        Call.mk.inj (Option.some.inj ((hji ▸ hj).symm.trans hi))
      cases result with
      | error error =>
        refine callStep_setCall hi fun hji => ?_
        obtain ⟨rfl, rfl⟩ := hown hji
        exact ⟨rfl, .fails⟩
      | ok parsed =>
        dsimp only [install]
        split
        · refine callStep_setCall hi fun hji => ?_
          obtain ⟨rfl, rfl⟩ := hown hji
          exact ⟨rfl, .again⟩
        · split <;>
          · refine callStep_setCall hi fun hji => ?_
            obtain ⟨rfl, rfl⟩ := hown hji
            exact ⟨rfl, .returns⟩
    · exact hstays

theorem same_step {event : SessionEvent Uri Tree Ast Error} (hevent : ¬ Edits event) :
    s.docs.Same (s.step paths g event).docs := by
  cases event with
  | didOpen | didChange | didClose => exact absurd trivial hevent
  | call => exact .refl _
  | lock i =>
    dsimp only [step]
    split <;> exact .refl _
  | land i result =>
    dsimp only [step]
    split
    · cases result with
      | error error => exact .refl _
      | ok parsed =>
        dsimp only [install]
        split
        · exact .refl _
        · rename_i active hactive
          have hactive := (Option.filter_eq_some_iff.mp hactive).1
          split
          · exact .refl _
          · intro path'
            rw [s.docs.docsAt_updateActive hactive]
            split
            · rename_i hpath
              rw [hpath, s.docs.active_eq_some hactive]
              simp [Document.buffer]
            · rfl
    · exact .refl _

end Steps

end Session

/-! ## While a pass is in flight -/

namespace Server

variable (g : Grammar Tree Ast Error) (a : Analyzer Uri Ast Error Ctx D)
  (s : Server Uri Tree Ast Error Ctx D) (pass : Pass Uri Tree Ast)

/-- What a pass relies on until its commit.  The files are parses of its documents, at the
versions it saw, unless a document was edited since. -/
structure InFlight : Prop where
  generation : pass.generation ≤ s.generation
  same : pass.generation = s.generation → pass.docs.Same s.docs
  versions : ∀ path version, (path, version) ∈ pass.versions →
    ∃ doc, pass.docs.active path = some doc ∧ doc.version = version
  toParse : ∀ entry ∈ pass.toParse, entry ∈ pass.versions
  opened : ∀ f ∈ pass.opened, (f.path, f.version) ∈ pass.versions ∧
    ∃ state, s.session.calls[f.call]? = some ⟨f.path, state⟩ ∧
      (pass.generation = s.generation → ∀ doc, pass.docs.active f.path = some doc →
        Session.CallOf doc state)
  files : ∀ files, pass.files = some files → pass.generation = s.generation → ∀ file ∈ files,
    ∀ doc, pass.docs.active file.path = some doc → (file.path, file.version) ∈ pass.versions ∧
      g.ParsedFrom (doc.content file.path) file.file

variable {g} {s pass}

/-- An edit: nothing is promised any more, and the calls stay. -/
theorem InFlight.edited (hf : s.InFlight g pass) {session : Session Uri Tree Ast Error}
    {work : Work Uri} (hcalls : session.calls = s.session.calls) :
    (s.changed session work).InFlight g pass := by
  have hlater : pass.generation ≠ s.generation + 1 := by
    have := hf.generation
    omega
  refine ⟨hf.generation.trans (Nat.le_succ _), fun heq => absurd heq hlater, hf.versions,
    hf.toParse, fun f hmem => ?_, fun files _ heq => absurd heq hlater⟩
  obtain ⟨hversion, state, hcall, -⟩ := hf.opened f hmem
  exact ⟨hversion, state, hcalls ▸ hcall, fun heq => absurd heq hlater⟩

theorem inFlight_beginPass {order : IterOrder} (hidle : s.phase = .idle)
    (hphase : (s.beginPass a order).phase = .checking pass) :
    (s.beginPass a order).InFlight g pass := by
  unfold beginPass at hphase ⊢
  dsimp only at hphase ⊢
  split at hphase
  · rcases (request_frame { s with pending := ∅, deadline := false } s.pending).2.2.2.2 with h | h
    · exact nomatch hidle.symm.trans (h.symm.trans hphase)
    · exact nomatch h.symm.trans hphase
  · rename_i hwork
    rw [if_neg hwork]
    obtain rfl := Phase.checking.inj hphase
    refine ⟨le_rfl, fun _ => .refl _, fun path version hmem => ?_, fun entry hmem => hmem, nofun,
      nofun⟩
    obtain ⟨path', -, hentry⟩ := List.mem_filterMap.mp hmem
    obtain ⟨doc, hdoc, heq⟩ := Option.map_eq_some_iff.mp hentry
    obtain ⟨rfl, rfl⟩ := Prod.mk.inj heq
    exact ⟨doc, hdoc, rfl⟩

theorem inFlight_gather (hf : s.InFlight g pass) {h : History Uri Ast}
    (hs : s.session.Explained g h) (hchecking : s.phase = .checking pass)
    {pass' : Pass Uri Tree Ast} (hphase : (s.gather a pass).phase = .checking pass') :
    (s.gather a pass).InFlight g pass' := by
  unfold gather at hphase ⊢
  split at hphase
  · rename_i hready
    rw [if_pos hready]
    obtain rfl := Phase.checking.inj hphase
    refine ⟨hf.generation, hf.same, hf.versions, hf.toParse, hf.opened,
      fun files hfiles heq file hmem doc hdoc => ?_⟩
    obtain rfl := Option.some.inj hfiles
    obtain ⟨active, hactive, hbuffer⟩ := (hf.same heq).active hdoc
    have hin := s.docs.mem_of_active hactive
    simp only [gatherFiles, List.mem_mergeSort, List.mem_append] at hmem
    rcases hmem with hdisk | hopened
    · obtain ⟨path, hpath, hfile⟩ := List.mem_filterMap.mp hdisk
      obtain ⟨source, -, rfl⟩ := Option.map_eq_some_iff.mp hfile
      -- the buffer owns its path
      simp [Documents.contains_of_mem hin] at hpath
    · obtain ⟨f, hf', hfile⟩ := List.mem_filterMap.mp hopened
      obtain ⟨hversion, state, hcall, hof⟩ := hf.opened f hf'
      unfold openFile at hfile
      rw [hcall] at hfile
      split at hfile
      · rename_i edit returned text heq'
        obtain ⟨-, rfl⟩ := Call.mk.inj (Option.some.inj heq')
        obtain rfl := Option.some.inj hfile
        obtain ⟨-, hast, -, -⟩ := hs.returned f.call f.path edit returned text hcall
        obtain ⟨huri, hnative, htext, -, hedit⟩ := Document.eq_of_buffer hbuffer
        have hcontent := (hs.docs f.path active hin).2.1
        have hparsed := hs.parsed edit returned hast
        rw [(hof heq doc hdoc : edit = doc.edit), ← hedit, hcontent] at hparsed
        refine ⟨hversion, ?_⟩
        rw [Document.content, huri, hnative, htext] at hparsed
        exact hparsed
      · exact nomatch hfile
  · obtain rfl := Phase.checking.inj (hchecking.symm.trans hphase)
    rename_i hnot
    rw [if_neg hnot]
    exact hf

/-! ## What a commit publishes -/

theorem InFlight.lookup_versions (hf : s.InFlight g pass) {path : String} {version : Int}
    {doc : Document Uri Tree Ast} (hdoc : pass.docs.active path = some doc)
    (hmem : (path, version) ∈ pass.versions) :
    doc.version = version ∧ pass.versions.lookup path = some version := by
  have hown : ∀ version', (path, version') ∈ pass.versions → doc.version = version' := by
    intro version' hmem'
    obtain ⟨doc', hdoc', hversion⟩ := hf.versions path version' hmem'
    obtain rfl := Option.some.inj (hdoc.symm.trans hdoc')
    exact hversion
  obtain ⟨version', hlookup⟩ := Option.isSome_iff_exists.mp
    (List.lookup_isSome_iff.mpr ⟨_, hmem, BEq.rfl⟩)
  obtain ⟨before, after, hsplit, -⟩ := List.lookup_eq_some_iff.mp hlookup
  have hfound := hown version' (by rw [hsplit]; simp)
  rw [← hown version hmem, hfound]
  exact ⟨rfl, hlookup⟩

/-- The results of a path are of the text and version its document has. -/
def ResultsOf (g : Grammar Tree Ast Error) (a : Analyzer Uri Ast Error Ctx D)
    (s : Server Uri Tree Ast Error Ctx D) (pass : Pass Uri Tree Ast)
    (files : List (PackageFile Ast)) (path : String) (doc : Document Uri Tree Ast)
    (results : List D) : Prop :=
  ((path, results) ∈ a.check s.ctx pass.generation pass.docs.paths files ∧
      (∃ file ∈ files, file.path = path) ∧
      ∀ file ∈ files, file.path = path →
        file.version = doc.version ∧ g.ParsedFrom (doc.content path) file.file) ∨
    ∃ error, results = a.parseFailure s.ctx pass.generation path doc.version doc.text error

theorem results_outgoing (hf : s.InFlight g pass) {files : List (PackageFile Ast)}
    (hfiles : pass.files = some files) (hgeneration : pass.generation = s.generation)
    {path : String} {results : List D} (hout : (path, some results) ∈ s.outgoing a pass files)
    {doc : Document Uri Tree Ast} (hdoc : pass.docs.active path = some doc) :
    (∃ version, (path, version) ∈ pass.versions) ∧ ResultsOf g a s pass files path doc results := by
  unfold outgoing at hout
  rcases List.mem_append.mp hout with hfound | hcolliding
  · obtain ⟨⟨path', results'⟩, hmem, heq⟩ := List.mem_map.mp hfound
    obtain ⟨rfl, hresults⟩ := Prod.mk.inj heq
    obtain rfl := Option.some.inj hresults
    rcases List.mem_append.mp hmem with hchecked | hunparsed
    · obtain ⟨hcheck, hany⟩ := List.mem_filter.mp hchecked
      obtain ⟨hany, -⟩ := Bool.and_eq_true_iff.mp hany
      obtain ⟨file, hfile, hpath⟩ := List.any_eq_true.mp hany
      have hown : ∀ file ∈ files, file.path = path' →
          (path', file.version) ∈ pass.versions ∧ g.ParsedFrom (doc.content path') file.file := by
        rintro file hin rfl
        exact hf.files files hfiles hgeneration file hin doc hdoc
      refine ⟨⟨_, (hown file hfile (eq_of_beq hpath)).1⟩,
        .inl ⟨hcheck, ⟨file, hfile, eq_of_beq hpath⟩, fun file' hmem hpath' => ?_⟩⟩
      obtain ⟨hversion, hparsed⟩ := hown file' hmem hpath'
      exact ⟨(hf.lookup_versions hdoc hversion).1.symm, hparsed⟩
    · obtain ⟨f, hmem, hf'⟩ := List.mem_filterMap.mp hunparsed
      obtain ⟨hversion, state, hcall, hof⟩ := hf.opened f hmem
      unfold unparsed at hf'
      rw [hcall] at hf'
      split at hf'
      · rename_i text error hstate
        obtain ⟨-, rfl⟩ := Call.mk.inj (Option.some.inj hstate)
        split at hf'
        · exact nomatch hf'
        · obtain ⟨rfl, rfl⟩ := Prod.mk.inj (Option.some.inj hf')
          refine ⟨⟨_, hversion⟩, .inr ⟨error, ?_⟩⟩
          rw [(hf.lookup_versions hdoc hversion).1, (hof hgeneration doc hdoc : text = doc.text)]
      · exact nomatch hf'
  · obtain ⟨path', -, heq⟩ := List.mem_map.mp hcolliding
    exact nomatch (Prod.mk.inj heq).2

/-- What a publication says.  At a version it is the results of the path's active document, which
has that version and the text that was parsed; without one it is a collision's own warning, or
is about a path that is not open. -/
def Carries [LinearOrder Uri] (paths : UriPaths Uri) (g : Grammar Tree Ast Error)
    (a : Analyzer Uri Ast Error Ctx D) (s : Server Uri Tree Ast Error Ctx D)
    (pass : Pass Uri Tree Ast) (files : List (PackageFile Ast)) (p : Publication Uri D) : Prop :=
  ∃ path, p.uri ∈ s.docs.uris paths path ∧
    match p.version with
    | some version => ∃ doc results, s.docs.active path = some doc ∧ doc.uri = p.uri ∧
        doc.version = version ∧ p.diagnostics = results ++ s.warnings a pass path p.uri ∧
        ResultsOf g a s pass files path doc results
    | none => s.docs.docsAt path = [] ∨ p.diagnostics = s.warnings a pass path p.uri

theorem carries_publications [LinearOrder Uri] {paths : UriPaths Uri} (hf : s.InFlight g pass)
    {files : List (PackageFile Ast)} (hfiles : pass.files = some files)
    (hgeneration : pass.generation = s.generation) {out : String × Option (List D)}
    (hout : out ∈ s.outgoing a pass files) {p : Publication Uri D}
    (hp : p ∈ s.publications paths a pass out) : Carries paths g a s pass files p := by
  have hsame := hf.same hgeneration
  obtain ⟨uri, huri, rfl⟩ := List.mem_map.mp hp
  refine ⟨out.1, hsame.uris ▸ huri, ?_⟩
  obtain ⟨path, results⟩ := out
  dsimp only
  cases hactive : pass.docs.active path with
  | none =>
    have hnone : pass.versions.lookup path = none := by
      refine List.lookup_eq_none_iff.mpr fun entry hmem => ?_
      obtain ⟨doc, hdoc, -⟩ := hf.versions entry.1 entry.2 hmem
      refine bne_iff_ne.mpr fun heq => ?_
      rw [← heq, hactive] at hdoc
      exact nomatch hdoc
    rw [hnone, ite_self]
    refine .inl ?_
    have hempty := hsame path
    rw [List.getLast?_eq_none_iff.mp hactive] at hempty
    exact List.map_eq_nil_iff.mp hempty
  | some doc =>
    by_cases howner : doc.uri = uri
    · subst howner
      cases results with
      | none => simp
      | some results =>
        obtain ⟨⟨version, hversion⟩, hresults⟩ :=
          results_outgoing a hf hfiles hgeneration hout hactive
        obtain ⟨hown, hlookup⟩ := hf.lookup_versions hactive hversion
        obtain ⟨doc', hactive', hbuffer⟩ := hsame.active hactive
        obtain ⟨huri', hnative', htext', hversion', -⟩ := Document.eq_of_buffer hbuffer
        simp only [Option.all_some, BEq.rfl, Option.isSome_some, Bool.and_self, if_true, hlookup,
          Option.getD_some]
        refine ⟨doc', results, hactive', huri', hversion'.trans hown, rfl, ?_⟩
        unfold ResultsOf Document.content at hresults ⊢
        rw [huri', hnative', htext', hversion']
        exact hresults
    · simp [howner]

/-! ## The steps of a pass -/

theorem frame_request (s : Server Uri Tree Ast Error Ctx D) (names : Finset String) :
    (s.request names).generation = s.generation ∧ (s.request names).docs = s.docs ∧
      (s.request names).pending = s.pending ∪ names := by
  unfold request
  dsimp only
  split <;> exact ⟨rfl, rfl, rfl⟩

section Steps

variable [LinearOrder Uri] (paths : UriPaths Uri)

/-- The event opens, changes or closes a document. -/
def Edits (paths : UriPaths Uri) (g : Grammar Tree Ast Error) (s : Server Uri Tree Ast Error Ctx D) : ServerEvent Uri Tree Ast Error Ctx → Prop
  | .didOpen .. | .didClose _ => True
  | .didChange uri changes version => (s.docs.change paths g.editTree uri changes version).2 = true
  | _ => False

/-- A step of some call. -/
theorem InFlight.session (hf : s.InFlight g pass) {h : History Uri Ast}
    (hs : s.session.Explained g h) {e : SessionEvent Uri Tree Ast Error}
    (hevent : ¬ Session.Edits e) :
    InFlight g { s with session := s.session.step paths g e } pass := by
  refine ⟨hf.generation, fun heq => (hf.same heq).trans (Session.same_step paths hevent),
    hf.versions, hf.toParse, fun f hmem => ?_, hf.files⟩
  obtain ⟨hversion, state, hcall, hof⟩ := hf.opened f hmem
  obtain ⟨next, hnext, hstep⟩ := Session.callStep_step paths (g := g) hcall e
  refine ⟨hversion, next, hnext, fun heq doc hdoc => ?_⟩
  obtain ⟨active, hactive, hbuffer⟩ := (hf.same heq).active hdoc
  exact hs.callOf hactive hbuffer hcall hstep (hof heq doc hdoc)

theorem inFlight_startParse (hf : s.InFlight g pass) {h : History Uri Ast}
    (hs : s.session.Explained g h) (hchecking : s.phase = .checking pass)
    {pass' : Pass Uri Tree Ast} (hphase : (s.startParse paths g pass).phase = .checking pass') :
    (s.startParse paths g pass).InFlight g pass' := by
  unfold startParse at hphase ⊢
  split at hphase
  · obtain rfl := Phase.checking.inj (hchecking.symm.trans hphase)
    exact hf
  · rename_i path version rest hrest
    obtain rfl := Phase.checking.inj hphase
    have hnext := hf.session paths hs (e := .call path) id
    refine ⟨hnext.generation, hnext.same, hnext.versions, fun entry hmem => ?_, fun f hmem => ?_,
      hnext.files⟩
    · exact hf.toParse entry (hrest ▸ List.mem_cons_of_mem _ hmem)
    · rcases List.mem_append.mp hmem with hold | hnew
      · exact hnext.opened f hold
      · obtain rfl := List.mem_singleton.mp hnew
        refine ⟨hf.toParse _ (hrest ▸ List.mem_cons_self), .waiting, ?_, fun _ _ _ => trivial⟩
        simp [Session.step]

/-- Work of the queue changes neither documents nor calls, and begins no pass. -/
theorem frame_take (s : Server Uri Tree Ast Error Ctx D) (world : World Ast Ctx) :
    (s.take paths world).session = s.session ∧ (s.take paths world).generation = s.generation ∧
      ((s.take paths world).phase = s.phase ∨
        (s.take paths world).phase = .reconciling ∅ [] ∨
        (s.take paths world).phase = .stopped) := by
  have hrequest : ∀ (s' : Server Uri Tree Ast Error Ctx D) names, s'.session = s.session →
      s'.generation = s.generation → s'.phase = s.phase →
      (s'.request names).session = s.session ∧ (s'.request names).generation = s.generation ∧
        ((s'.request names).phase = s.phase ∨ (s'.request names).phase = .reconciling ∅ [] ∨
          (s'.request names).phase = .stopped) := by
    intro s' names hsession hgeneration hphase
    refine ⟨(s'.request_frame names).1.trans hsession,
      (frame_request s' names).1.trans hgeneration, ?_⟩
    exact (s'.request_frame names).2.2.2.2.imp (fun h => h.trans hphase) .inl
  unfold take
  split
  · exact ⟨rfl, rfl, .inl rfl⟩
  · rename_i work rest hwork
    dsimp only
    cases work with
    | configure => exact hrequest _ _ rfl rfl rfl
    | folders removed => exact hrequest _ _ rfl rfl rfl
    | watched =>
      dsimp only [watchedFiles]
      split
      · exact ⟨rfl, rfl, .inl rfl⟩
      · exact hrequest _ _ rfl rfl rfl
      · exact ⟨rfl, rfl, .inl rfl⟩
      · exact hrequest _ _ rfl rfl rfl
    | publish path => exact hrequest _ _ rfl rfl rfl
    | closed uri path shared =>
      dsimp only [close]
      split
      · exact hrequest _ _ rfl rfl rfl
      · split
        · exact ⟨rfl, rfl, .inl rfl⟩
        · exact hrequest _ _ rfl rfl rfl
    | shutdown => exact ⟨rfl, rfl, .inr (.inr rfl)⟩

/-- The session takes at most one step of its own. -/
theorem session_step {event : ServerEvent Uri Tree Ast Error Ctx} (hallowed : s.Allowed g event) :
    (s.step paths g a event).session = s.session ∨
      ∃ event', s.session.Allowed g event' ∧
        (s.step paths g a event).session = s.session.step paths g event' := by
  cases event with
  | didOpen uri text version => exact .inr ⟨.didOpen uri text version, trivial, rfl⟩
  | didChange uri changes version =>
    dsimp only [step]
    split
    · exact .inr ⟨.didChange uri changes version, trivial, rfl⟩
    · exact .inl rfl
  | didClose uri => exact .inr ⟨.didClose uri, trivial, rfl⟩
  | queue work => cases work <;> exact .inl rfl
  | call path => exact .inr ⟨.call path, trivial, rfl⟩
  | lock call => exact .inr ⟨.lock call, trivial, rfl⟩
  | land call result => exact .inr ⟨.land call result, hallowed, rfl⟩
  | take world =>
    dsimp only [step]
    split
    · exact .inl (frame_take paths s world).1
    · exact .inl rfl
  | due order =>
    dsimp only [step]
    split
    · split
      · unfold beginPass
        dsimp only
        split
        · exact .inl (request_frame _ _).1
        · exact .inl rfl
      · exact .inl rfl
    · exact .inl rfl
  | parse =>
    dsimp only [step]
    split
    · unfold startParse
      split
      · exact .inl rfl
      · rename_i path version rest hrest
        exact .inr ⟨.call path, trivial, rfl⟩
    · exact .inl rfl
  | gather =>
    dsimp only [step]
    split
    · unfold gather
      split <;> exact .inl rfl
    · exact .inl rfl
  | commit =>
    dsimp only [step]
    split
    · unfold commit
      split
      · exact .inl rfl
      · split
        · exact .inl (request_frame _ _).1
        · exact .inl rfl
    · exact .inl rfl
  | reconcile =>
    dsimp only [step]
    split <;> exact .inl rfl

/-- How a pass comes to be in flight after a step: it begins, or it was already. -/
theorem checking_step {event : ServerEvent Uri Tree Ast Error Ctx} {pass' : Pass Uri Tree Ast}
    (hphase : (s.step paths g a event).phase = .checking pass') :
    (∃ order, event = .due order ∧ s.phase = .idle ∧
      s.step paths g a event = s.beginPass a order ∧ pass'.docs = s.docs ∧
      pass'.requested = s.pending ∧ pass'.generation = (s.step paths g a event).generation) ∨
    ∃ pass, s.phase = .checking pass ∧ pass'.docs = pass.docs ∧
      pass'.requested = pass.requested ∧ pass'.generation = pass.generation ∧
      s.generation ≤ (s.step paths g a event).generation ∧
      (s.Edits paths g event → s.generation < (s.step paths g a event).generation) := by
  have hkept : s.phase = .checking pass' → s.generation ≤ (s.step paths g a event).generation →
      (s.Edits paths g event → s.generation < (s.step paths g a event).generation) →
      ∃ pass, s.phase = .checking pass ∧ pass'.docs = pass.docs ∧
        pass'.requested = pass.requested ∧ pass'.generation = pass.generation ∧
        s.generation ≤ (s.step paths g a event).generation ∧
        (s.Edits paths g event → s.generation < (s.step paths g a event).generation) :=
    fun hphase hle hlt => ⟨pass', hphase, rfl, rfl, rfl, hle, hlt⟩
  cases event with
  | didOpen => exact .inr (hkept hphase (Nat.le_succ _) fun _ => Nat.lt_succ_self _)
  | didClose => exact .inr (hkept hphase (Nat.le_succ _) fun _ => Nat.lt_succ_self _)
  | didChange uri changes version =>
    dsimp only [step, Edits] at hphase hkept ⊢
    split at hphase
    · rename_i happlied
      rw [if_pos happlied] at hkept ⊢
      exact .inr (hkept hphase (Nat.le_succ _) fun _ => Nat.lt_succ_self _)
    · rename_i hnot
      rw [if_neg hnot] at hkept ⊢
      exact .inr (hkept hphase le_rfl fun happlied => absurd happlied hnot)
  | queue work => cases work <;> exact .inr (hkept hphase le_rfl False.elim)
  | call | lock | land => exact .inr (hkept hphase le_rfl False.elim)
  | take world =>
    cases hnow : s.phase with
    | idle =>
      simp only [step, hnow] at hphase
      rcases (frame_take paths s world).2.2 with h | h | h
      · exact absurd (hnow.symm.trans (h.symm.trans hphase)) (by simp)
      · exact absurd (h.symm.trans hphase) (by simp)
      · exact absurd (h.symm.trans hphase) (by simp)
    | _ =>
      simp only [step, hnow] at hphase hkept ⊢
      exact .inr (hkept hphase le_rfl False.elim)
  | due order =>
    cases hnow : s.phase with
    | idle =>
      simp only [step, hnow] at hphase ⊢
      split at hphase
      · rename_i hdue
        rw [if_pos hdue]
        refine .inl ⟨order, rfl, trivial, rfl, ?_⟩
        unfold beginPass at hphase ⊢
        dsimp only at hphase ⊢
        split at hphase
        · rcases (request_frame { s with pending := ∅, deadline := false } s.pending).2.2.2.2 with
            h | h
          · exact absurd (hnow.symm.trans (h.symm.trans hphase)) (by simp)
          · exact absurd (h.symm.trans hphase) (by simp)
        · rename_i hwork
          rw [if_neg hwork]
          obtain rfl := Phase.checking.inj hphase
          exact ⟨rfl, rfl, rfl⟩
      · exact absurd (hnow.symm.trans hphase) (by simp)
    | _ =>
      simp only [step, hnow] at hphase hkept ⊢
      exact .inr (hkept hphase le_rfl False.elim)
  | parse =>
    cases hnow : s.phase with
    | checking pass =>
      simp only [step, hnow] at hphase ⊢
      unfold startParse at hphase ⊢
      split at hphase
      · obtain rfl := Phase.checking.inj (hnow.symm.trans hphase)
        exact .inr ⟨pass, rfl, rfl, rfl, rfl, le_rfl, False.elim⟩
      · obtain rfl := Phase.checking.inj hphase
        exact .inr ⟨pass, rfl, rfl, rfl, rfl, le_rfl, False.elim⟩
    | _ =>
      simp only [step, hnow] at hphase hkept ⊢
      exact .inr (hkept hphase le_rfl False.elim)
  | gather =>
    cases hnow : s.phase with
    | checking pass =>
      simp only [step, hnow] at hphase ⊢
      unfold gather at hphase ⊢
      split at hphase
      · rename_i hready
        rw [if_pos hready]
        obtain rfl := Phase.checking.inj hphase
        exact .inr ⟨pass, rfl, rfl, rfl, rfl, le_rfl, False.elim⟩
      · rename_i hnot
        rw [if_neg hnot]
        obtain rfl := Phase.checking.inj (hnow.symm.trans hphase)
        exact .inr ⟨pass, rfl, rfl, rfl, rfl, le_rfl, False.elim⟩
    | _ =>
      simp only [step, hnow] at hphase hkept ⊢
      exact .inr (hkept hphase le_rfl False.elim)
  | commit =>
    cases hnow : s.phase with
    | checking pass =>
      simp only [step, hnow] at hphase ⊢
      unfold commit at hphase ⊢
      split at hphase
      · obtain rfl := Phase.checking.inj (hnow.symm.trans hphase)
        exact .inr ⟨pass, rfl, rfl, rfl, rfl, le_rfl, False.elim⟩
      · split at hphase
        · rcases (request_frame { s with phase := .idle } pass.requested).2.2.2.2 with h | h
          · exact absurd (h.symm.trans hphase) (by simp)
          · exact absurd (h.symm.trans hphase) (by simp)
        · cases hphase
    | _ =>
      simp only [step, hnow] at hphase hkept ⊢
      exact .inr (hkept hphase le_rfl False.elim)
  | reconcile =>
    cases hnow : s.phase with
    | reconciling requested published =>
      simp only [step, hnow] at hphase
      cases hphase
    | _ =>
      simp only [step, hnow] at hphase hkept ⊢
      exact .inr (hkept hphase le_rfl False.elim)

theorem inFlight_step {h : History Uri Ast} (hs : s.session.Explained g h)
    (hf : ∀ pass, s.phase = .checking pass → s.InFlight g pass)
    (event : ServerEvent Uri Tree Ast Error Ctx) {pass' : Pass Uri Tree Ast}
    (hphase : (s.step paths g a event).phase = .checking pass') :
    (s.step paths g a event).InFlight g pass' := by
  have hsession : ∀ {e}, ¬ Session.Edits e → s.phase = .checking pass' →
      InFlight g { s with session := s.session.step paths g e } pass' :=
    fun hevent hnow => (hf pass' hnow).session paths hs hevent
  cases event with
  | didOpen uri text version => exact (hf pass' hphase).edited rfl
  | didClose uri => exact (hf pass' hphase).edited rfl
  | didChange uri changes version =>
    dsimp only [step] at hphase ⊢
    split at hphase
    · rename_i happlied
      rw [if_pos happlied]
      exact (hf pass' hphase).edited rfl
    · rename_i hnot
      rw [if_neg hnot]
      exact hf pass' hphase
  | queue work =>
    have hadd : s.phase = .checking pass' →
        InFlight g { s with work := s.work ++ [work] } pass' := fun hnow =>
      ⟨(hf pass' hnow).generation, (hf pass' hnow).same, (hf pass' hnow).versions,
        (hf pass' hnow).toParse, (hf pass' hnow).opened, (hf pass' hnow).files⟩
    cases work with
    | publish | closed => exact hf pass' hphase
    | configure | folders | watched | shutdown => exact hadd hphase
  | call path => exact hsession (e := .call path) id hphase
  | lock call => exact hsession (e := .lock call) id hphase
  | land call result => exact hsession (e := .land call result) id hphase
  | due order =>
    rcases checking_step a paths hphase with ⟨order', -, hidle, hbegin, -⟩ | ⟨pass, hnow, -⟩
    · rw [hbegin] at hphase ⊢
      exact inFlight_beginPass a hidle hphase
    · simp only [step, hnow] at hphase ⊢
      exact hf pass' (hnow.trans hphase)
  | take | reconcile =>
    rcases checking_step a paths hphase with ⟨order', heq, -⟩ | ⟨pass, hnow, -⟩
    · cases heq
    · simp only [step, hnow] at hphase ⊢
      exact hf pass' (hnow.trans hphase)
  | parse =>
    rcases checking_step a paths hphase with ⟨order', heq, -⟩ | ⟨pass, hnow, -⟩
    · cases heq
    · simp only [step, hnow] at hphase ⊢
      exact inFlight_startParse paths (hf pass hnow) hs hnow hphase
  | gather =>
    rcases checking_step a paths hphase with ⟨order', heq, -⟩ | ⟨pass, hnow, -⟩
    · cases heq
    · simp only [step, hnow] at hphase ⊢
      exact inFlight_gather a (hf pass hnow) hs hnow hphase
  | commit =>
    rcases checking_step a paths hphase with ⟨order', heq, -⟩ | ⟨pass, hnow, -⟩
    · cases heq
    · simp only [step, hnow] at hphase ⊢
      unfold commit at hphase ⊢
      split at hphase
      · exact hf pass' hphase
      · split at hphase
        · rcases (request_frame { s with phase := .idle } pass.requested).2.2.2.2 with h' | h'
          · exact absurd (h'.symm.trans hphase) (by simp)
          · exact absurd (h'.symm.trans hphase) (by simp)
        · cases hphase

/-! ## Runs -/

/-- Every parse that lands in the run has a result the parser can give. -/
def AllowedRun (paths : UriPaths Uri) (g : Grammar Tree Ast Error)
    (a : Analyzer Uri Ast Error Ctx D) (ctx : Ctx)
    (events : List (ServerEvent Uri Tree Ast Error Ctx)) : Prop :=
  ∀ before event after, events = before ++ event :: after →
    (run paths g a ctx before).Allowed g event

variable {paths a} {ctx : Ctx} {events : List (ServerEvent Uri Tree Ast Error Ctx)}

theorem AllowedRun.init {event : ServerEvent Uri Tree Ast Error Ctx}
    (h : AllowedRun paths g a ctx (events ++ [event])) : AllowedRun paths g a ctx events :=
  fun before event' after hsplit => h before event' (after ++ [event]) (by simp [hsplit])

theorem reachable_run (hallowed : AllowedRun paths g a ctx events) :
    (run paths g a ctx events).session.Reachable paths g := by
  induction events using List.reverseRecOn with
  | nil => exact .empty
  | append_singleton events event ih =>
    rw [run_append]
    rcases session_step a paths (hallowed events event [] rfl) with hsame | ⟨event', hevent, hstep⟩
    · rw [hsame]
      exact ih hallowed.init
    · rw [hstep]
      exact (ih hallowed.init).step hevent

theorem inFlight_run (hallowed : AllowedRun paths g a ctx events) {pass : Pass Uri Tree Ast}
    (hphase : (run paths g a ctx events).phase = .checking pass) :
    (run paths g a ctx events).InFlight g pass := by
  induction events using List.reverseRecOn generalizing pass with
  | nil => exact nomatch hphase
  | append_singleton events event ih =>
    rw [run_append] at hphase ⊢
    obtain ⟨h, hs⟩ := (reachable_run hallowed.init).explained
    exact inFlight_step a paths hs (fun pass' => ih hallowed.init) event hphase

/-- The pass took its snapshot in this run, and no document was edited since. -/
def Unedited (paths : UriPaths Uri) (g : Grammar Tree Ast Error)
    (a : Analyzer Uri Ast Error Ctx D) (ctx : Ctx)
    (events : List (ServerEvent Uri Tree Ast Error Ctx)) (pass : Pass Uri Tree Ast) : Prop :=
  ∃ before order middle, events = before ++ .due order :: middle ∧
    (run paths g a ctx before).phase = .idle ∧ (run paths g a ctx before).docs = pass.docs ∧
    ∀ first event rest, middle = first ++ event :: rest →
      (∃ pass', (run paths g a ctx (before ++ .due order :: first)).phase = .checking pass' ∧
        pass'.generation = pass.generation) ∧
      ¬ (run paths g a ctx (before ++ .due order :: first)).Edits paths g event

/-- The generation counts the edits since the snapshot. -/
theorem unedited_run (hallowed : AllowedRun paths g a ctx events) {pass : Pass Uri Tree Ast}
    (hphase : (run paths g a ctx events).phase = .checking pass)
    (hgeneration : (run paths g a ctx events).generation = pass.generation) :
    Unedited paths g a ctx events pass := by
  induction events using List.reverseRecOn generalizing pass with
  | nil => exact nomatch hphase
  | append_singleton events event ih =>
    rw [run_append] at hphase hgeneration
    rcases checking_step a paths hphase with
      ⟨order, rfl, hidle, -, hdocs, -⟩ | ⟨pass', hnow, hdocs, -, hsame, hle, hlt⟩
    · refine ⟨events, order, [], rfl, hidle, hdocs.symm, fun first event rest hsplit => ?_⟩
      simp at hsplit
    · have hstarted := (inFlight_run hallowed.init hnow).generation
      have hstill : (run paths g a ctx events).generation = pass'.generation := by omega
      have hnot : ¬ (run paths g a ctx events).Edits paths g event := fun hedits => by
        have := hlt hedits
        omega
      obtain ⟨before, order, middle, rfl, hidle, hbefore, hmiddle⟩ := ih hallowed.init hnow hstill
      refine ⟨before, order, middle ++ [event], by simp, hidle, hbefore.trans hdocs.symm,
        fun first event' rest hsplit => ?_⟩
      rcases List.eq_nil_or_concat rest with rfl | ⟨rest, last, rfl⟩
      · obtain ⟨rfl, hlast⟩ := List.append_inj' hsplit rfl
        obtain rfl := List.singleton_inj.mp hlast
        exact ⟨⟨pass', hnow, hsame.symm⟩, hnot⟩
      · rw [List.concat_eq_append, ← List.cons_append, ← List.append_assoc] at hsplit
        obtain ⟨rfl, -⟩ := List.append_inj' hsplit rfl
        obtain ⟨⟨pass'', hthen, hown⟩, hkept⟩ := hmiddle first event' rest rfl
        exact ⟨⟨pass'', hthen, hown.trans hsame.symm⟩, hkept⟩

end Steps

end Server

end Ry
