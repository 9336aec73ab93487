import Ry.Lsp.ParsedFile
import Ry.Scope.Mutators

/-! # The index writer

`writer.rs` and the handlers of `handlers.rs`: one task writes the disk index, the folder
contexts and the publication record, and publishes diagnostics.  Handlers change the open
documents under the state lock and queue the writer's work under the same lock.

A step is what one lock acquisition sees.  A pass takes many: its snapshot, its parses, the
collection of the files to check, its commit, and the reconciliation that follows, with handlers
in between.  What the writer reads from the disk is a `World`: the contexts and the index after
the item of work.  The debounce is left out: an armed deadline may be due at any time.
-/

namespace Ry

inductive Work (Uri : Type)
  /-- `initialized` or a configuration change. -/
  | configure
  | folders (removed : List String)
  | watched
  /-- An open document changed. -/
  | publish (path : String)
  /-- `uri` closed at `path`; `shared` when another URI is still open there. -/
  | closed (uri : Uri) (path : String) (shared : Bool)
  | shutdown

/-- What a batch of watched files meant. -/
inductive Refreshed
  | nothing
  /-- Package metadata, data, stubs or configuration: everything was scanned. -/
  | resolution
  /-- These sources changed their entries. -/
  | sources (paths : List String)

structure World (Ast Ctx : Type) where
  ctx : Ctx
  disk : Table String (SourceFile Ast)
  refreshed : Refreshed

/-- A file to check, with its document's version (0 on disk). -/
structure PackageFile (Ast : Type) where
  path : String
  version : Int
  file : SourceFile Ast

/-- The folder contexts' rules and the checker. -/
structure Analyzer (Uri Ast Error Ctx D : Type) where
  /-- `eligibility_for_path_with_len`: the length is the open text's. -/
  eligible : Ctx → String → Option Nat → Bool
  excludes : Ctx → String → Bool
  /-- Diagnostics of the checked files, with the generation and versions they carry. -/
  check : Ctx → Nat → Finset String → List (PackageFile Ast) → List (String × List D)
  parseFailure : Ctx → Nat → String → Int → List Char → Error → List D
  /-- A colliding document's own warning. -/
  ambiguous : Ctx → Nat → String → Uri → List Char → Int → List D

structure Publication (Uri D : Type) where
  uri : Uri
  diagnostics : List D
  version : Option Int

/-- What a pass sent for one display path: every destination, and those that received
diagnostics. -/
structure Published (Uri : Type) where
  path : String
  destinations : Finset Uri
  nonEmpty : Finset Uri

variable {Uri Tree Ast Error Ctx D : Type}

/-- An open path whose parse the pass waits for. -/
structure OpenFile where
  path : String
  version : Int
  call : Nat

/-- A pass, from its snapshot to its commit. -/
structure Pass (Uri Tree Ast : Type) where
  generation : Nat
  /-- The pending set it took. -/
  requested : Finset String
  /-- The documents its snapshot saw. -/
  docs : Documents Uri Tree Ast
  /-- The eligible open paths and their active versions. -/
  versions : List (String × Int)
  toParse : List (String × Int)
  opened : List OpenFile
  files : Option (List (PackageFile Ast))

inductive Phase (Uri Tree Ast : Type)
  | idle
  | checking (pass : Pass Uri Tree Ast)
  /-- Publications are out, the record is not yet up to date. -/
  | reconciling (requested : Finset String) (published : List (Published Uri))
  | stopped

structure Server (Uri Tree Ast Error Ctx D : Type) where
  session : Session Uri Tree Ast Error
  generation : Nat
  work : List (Work Uri)
  ctx : Ctx
  disk : Table String (SourceFile Ast)
  /-- Paths requested since the last pass, and whether the next one is armed. -/
  pending : Finset String
  deadline : Bool
  indexed : Bool
  /-- URIs whose last publication carried diagnostics, keyed by display path. -/
  publishedUris : Table String (Finset Uri)
  /-- What the client was sent, newest first. -/
  sent : List (Publication Uri D)
  phase : Phase Uri Tree Ast

inductive ServerEvent (Uri Tree Ast Error Ctx : Type)
  | didOpen (uri : Uri) (text : List Char) (version : Int)
  | didChange (uri : Uri) (changes : List ContentChange) (version : Int)
  | didClose (uri : Uri)
  /-- A handler that only queues work. -/
  | queue (work : Work Uri)
  /-- A step of a `parsed_file` call; hints and code actions make such calls, too. -/
  | call (path : String)
  | lock (call : Nat)
  | land (call : Nat) (result : Except Error (SourceFile Ast × Option Tree))
  /-- The writer handles the next item of work. -/
  | take (world : World Ast Ctx)
  /-- The deadline is due. -/
  | due (order : IterOrder)
  /-- The pass asks for its next parse. -/
  | parse
  /-- The pass has its parses and collects the files to check. -/
  | gather
  | commit
  | reconcile

/-- A path's components. -/
def pathComponents (path : String) : List (List Char) :=
  (path.toList.splitOn '/').filter (· ≠ [])

def pathStartsWith (path root : String) : Bool :=
  (pathComponents root).isPrefixOf (pathComponents path)

namespace Server

/-- An empty server. -/
def start (ctx : Ctx) : Server Uri Tree Ast Error Ctx D :=
  { session := .empty
    generation := 0
    work := []
    ctx
    disk := ∅
    pending := ∅
    deadline := false
    indexed := false
    publishedUris := ∅
    sent := []
    phase := .idle }

def docs (s : Server Uri Tree Ast Error Ctx D) : Documents Uri Tree Ast := s.session.docs

/-- The recorded URIs of a path. -/
def recorded (s : Server Uri Tree Ast Error Ctx D) (path : String) : Finset Uri :=
  (s.publishedUris.lookup path).getD ∅

section Steps

variable [LinearOrder Uri] (paths : UriPaths Uri) (g : Grammar Tree Ast Error)
  (a : Analyzer Uri Ast Error Ctx D)

/-- Empty publications, in some order. -/
def clear (s : Server Uri Tree Ast Error Ctx D) (uris : Finset Uri) :
    Server Uri Tree Ast Error Ctx D :=
  { s with sent := (uris.sort (· ≤ ·)).map (fun uri => ⟨uri, [], none⟩) ++ s.sent }

/-- Schedule a pass covering `names`.  With nothing requested, only dropped URIs are
reconciled. -/
def request (s : Server Uri Tree Ast Error Ctx D) (names : Finset String) :
    Server Uri Tree Ast Error Ctx D :=
  let pending := s.pending ∪ names
  if pending = ∅ then { s with pending, phase := .reconciling ∅ [] }
  else { s with pending, deadline := true }

def close (s : Server Uri Tree Ast Error Ctx D) (world : World Ast Ctx) (uri : Uri)
    (path : String) (shared : Bool) : Server Uri Tree Ast Error Ctx D :=
  if shared then
    let left := (s.recorded path).erase uri
    let publishedUris :=
      if left = ∅ then s.publishedUris.erase path else s.publishedUris.insert path left
    (clear { s with publishedUris } {uri}).request {path}
  else
    -- the close's empty publication is this path's last word unless a pass is requested below
    let pending := s.pending.erase path
    let closed := clear
      { s with
        publishedUris := s.publishedUris.erase path
        pending
        deadline := if pending = ∅ then false else s.deadline
        ctx := world.ctx
        disk := world.disk } {uri}
    if s.docs.paths = ∅ then closed else closed.request s.docs.paths

/-- Drop everything under removed roots, scan, and republish what remains. -/
def changeFolders (s : Server Uri Tree Ast Error Ctx D) (world : World Ast Ctx)
    (removed : List String) : Server Uri Tree Ast Error Ctx D :=
  let underRemovedRoot := fun path => removed.any (pathStartsWith path)
  let toClear := (s.docs.paths.filter (underRemovedRoot ·)).biUnion
      (fun path => (s.docs.uris paths path).toFinset) ∪
    (s.publishedUris.keys.filter (underRemovedRoot ·)).biUnion s.recorded
  let toRepublish := s.docs.paths.filter (!underRemovedRoot ·)
  (clear
    { s with
      publishedUris := Table.retain s.publishedUris fun path _ => !underRemovedRoot path
      ctx := world.ctx
      disk := world.disk
      indexed := true } toClear).request toRepublish

def watchedFiles (s : Server Uri Tree Ast Error Ctx D) (world : World Ast Ctx) :
    Server Uri Tree Ast Error Ctx D :=
  let seen := { s with ctx := world.ctx, disk := world.disk }
  match world.refreshed with
  | .nothing => s
  | .resolution => { seen with indexed := true }.request (s.publishedUris.keys ∪ s.docs.paths)
  | .sources [] => s
  | .sources names => seen.request (names.toFinset ∪ s.docs.paths)

/-- Apply the next item of work. -/
def take (s : Server Uri Tree Ast Error Ctx D) (world : World Ast Ctx) :
    Server Uri Tree Ast Error Ctx D :=
  match s.work with
  | [] => s
  | work :: rest =>
    let s := { s with work := rest }
    match work with
    | .configure =>
      { s with ctx := world.ctx, disk := world.disk, indexed := true }.request s.docs.paths
    | .folders removed => s.changeFolders paths world removed
    | .watched => s.watchedFiles world
    | .publish path => s.request {path}
    | .closed uri path shared => s.close world uri path shared
    | .shutdown => { s with phase := .stopped }

/-- `eligibility_for_path`. -/
def eligibleNow (s : Server Uri Tree Ast Error Ctx D) (path : String) : Bool :=
  a.eligible s.ctx path ((s.docs.active path).map fun doc => byteLen doc.text)

/-- Whether any document open at the path is eligible, each judged by its own size. -/
def anyOpenSourceEligible (s : Server Uri Tree Ast Error Ctx D) (path : String) : Bool :=
  match s.docs.docsAt path with
  | [] => a.eligible s.ctx path none
  | docs => docs.any fun doc => a.eligible s.ctx path (some (byteLen doc.text))

/-- A due pass: with work queued it only puts its request back. -/
def beginPass (s : Server Uri Tree Ast Error Ctx D) (order : IterOrder) :
    Server Uri Tree Ast Error Ctx D :=
  let requested := s.pending
  let s := { s with pending := ∅, deadline := false }
  if s.work ≠ [] then s.request requested
  else
    let versions := ((order.list s.docs.paths).filter (s.eligibleNow a ·)).filterMap fun path =>
      (s.docs.active path).map fun doc => (path, doc.version)
    { s with
      generation := s.generation + 1
      phase := .checking
        { generation := s.generation + 1
          requested
          docs := s.docs
          versions
          toParse := versions
          opened := []
          files := none } }

def startParse (s : Server Uri Tree Ast Error Ctx D) (pass : Pass Uri Tree Ast) :
    Server Uri Tree Ast Error Ctx D :=
  match pass.toParse with
  | [] => s
  | (path, version) :: rest =>
    { s with
      session := s.session.step paths g (.call path)
      phase := .checking
        { pass with
          toParse := rest
          opened := pass.opened ++ [⟨path, version, s.session.calls.length⟩] } }

/-- The file an open path contributes. -/
def openFile (s : Server Uri Tree Ast Error Ctx D) (f : OpenFile) : Option (PackageFile Ast) :=
  match s.session.calls[f.call]? with
  | some ⟨_, .returned _ file _⟩ => some ⟨f.path, f.version, file.value⟩
  | _ => none

def parseEnded (s : Server Uri Tree Ast Error Ctx D) (f : OpenFile) : Bool :=
  match s.session.calls[f.call]? with
  | some ⟨_, .returned ..⟩ | some ⟨_, .failed ..⟩ | some ⟨_, .closed⟩ => true
  | _ => false

/-- An open buffer owns its path, so its disk twin never contributes. -/
def gatherFiles (s : Server Uri Tree Ast Error Ctx D) (pass : Pass Uri Tree Ast) :
    List (PackageFile Ast) :=
  let disk := ((IterOrder.sorted.list s.disk.keys).filter fun path =>
    !s.docs.contains path && s.eligibleNow a path).filterMap fun path =>
      (s.disk.lookup path).map fun file => ⟨path, 0, file⟩
  (disk ++ pass.opened.filterMap s.openFile).mergeSort fun f f' => decide (f.path ≤ f'.path)

def gather (s : Server Uri Tree Ast Error Ctx D) (pass : Pass Uri Tree Ast) :
    Server Uri Tree Ast Error Ctx D :=
  if pass.toParse = [] ∧ pass.opened.all s.parseEnded = true ∧ pass.files = none then
    { s with phase := .checking { pass with files := some (s.gatherFiles a pass) } }
  else s

/-- The warning of one document among several at a path. -/
def warnings (s : Server Uri Tree Ast Error Ctx D) (pass : Pass Uri Tree Ast) (path : String)
    (uri : Uri) : List D :=
  let docs := pass.docs.docsAt path
  if 1 < docs.length ∧ a.excludes s.ctx path = false then
    match (docs.filter fun doc => a.eligible s.ctx path (some (byteLen doc.text))).find?
        (·.uri = uri) with
    | some doc => a.ambiguous s.ctx pass.generation path uri doc.text doc.version
    | none => []
  else []

/-- A buffer that did not parse. -/
def unparsed (s : Server Uri Tree Ast Error Ctx D) (pass : Pass Uri Tree Ast) (f : OpenFile) :
    Option (String × List D) :=
  match s.session.calls[f.call]? with
  | some ⟨_, .failed text error⟩ =>
    if a.excludes s.ctx f.path then none
    else some (f.path, a.parseFailure s.ctx pass.generation f.path f.version text error)
  | _ => none

/-- What goes out: the checked files, the buffers that did not parse, and colliding paths that
were not checked. -/
def outgoing (s : Server Uri Tree Ast Error Ctx D) (pass : Pass Uri Tree Ast)
    (files : List (PackageFile Ast)) : List (String × Option (List D)) :=
  let checked := (a.check s.ctx pass.generation pass.docs.paths files).filter fun (path, _) =>
    files.any (·.path == path) && !a.excludes s.ctx path
  let found := (checked ++ pass.opened.filterMap (s.unparsed a pass)).map fun (path, diagnostics) => (path, some diagnostics)
  let colliding := (IterOrder.sorted.list pass.docs.paths).filter fun path =>
    decide (1 < (pass.docs.docsAt path).length) && !found.any (·.1 == path)
  found ++ colliding.map fun path => (path, none)

/-- One path's publications: the active document owns the check results. -/
def publications (s : Server Uri Tree Ast Error Ctx D) (pass : Pass Uri Tree Ast)
    (out : String × Option (List D)) : List (Publication Uri D) :=
  (pass.docs.uris paths out.1).map fun uri =>
    let owner := (pass.docs.active out.1).all (·.uri == uri)
    { uri
      diagnostics := (if owner then out.2.getD [] else []) ++ s.warnings a pass out.1 uri
      version := if owner && out.2.isSome then pass.versions.lookup out.1 else none }

def published (s : Server Uri Tree Ast Error Ctx D) (pass : Pass Uri Tree Ast)
    (out : String × Option (List D)) : Published Uri :=
  { path := out.1
    destinations := (pass.docs.uris paths out.1).toFinset
    nonEmpty := (((s.publications paths a pass out).filter (!·.diagnostics.isEmpty)).map
      (·.uri)).toFinset }

/-- An edit during the check invalidates the whole result. -/
def commit (s : Server Uri Tree Ast Error Ctx D) (pass : Pass Uri Tree Ast) :
    Server Uri Tree Ast Error Ctx D :=
  match pass.files with
  | none => s
  | some files =>
    if s.generation ≠ pass.generation then { s with phase := .idle }.request pass.requested
    else
      let out := s.outgoing a pass files
      { s with
        sent := (out.flatMap (s.publications paths a pass)).reverse ++ s.sent
        phase := .reconciling pass.requested (out.map (s.published paths a pass)) }

/-- The record of one published path, and the URIs that are no longer sent to. -/
def reconcilePath (state : Table String (Finset Uri) × Finset Uri) (p : Published Uri) :
    Table String (Finset Uri) × Finset Uri :=
  let previous := (state.1.lookup p.path).getD ∅
  (if p.nonEmpty = ∅ then state.1.erase p.path else state.1.insert p.path p.nonEmpty,
    state.2 ∪ (previous \ p.destinations))

/-- Clear every URI that should no longer show diagnostics. -/
def reconcile (s : Server Uri Tree Ast Error Ctx D) (requested : Finset String)
    (published : List (Published Uri)) : Server Uri Tree Ast Error Ctx D :=
  let (record, stale) := published.foldl reconcilePath (s.publishedUris, ∅)
  let unanalyzed := (requested.filter (!s.anyOpenSourceEligible a ·)).biUnion fun path =>
    (s.docs.uris paths path).toFinset
  let dropped := record.keys.filter fun path =>
    !s.anyOpenSourceEligible a path ||
      (!s.docs.contains path && (s.disk.lookup path).isNone)
  clear
    { s with
      publishedUris := Table.retain record fun path _ => decide (path ∉ dropped)
      phase := .idle }
    (stale ∪ unanalyzed ∪ dropped.biUnion fun path => (record.lookup path).getD ∅)

/-- A handler changed the documents and queues its follow-up under the same lock. -/
def changed (s : Server Uri Tree Ast Error Ctx D) (session : Session Uri Tree Ast Error)
    (work : Work Uri) : Server Uri Tree Ast Error Ctx D :=
  { s with session, generation := s.generation + 1, work := s.work ++ [work] }

def step (s : Server Uri Tree Ast Error Ctx D) : ServerEvent Uri Tree Ast Error Ctx →
    Server Uri Tree Ast Error Ctx D
  | .didOpen uri text version =>
    s.changed (s.session.step paths g (.didOpen uri text version)) (.publish (paths.toPath uri))
  | .didChange uri changes version =>
    if (s.docs.change paths g.editTree uri changes version).2 then
      s.changed (s.session.step paths g (.didChange uri changes version))
        (.publish (paths.toPath uri))
    else s
  | .didClose uri =>
    let session := s.session.step paths g (.didClose uri)
    s.changed session
      (.closed uri (paths.toPath uri) (session.docs.contains (paths.toPath uri)))
  | .queue work =>
    match work with
    | .publish _ | .closed .. => s
    | work => { s with work := s.work ++ [work] }
  | .call path => { s with session := s.session.step paths g (.call path) }
  | .lock call => { s with session := s.session.step paths g (.lock call) }
  | .land call result => { s with session := s.session.step paths g (.land call result) }
  | .take world =>
    match s.phase with
    | .idle => s.take paths world
    | _ => s
  | .due order =>
    match s.phase with
    | .idle => if s.deadline && s.indexed then s.beginPass a order else s
    | _ => s
  | .parse =>
    match s.phase with
    | .checking pass => s.startParse paths g pass
    | _ => s
  | .gather =>
    match s.phase with
    | .checking pass => s.gather a pass
    | _ => s
  | .commit =>
    match s.phase with
    | .checking pass => s.commit paths a pass
    | _ => s
  | .reconcile =>
    match s.phase with
    | .reconciling requested published => s.reconcile paths a requested published
    | _ => s

/-- A parse lands with a result the parser can give. -/
def Allowed (s : Server Uri Tree Ast Error Ctx D) : ServerEvent Uri Tree Ast Error Ctx → Prop
  | .land call result => s.session.Allowed g (.land call result)
  | _ => True

end Steps

end Server

end Ry
