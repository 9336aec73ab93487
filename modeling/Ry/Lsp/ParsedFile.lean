import Ry.Lsp.Documents

/-! # Parsing outside the lock

`parsed_file` of `backend.rs`: a call takes a snapshot of the document its path analyzes,
parses without the lock, and comes back to install what it parsed.  Any handler may run in
between, and any number of calls.

The parser is tree-sitter's; `Grammar` is what the backend relies on.
-/

namespace Ry

/-- A path's last component. -/
def fileName (path : String) : Option (List Char) :=
  match ((path.toList.splitOn '/').filter fun part => part ≠ [] ∧ part ≠ ['.']).getLast? with
  | some name => if name = ['.', '.'] then none else some name
  | none => none

/-- What follows the last dot of a name, unless the name begins with it. -/
def extension (name : List Char) : Option (List Char) :=
  let after := (name.reverse.takeWhile (· ≠ '.')).reverse
  if after.length + 1 < name.length then some after else none

def reportExtensions : List String := ["rmd", "qmd"]

def isReportPath (path : String) : Bool :=
  ((fileName path).bind extension).any fun ext =>
    reportExtensions.any fun report => ext.map Char.toLower == report.toList

/-- The incremental parser, and the parser behind the report mask.  A tree that was told of
every edit goes on describing the text. -/
structure Grammar (Tree Ast Error : Type) where
  Parses : String → List Char → Option Tree → Except Error (Ast × Tree) → Prop
  ParsesReport : String → List Char → Except Error Ast → Prop
  editTree : Tree → InputEdit → Tree
  Describes : Tree → List Char → Prop
  describes_editTree : ∀ {tree e old new}, Describes tree old → e.Of old new →
    Describes (editTree tree e) new
  describes_parse : ∀ {path source oldTree ast tree},
    Parses path source oldTree (.ok (ast, tree)) → (∀ t, oldTree = some t → Describes t source) →
    Describes tree source

variable {Uri Tree Ast Error : Type}

/-- `parse_source_with_tree`: a report goes through the mask and has no tree. -/
inductive Grammar.ParsesSource (g : Grammar Tree Ast Error) (path : String) (source : List Char)
    (oldTree : Option Tree) : Except Error (SourceFile Ast × Option Tree) → Prop
  | report {ast} (hreport : isReportPath path = true)
      (hparses : g.ParsesReport path source (.ok ast)) :
      ParsesSource g path source oldTree (.ok (⟨path, none, source, ast⟩, none))
  | reportError {error} (hreport : isReportPath path = true)
      (hparses : g.ParsesReport path source (.error error)) :
      ParsesSource g path source oldTree (.error error)
  | plain {ast tree} (hplain : isReportPath path = false)
      (hparses : g.Parses path source oldTree (.ok (ast, tree))) :
      ParsesSource g path source oldTree (.ok (⟨path, none, source, ast⟩, some tree))
  | plainError {error} (hplain : isReportPath path = false)
      (hparses : g.Parses path source oldTree (.error error)) :
      ParsesSource g path source oldTree (.error error)

/-- Where a call is. -/
inductive CallState (Uri Tree Ast Error : Type)
  | waiting
  | parsing (seen : Document Uri Tree Ast)
  | returned (edit : Nat) (file : Arc (SourceFile Ast)) (text : List Char)
  | failed (text : List Char) (error : Error)
  | closed

structure Call (Uri Tree Ast Error : Type) where
  path : String
  state : CallState Uri Tree Ast Error

/-- The documents and the calls of `parsed_file`. -/
structure Session (Uri Tree Ast Error : Type) where
  docs : Documents Uri Tree Ast
  /-- Finished calls stay, with what they returned. -/
  calls : List (Call Uri Tree Ast Error)
  nextAddress : Nat

inductive SessionEvent (Uri Tree Ast Error : Type)
  | didOpen (uri : Uri) (text : List Char) (version : Int)
  | didChange (uri : Uri) (changes : List ContentChange) (version : Int)
  | didClose (uri : Uri)
  | call (path : String)
  /-- The call gets the lock and looks at the document. -/
  | lock (call : Nat)
  /-- The call gets the lock again, with this result. -/
  | land (call : Nat) (result : Except Error (SourceFile Ast × Option Tree))

namespace Documents

/-- Change the document `path` analyzes. -/
def updateActive (docs : Documents Uri Tree Ast) (path : String)
    (f : Document Uri Tree Ast → Document Uri Tree Ast) : Documents Uri Tree Ast :=
  match docs.active path with
  | none => docs
  | some doc => { docs with byPath := docs.byPath.insert path ((docs.docsAt path).dropLast ++ [f doc]) }

end Documents

namespace Session

def empty : Session Uri Tree Ast Error := ⟨.empty, [], 0⟩

def setCall (s : Session Uri Tree Ast Error) (i : Nat) (path : String)
    (state : CallState Uri Tree Ast Error) : Session Uri Tree Ast Error :=
  { s with calls := s.calls.set i ⟨path, state⟩ }

/-- The first half of a turn: a stored parse is returned at once. -/
def look (s : Session Uri Tree Ast Error) (path : String) : CallState Uri Tree Ast Error :=
  match s.docs.active path with
  | none => .closed
  | some doc =>
    match doc.parsed with
    | some file => .returned doc.edit file doc.text
    | none => .parsing doc

/-- The second half: the parse lands only if the path still analyzes the edit it is of, and
keeps an AST that landed first. -/
def install (s : Session Uri Tree Ast Error) (i : Nat) (path : String)
    (seen : Document Uri Tree Ast) (file : SourceFile Ast) (tree : Option Tree) :
    Session Uri Tree Ast Error :=
  match (s.docs.active path).filter (·.edit = seen.edit) with
  | none => s.setCall i path .waiting
  | some doc =>
    match doc.parsed with
    | some stored => s.setCall i path (.returned seen.edit stored seen.text)
    | none =>
      let stored := Arc.mk s.nextAddress { file with nativePath := seen.native }
      { s.setCall i path (.returned seen.edit stored seen.text) with
        docs := s.docs.updateActive path fun doc =>
          { doc with tree := tree.or doc.tree, parsed := some stored }
        nextAddress := s.nextAddress + 1 }

variable [LinearOrder Uri] (paths : UriPaths Uri) (g : Grammar Tree Ast Error)

def step (s : Session Uri Tree Ast Error) : SessionEvent Uri Tree Ast Error →
    Session Uri Tree Ast Error
  | .didOpen uri text version => { s with docs := s.docs.openDocument paths uri text version }
  | .didChange uri changes version =>
    { s with docs := (s.docs.change paths g.editTree uri changes version).1 }
  | .didClose uri => { s with docs := s.docs.close paths uri }
  | .call path => { s with calls := s.calls ++ [⟨path, .waiting⟩] }
  | .lock i =>
    match s.calls[i]? with
    | some ⟨path, .waiting⟩ => s.setCall i path (s.look path)
    | _ => s
  | .land i result =>
    match s.calls[i]? with
    | some ⟨path, .parsing seen⟩ =>
      match result with
      | .ok (file, tree) => s.install i path seen file tree
      | .error error => s.setCall i path (.failed seen.text error)
    | _ => s

/-- A parse lands with a result the parser can give. -/
def Allowed (s : Session Uri Tree Ast Error) : SessionEvent Uri Tree Ast Error → Prop
  | .land i result => ∀ path seen, s.calls[i]? = some ⟨path, .parsing seen⟩ →
      g.ParsesSource path seen.text seen.tree result
  | _ => True

/-- Any interleaving, from a session without documents. -/
inductive Reachable : Session Uri Tree Ast Error → Prop
  | empty : Reachable .empty
  | step {s event} (hs : Reachable s) (hallowed : s.Allowed g event) :
      Reachable (s.step paths g event)

end Session

end Ry
