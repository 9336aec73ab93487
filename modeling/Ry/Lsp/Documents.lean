import Ry.Lib.Table
import Ry.Lsp.Positions
import Mathlib.Order.Defs.LinearOrder

/-! # Open documents

`documents.rs`: open buffers, keyed by URI and grouped by display path.  Two file names can
share a display path, and the most recently opened or edited document there is the one the path
analyzes.
-/

namespace Ry

/-- URIs and the display paths the checker keys them by. -/
structure UriPaths (Uri : Type) where
  toPath : Uri → String
  toUri : String → Uri
  native : Uri → Option String
  /-- A path's own URI is displayed as the path. -/
  toPath_toUri : ∀ path, toPath (toUri path) = path

/-- Paths that are their own URIs. -/
def plainPaths : UriPaths String where
  toPath := id
  toUri := id
  native := some
  toPath_toUri _ := rfl

/-- What a parse yields, with the text it is of. -/
structure SourceFile (Ast : Type) where
  path : String
  nativePath : Option String
  source : List Char
  ast : Ast

/-- An allocation: two are the same only if their addresses are. -/
structure Arc (A : Type) where
  address : Nat
  value : A

/-- An inline label, with the position it stands at. -/
structure InlayHint where
  position : Position
  label : String

/-- Hints, and the address of the stubs they were collected with. -/
structure CachedHints where
  stubs : Nat
  hints : List InlayHint

/-- One open buffer.  `tree`, `parsed` and `hints` describe the current text. -/
structure Document (Uri Tree Ast : Type) where
  uri : Uri
  native : Option String
  text : List Char
  version : Int
  /-- Unique across all documents and bumped by every edit. -/
  edit : Nat
  tree : Option Tree
  parsed : Option (Arc (SourceFile Ast))
  hints : Option CachedHints

/-- One content change: a replaced range, or the whole text. -/
structure ContentChange where
  range : Option Range
  text : List Char

structure Documents (Uri Tree Ast : Type) where
  /-- Display path to its documents, least recently edited first. -/
  byPath : Table String (List (Document Uri Tree Ast))
  edits : Nat

variable {Uri Tree Ast : Type}

/-- Apply one batch: the document, and whether any change applied.  A range that is no span of
the text stops the batch. -/
def Document.applyChanges (editTree : Tree → InputEdit → Tree) (doc : Document Uri Tree Ast) :
    List ContentChange → Document Uri Tree Ast × Bool
  | [] => (doc, false)
  | change :: changes =>
    match change.range with
    | some range =>
      match rangeByteSpan doc.text range with
      | none => (doc, false)
      | some (start, stop) =>
        let edited := { doc with
          tree := doc.tree.map fun tree => editTree tree (inputEdit doc.text start stop change.text)
          text := replaceRange doc.text start stop change.text }
        ((edited.applyChanges editTree changes).1, true)
    | none =>
      let replaced := { doc with text := change.text, tree := none }
      ((replaced.applyChanges editTree changes).1, true)

namespace Documents

def empty : Documents Uri Tree Ast := ⟨∅, 0⟩

/-- Every document open at `path`. -/
def docsAt (docs : Documents Uri Tree Ast) (path : String) : List (Document Uri Tree Ast) :=
  (docs.byPath.lookup path).getD []

def contains (docs : Documents Uri Tree Ast) (path : String) : Bool :=
  (docs.byPath.lookup path).isSome

/-- Display paths with at least one open document. -/
def paths (docs : Documents Uri Tree Ast) : Finset String := docs.byPath.keys

/-- The document `path` analyzes: the most recently edited one. -/
def active (docs : Documents Uri Tree Ast) (path : String) : Option (Document Uri Tree Ast) :=
  (docs.docsAt path).getLast?

section Edits

variable [LinearOrder Uri] (paths : UriPaths Uri) (editTree : Tree → InputEdit → Tree)

def openDocument (docs : Documents Uri Tree Ast) (uri : Uri) (text : List Char) (version : Int) :
    Documents Uri Tree Ast :=
  let path := paths.toPath uri
  let doc : Document Uri Tree Ast :=
    { uri, native := paths.native uri, text, version, edit := docs.edits + 1,
      tree := none, parsed := none, hints := none }
  { byPath := docs.byPath.insert path ((docs.docsAt path).filter (·.uri ≠ uri) ++ [doc])
    edits := docs.edits + 1 }

/-- Apply one batch of changes; whether any change applied. -/
def change (docs : Documents Uri Tree Ast) (uri : Uri) (changes : List ContentChange)
    (version : Int) : Documents Uri Tree Ast × Bool :=
  let path := paths.toPath uri
  match (docs.docsAt path).find? (·.uri = uri) with
  | none => (docs, false)
  | some doc =>
    match doc.applyChanges editTree changes with
    | (_, false) => (docs, false)
    | (edited, true) =>
      let doc := { edited with edit := docs.edits + 1, version, parsed := none, hints := none }
      ({ byPath := docs.byPath.insert path ((docs.docsAt path).eraseP (·.uri = uri) ++ [doc])
         edits := docs.edits + 1 }, true)

def close (docs : Documents Uri Tree Ast) (uri : Uri) : Documents Uri Tree Ast :=
  let path := paths.toPath uri
  match docs.byPath.lookup path with
  | none => docs
  | some opened =>
    let kept := opened.filter (·.uri ≠ uri)
    { docs with
      byPath := if kept.isEmpty then docs.byPath.erase path else docs.byPath.insert path kept }

end Edits

/-- Where diagnostics for `path` go: its open URIs in a stable order, or the display URI when
none is open. -/
def uris [LinearOrder Uri] (paths : UriPaths Uri) (docs : Documents Uri Tree Ast) (path : String) :
    List Uri :=
  match (docs.docsAt path).map (·.uri) with
  | [] => [paths.toUri path]
  | uris => uris.mergeSort fun a b => decide (a ≤ b)

end Documents

end Ry
