import Ry.Lsp.ParsedFile
import Mathlib.Data.String.Basic

/-! # One parse for each edit

An edit number is given once, so it has one path, one URI and one text, and at most one AST is
ever stored for it.  `History` is that record, and `Explained` says that documents, calls in
flight and returned calls all agree with it; every step extends the record.
-/

namespace Ry

/-- The document an edit number was given to. -/
structure Content (Uri : Type) where
  path : String
  uri : Uri
  native : Option String
  text : List Char

variable {Uri Tree Ast Error : Type}

def Document.content (path : String) (doc : Document Uri Tree Ast) : Content Uri :=
  ⟨path, doc.uri, doc.native, doc.text⟩

/-- The trees the parser may reuse describe the text. -/
def Document.Current (g : Grammar Tree Ast Error) (doc : Document Uri Tree Ast) : Prop :=
  ∀ tree, doc.tree = some tree → g.Describes tree doc.text

/-- The file is a parse of the text, whichever tree the parser started from. -/
def Grammar.ParsedFrom (g : Grammar Tree Ast Error) (content : Content Uri)
    (file : SourceFile Ast) : Prop :=
  ∃ oldTree parsed newTree, (∀ tree, oldTree = some tree → g.Describes tree content.text) ∧
    g.ParsesSource content.path content.text oldTree (.ok (parsed, newTree)) ∧
    file = { parsed with nativePath := content.native }

/-- A tree the parser returns describes what was parsed. -/
theorem Grammar.ParsesSource.describes {g : Grammar Tree Ast Error} {path : String}
    {source : List Char} {oldTree newTree : Option Tree} {file : SourceFile Ast}
    (h : g.ParsesSource path source oldTree (.ok (file, newTree)))
    (hold : ∀ tree, oldTree = some tree → g.Describes tree source) :
    ∀ tree, newTree = some tree → g.Describes tree source := by
  cases h with
  | report => exact nofun
  | plain hplain hparses =>
    rintro tree htree
    obtain rfl := Option.some.inj htree
    exact g.describes_parse hparses hold

structure History (Uri Ast : Type) where
  content : Nat → Content Uri
  ast : Nat → Option (Arc (SourceFile Ast))

/-- The record with a new edit. -/
def History.edited (h : History Uri Ast) (edit : Nat) (content : Content Uri) : History Uri Ast :=
  { h with content := Function.update h.content edit content }

/-- The record with the edit's AST. -/
def History.stored (h : History Uri Ast) (edit : Nat) (file : Arc (SourceFile Ast)) :
    History Uri Ast :=
  { h with ast := Function.update h.ast edit (some file) }

namespace Documents

variable (docs : Documents Uri Tree Ast)

theorem docsAt_insert (path path' : String) (list : List (Document Uri Tree Ast)) (edits : Nat) :
    docsAt ⟨docs.byPath.insert path list, edits⟩ path' =
      if path' = path then list else docs.docsAt path' := by
  simp only [docsAt, Table.lookup_insert]
  split <;> rfl

/-- After one new document at a path, with the next edit number. -/
theorem mem_docsAt_push {path path' : String} {list : List (Document Uri Tree Ast)}
    {new doc : Document Uri Tree Ast} (hsub : list.Sublist (docs.docsAt path)) {edits : Nat}
    (h : doc ∈ docsAt ⟨docs.byPath.insert path (list ++ [new]), edits⟩ path') :
    doc ∈ docs.docsAt path' ∨ path' = path ∧ doc = new := by
  rw [docsAt_insert] at h
  split at h
  · rename_i hpath
    rcases List.mem_append.mp h with hold | hnew
    · exact .inl (hpath ▸ hsub.subset hold)
    · exact .inr ⟨hpath, List.mem_singleton.mp hnew⟩
  · exact .inl h

theorem active_eq_some {path : String} {doc : Document Uri Tree Ast}
    (h : docs.active path = some doc) :
    docs.docsAt path = (docs.docsAt path).dropLast ++ [doc] := by
  have hne : docs.docsAt path ≠ [] := by
    intro hnil
    simp [active, hnil] at h
  rw [active, List.getLast?_eq_some_getLast hne] at h
  rw [← Option.some.inj h, List.dropLast_append_getLast]

theorem mem_of_active {path : String} {doc : Document Uri Tree Ast}
    (h : docs.active path = some doc) : doc ∈ docs.docsAt path :=
  List.mem_of_getLast? h

theorem docsAt_updateActive {path : String} {doc : Document Uri Tree Ast}
    (h : docs.active path = some doc) (f : Document Uri Tree Ast → Document Uri Tree Ast)
    (path' : String) :
    (docs.updateActive path f).docsAt path' =
      if path' = path then (docs.docsAt path).dropLast ++ [f doc] else docs.docsAt path' := by
  unfold updateActive
  rw [h]
  exact docs.docsAt_insert path path' _ _

theorem edits_updateActive (path : String)
    (f : Document Uri Tree Ast → Document Uri Tree Ast) :
    (docs.updateActive path f).edits = docs.edits := by
  unfold updateActive
  split <;> rfl

theorem docsAt_close [LinearOrder Uri] (paths : UriPaths Uri) (uri : Uri) (path : String) :
    ((docs.close paths uri).docsAt path).Sublist (docs.docsAt path) := by
  unfold close
  dsimp only
  split
  · exact List.Sublist.refl _
  · rename_i opened hlookup
    by_cases hempty : (opened.filter (·.uri ≠ uri)).isEmpty = true
    · rw [if_pos hempty]
      simp only [docsAt, Table.lookup_erase]
      split
      · exact List.nil_sublist _
      · exact List.Sublist.refl _
    · rw [if_neg hempty, docsAt_insert]
      split
      · rename_i hpath
        rw [hpath, docsAt, hlookup]
        exact List.filter_sublist
      · exact List.Sublist.refl _

theorem edits_close [LinearOrder Uri] (paths : UriPaths Uri) (uri : Uri) :
    (docs.close paths uri).edits = docs.edits := by
  unfold close
  dsimp only
  split <;> rfl

end Documents

/-- A batch changes nothing but the text and the tree, and the tree hears of every change. -/
theorem Document.applyChanges_keeps (g : Grammar Tree Ast Error) (doc : Document Uri Tree Ast)
    (changes : List ContentChange) :
    (doc.applyChanges g.editTree changes).1.uri = doc.uri ∧
      (doc.applyChanges g.editTree changes).1.native = doc.native ∧
      (doc.Current g → (doc.applyChanges g.editTree changes).1.Current g) := by
  induction changes generalizing doc with
  | nil => exact ⟨rfl, rfl, id⟩
  | cons change changes ih =>
    unfold applyChanges
    split
    · rename_i range hrange
      split
      · exact ⟨rfl, rfl, id⟩
      · rename_i start stop hspan
        obtain ⟨huri, hnative, hcurrent⟩ := ih { doc with
          tree := doc.tree.map fun tree => g.editTree tree (inputEdit doc.text start stop change.text)
          text := replaceRange doc.text start stop change.text }
        refine ⟨huri, hnative, fun h => hcurrent fun tree htree => ?_⟩
        obtain ⟨old, hold, rfl⟩ := Option.map_eq_some_iff.mp htree
        exact g.describes_editTree (h old hold) (inputEdit_of change.text hspan)
    · obtain ⟨huri, hnative, hcurrent⟩ := ih { doc with text := change.text, tree := none }
      exact ⟨huri, hnative, fun _ => hcurrent fun tree htree => nomatch htree⟩

namespace Session

variable (g : Grammar Tree Ast Error)

/-- Documents and calls agree with the record. -/
structure Explained (s : Session Uri Tree Ast Error) (h : History Uri Ast) : Prop where
  docs : ∀ path, ∀ doc ∈ s.docs.docsAt path, doc.edit ≤ s.docs.edits ∧
    h.content doc.edit = doc.content path ∧ doc.parsed = h.ast doc.edit ∧ doc.Current g
  /-- Least recently edited first. -/
  order : ∀ path, ((s.docs.docsAt path).map (·.edit)).Pairwise (· < ·)
  seen : ∀ (i : Nat) path seen, s.calls[i]? = some ⟨path, .parsing seen⟩ → seen.edit ≤ s.docs.edits ∧
    h.content seen.edit = seen.content path ∧ seen.Current g
  returned : ∀ (i : Nat) path edit file text, s.calls[i]? = some ⟨path, .returned edit file text⟩ →
    edit ≤ s.docs.edits ∧ h.ast edit = some file ∧ (h.content edit).path = path ∧
      (h.content edit).text = text
  parsed : ∀ edit file, h.ast edit = some file → g.ParsedFrom (h.content edit) file.value
  later : ∀ edit, s.docs.edits < edit → h.ast edit = none

variable {g} {s : Session Uri Tree Ast Error} {h : History Uri Ast}

/-- A new edit: its document is the last of its path, and unparsed. -/
theorem Explained.push (hs : s.Explained g h) (path : String) (new : Document Uri Tree Ast)
    {list : List (Document Uri Tree Ast)} (hsub : list.Sublist (s.docs.docsAt path))
    (hedit : new.edit = s.docs.edits + 1) (hparsed : new.parsed = none) (hcurrent : new.Current g) :
    Explained g
      { s with docs := ⟨s.docs.byPath.insert path (list ++ [new]), s.docs.edits + 1⟩ }
      (h.edited new.edit (new.content path)) := by
  have hold : ∀ edit ≤ s.docs.edits,
      (h.edited new.edit (new.content path)).content edit = h.content edit := by
    intro edit hle
    exact Function.update_of_ne (by omega) _ _
  have hnone : h.ast new.edit = none := hs.later _ (by omega)
  refine ⟨fun path' doc hdoc => ?_, fun path' => ?_, fun i path' seen hi => ?_,
    fun i path' edit file text hi => ?_, fun edit file hast => ?_, fun edit hlt => ?_⟩
  · rcases s.docs.mem_docsAt_push hsub hdoc with hmem | ⟨rfl, rfl⟩
    · obtain ⟨hle, hcontent, hast, hcur⟩ := hs.docs path' doc hmem
      exact ⟨Nat.le_succ_of_le hle, (hold _ hle).trans hcontent, hast, hcur⟩
    · exact ⟨hedit.le, Function.update_self _ _ _, hparsed.trans hnone.symm, hcurrent⟩
  · rw [Documents.docsAt_insert]
    split
    · rw [List.map_append, List.pairwise_append]
      refine ⟨(hs.order path).sublist (hsub.map _), List.pairwise_singleton _ _, ?_⟩
      intro edit hmem edit' hmem'
      obtain ⟨doc, hdoc, rfl⟩ := List.mem_map.mp hmem
      obtain rfl : edit' = new.edit := List.mem_singleton.mp hmem'
      rw [hedit]
      exact Nat.lt_succ_of_le (hs.docs path doc (hsub.subset hdoc)).1
    · exact hs.order path'
  · obtain ⟨hle, hcontent, hcur⟩ := hs.seen i path' seen hi
    exact ⟨Nat.le_succ_of_le hle, (hold _ hle).trans hcontent, hcur⟩
  · obtain ⟨hle, hast, hpath, htext⟩ := hs.returned i path' edit file text hi
    have hsame := hold edit hle
    exact ⟨Nat.le_succ_of_le hle, hast, (congrArg Content.path hsame).trans hpath,
      (congrArg Content.text hsame).trans htext⟩
  · have hle : edit ≤ s.docs.edits := by
      by_contra hlt
      exact nomatch hast.symm.trans (hs.later edit (not_le.mp hlt))
    rw [hold edit hle]
    exact hs.parsed edit file hast
  · exact hs.later edit (Nat.lt_of_succ_lt hlt)

/-- Fewer documents. -/
theorem Explained.drop (hs : s.Explained g h) {docs : Documents Uri Tree Ast}
    (hsub : ∀ path, (docs.docsAt path).Sublist (s.docs.docsAt path))
    (hedits : docs.edits = s.docs.edits) : Explained g { s with docs } h where
  docs path doc hdoc := by
    have hold := hs.docs path doc ((hsub path).subset hdoc)
    exact ⟨hold.1.trans_eq hedits.symm, hold.2⟩
  order path := (hs.order path).sublist ((hsub path).map _)
  seen i path seen hi := by
    have hold := hs.seen i path seen hi
    exact ⟨hold.1.trans_eq hedits.symm, hold.2⟩
  returned i path edit file text hi := by
    have hold := hs.returned i path edit file text hi
    exact ⟨hold.1.trans_eq hedits.symm, hold.2⟩
  parsed := hs.parsed
  later edit hlt := hs.later edit (hedits ▸ hlt)

/-- A call moves to a state the record explains. -/
theorem Explained.call (hs : s.Explained g h) {calls : List (Call Uri Tree Ast Error)}
    (hseen : ∀ (i : Nat) path seen, calls[i]? = some ⟨path, .parsing seen⟩ →
      s.calls[i]? = some ⟨path, .parsing seen⟩ ∨ seen ∈ s.docs.docsAt path)
    (hreturned : ∀ (i : Nat) path edit file text, calls[i]? = some ⟨path, .returned edit file text⟩ →
      s.calls[i]? = some ⟨path, .returned edit file text⟩ ∨
        edit ≤ s.docs.edits ∧ h.ast edit = some file ∧ (h.content edit).path = path ∧
          (h.content edit).text = text) : Explained g { s with calls } h where
  docs := hs.docs
  order := hs.order
  seen i path seen hi := by
    rcases hseen i path seen hi with hold | hdoc
    · exact hs.seen i path seen hold
    · obtain ⟨hle, hcontent, -, hcur⟩ := hs.docs path seen hdoc
      exact ⟨hle, hcontent, hcur⟩
  returned i path edit file text hi := by
    rcases hreturned i path edit file text hi with hold | hnew
    · exact hs.returned i path edit file text hold
    · exact hnew
  parsed := hs.parsed
  later := hs.later

theorem getElem?_setCall {i j : Nat} {path : String} {state : CallState Uri Tree Ast Error}
    {call : Call Uri Tree Ast Error} (h : (s.setCall i path state).calls[j]? = some call) :
    s.calls[j]? = some call ∨ call = ⟨path, state⟩ := by
  rw [setCall, List.getElem?_set] at h
  split at h
  · split at h
    · exact .inr (Option.some.inj h).symm
    · exact nomatch h
  · exact .inl h

/-- A call that returns returns what the record has for the edit. -/
theorem Explained.setCall (hs : s.Explained g h) (i : Nat) (path : String)
    (state : CallState Uri Tree Ast Error)
    (hseen : ∀ seen, state = .parsing seen → seen ∈ s.docs.docsAt path)
    (hreturned : ∀ edit file text, state = .returned edit file text →
      edit ≤ s.docs.edits ∧ h.ast edit = some file ∧ (h.content edit).path = path ∧
        (h.content edit).text = text) : (s.setCall i path state).Explained g h := by
  refine hs.call (fun j path' seen hj => ?_) fun j path' edit file text hj => ?_
  · refine (getElem?_setCall hj).imp_right fun hcall => ?_
    obtain ⟨rfl, hstate⟩ := Call.mk.inj hcall
    exact hseen seen hstate.symm
  · refine (getElem?_setCall hj).imp_right fun hcall => ?_
    obtain ⟨rfl, hstate⟩ := Call.mk.inj hcall
    exact hreturned edit file text hstate.symm

/-- The document a path analyzes gets its parse. -/
theorem Explained.store (hs : s.Explained g h) {path : String} {doc : Document Uri Tree Ast}
    (hdoc : s.docs.active path = some doc) (hparsed : doc.parsed = none)
    {stored : Arc (SourceFile Ast)} (hfrom : g.ParsedFrom (h.content doc.edit) stored.value)
    (tree : Option Tree) (htree : ∀ t, tree = some t → g.Describes t doc.text) (address : Nat) :
    Explained g
      { s with
        docs := s.docs.updateActive path fun doc =>
          { doc with tree := tree.or doc.tree, parsed := some stored }
        nextAddress := address }
      (h.stored doc.edit stored) := by
  obtain ⟨hle, hcontent, hast, hcurrent⟩ := hs.docs path doc (s.docs.mem_of_active hdoc)
  have hother : ∀ edit, edit ≠ doc.edit → (h.stored doc.edit stored).ast edit = h.ast edit :=
    fun edit hne => Function.update_of_ne hne _ _
  have hself : (h.stored doc.edit stored).ast doc.edit = some stored := Function.update_self _ _ _
  have hkeep : ∀ {path' : String} {doc'}, doc' ∈ s.docs.docsAt path' → doc'.edit ≠ doc.edit →
      doc'.edit ≤ s.docs.edits ∧ (h.stored doc.edit stored).content doc'.edit = doc'.content path' ∧
        doc'.parsed = (h.stored doc.edit stored).ast doc'.edit ∧ doc'.Current g := by
    intro path' doc' hdoc' hne
    obtain ⟨hle', hcontent', hast', hcurrent'⟩ := hs.docs path' doc' hdoc'
    exact ⟨hle', hcontent', hast'.trans (hother _ hne).symm, hcurrent'⟩
  have hat := s.docs.active_eq_some hdoc
  have horder := hs.order path
  rw [hat, List.map_append, List.pairwise_append] at horder
  refine ⟨fun path' doc' hdoc' => ?_, fun path' => ?_, fun i path' seen hi => ?_,
    fun i path' edit file text hi => ?_, fun edit file hfile => ?_, fun edit hlt => ?_⟩
  · rw [Documents.edits_updateActive]
    rw [s.docs.docsAt_updateActive hdoc] at hdoc'
    split at hdoc'
    · rename_i hpath
      subst hpath
      rcases List.mem_append.mp hdoc' with hfirst | hlast
      · have hlt := horder.2.2 doc'.edit (List.mem_map_of_mem hfirst) doc.edit
          (List.mem_map_of_mem (List.mem_singleton_self doc))
        exact hkeep (List.mem_of_mem_dropLast hfirst) hlt.ne
      · rw [List.mem_singleton.mp hlast]
        refine ⟨hle, hcontent, hself.symm, fun t ht => ?_⟩
        rcases Option.or_eq_some_iff.mp ht with hnew | ⟨-, hold⟩
        · exact htree t hnew
        · exact hcurrent t hold
    · rename_i hpath
      refine hkeep hdoc' fun hsame => hpath ?_
      have hcontent' := (hs.docs path' doc' hdoc').2.1
      rw [hsame, hcontent] at hcontent'
      exact (congrArg Content.path hcontent').symm
  · rw [s.docs.docsAt_updateActive hdoc]
    split
    · rw [List.map_append, List.pairwise_append]
      exact horder
    · exact hs.order path'
  · obtain ⟨hle', hseen⟩ := hs.seen i path' seen hi
    exact ⟨hle'.trans_eq (s.docs.edits_updateActive path _).symm, hseen⟩
  · obtain ⟨hle', hast', hcontent'⟩ := hs.returned i path' edit file text hi
    have hne : edit ≠ doc.edit := by
      rintro rfl
      exact nomatch hast'.symm.trans (hast.symm.trans hparsed)
    exact ⟨hle'.trans_eq (s.docs.edits_updateActive path _).symm, (hother edit hne).trans hast',
      hcontent'⟩
  · by_cases hne : edit = doc.edit
    · subst hne
      obtain rfl := Option.some.inj (hself.symm.trans hfile)
      exact hfrom
    · exact hs.parsed edit file ((hother edit hne).symm.trans hfile)
  · rw [Documents.edits_updateActive] at hlt
    exact (hother edit (by omega)).trans (hs.later edit hlt)

/-- The AST a parse installs is the record's from then on. -/
theorem Explained.install (hs : s.Explained g h) {i : Nat} {path : String}
    {seen : Document Uri Tree Ast} {file : SourceFile Ast} {tree : Option Tree}
    (hi : s.calls[i]? = some ⟨path, .parsing seen⟩)
    (hparses : g.ParsesSource path seen.text seen.tree (.ok (file, tree))) :
    ∃ h', (s.install i path seen file tree).Explained g h' := by
  obtain ⟨hle, hcontent, hcurrent⟩ := hs.seen i path seen hi
  unfold Session.install
  cases hactive : (s.docs.active path).filter (·.edit = seen.edit) with
  | none => exact ⟨h, hs.setCall _ _ _ nofun nofun⟩
  | some doc =>
    obtain ⟨hdoc, hedit⟩ := Option.filter_eq_some_iff.mp hactive
    replace hedit : doc.edit = seen.edit := of_decide_eq_true hedit
    have hmem := s.docs.mem_of_active hdoc
    obtain ⟨-, hdocContent, hast, -⟩ := hs.docs path doc hmem
    rw [hedit] at hdocContent hast
    dsimp only
    cases hparsed : doc.parsed with
    | some stored =>
      refine ⟨h, hs.setCall _ _ _ nofun fun edit file text heq => ?_⟩
      obtain ⟨rfl, rfl, rfl⟩ := CallState.returned.inj heq
      exact ⟨hle, hast.symm.trans hparsed, congrArg Content.path hcontent,
        congrArg Content.text hcontent⟩
    | none =>
      have htext : doc.text = seen.text :=
        congrArg Content.text (hdocContent.symm.trans hcontent)
      have hfrom : g.ParsedFrom (h.content doc.edit)
          (Arc.mk s.nextAddress { file with nativePath := seen.native }).value := by
        rw [hedit, hcontent]
        exact ⟨seen.tree, file, tree, hcurrent, hparses, rfl⟩
      have hstored := hs.store hdoc hparsed hfrom tree
        (fun t ht => htext ▸ hparses.describes hcurrent t ht) (s.nextAddress + 1)
      refine ⟨_, hstored.setCall i path (.returned seen.edit
        (Arc.mk s.nextAddress { file with nativePath := seen.native }) seen.text) nofun
        fun edit file' text heq => ?_⟩
      obtain ⟨rfl, rfl, rfl⟩ := CallState.returned.inj heq
      refine ⟨hle.trans_eq (s.docs.edits_updateActive path _).symm, ?_,
        congrArg Content.path hcontent, congrArg Content.text hcontent⟩
      rw [← hedit]
      exact Function.update_self _ _ _

theorem explained_empty (content : Nat → Content Uri) :
    Explained g (Session.empty : Session Uri Tree Ast Error) ⟨content, fun _ => none⟩ where
  docs path doc hdoc := by simp [Session.empty, Documents.empty, Documents.docsAt] at hdoc
  order path := by simp [Session.empty, Documents.empty, Documents.docsAt]
  seen i path seen hi := by simp [Session.empty] at hi
  returned i path edit file text hi := by simp [Session.empty] at hi
  parsed edit file hfile := nomatch hfile
  later edit hlt := rfl

variable [LinearOrder Uri] (paths : UriPaths Uri)

/-- Every step extends the record. -/
theorem Explained.step (hs : s.Explained g h) {event : SessionEvent Uri Tree Ast Error}
    (hallowed : s.Allowed g event) : ∃ h', (s.step paths g event).Explained g h' := by
  cases event with
  | didOpen uri text version =>
    refine ⟨_, hs.push (paths.toPath uri) (⟨uri, paths.native uri, text, version,
      s.docs.edits + 1, none, none, none⟩) List.filter_sublist rfl rfl fun _ heq => by cases heq⟩
  | didChange uri changes version =>
    simp only [Session.step, Documents.change]
    split
    · exact ⟨h, hs⟩
    · rename_i doc hfind
      split
      · exact ⟨h, hs⟩
      · rename_i edited hedited
        obtain ⟨-, -, hcurrent⟩ := doc.applyChanges_keeps g changes
        rw [hedited] at hcurrent
        have hdoc := hs.docs _ doc (List.mem_of_find?_eq_some hfind)
        exact ⟨_, hs.push (paths.toPath uri)
          { edited with edit := s.docs.edits + 1, version, parsed := none, hints := none }
          List.eraseP_sublist rfl rfl (hcurrent hdoc.2.2.2)⟩
  | didClose uri =>
    exact ⟨h, hs.drop (s.docs.docsAt_close paths uri) (s.docs.edits_close paths uri)⟩
  | call path =>
    refine ⟨h, hs.call (fun i path' seen hi => ?_) fun i path' edit file text hi => ?_⟩
    · rw [List.getElem?_append] at hi
      split at hi
      · exact .inl hi
      · exact absurd (Call.mk.inj (List.mem_singleton.mp (List.mem_of_getElem? hi))).2 (by simp)
    · rw [List.getElem?_append] at hi
      split at hi
      · exact .inl hi
      · exact absurd (Call.mk.inj (List.mem_singleton.mp (List.mem_of_getElem? hi))).2 (by simp)
  | lock i =>
    simp only [Session.step]
    split
    · rename_i path hi
      refine ⟨h, hs.setCall _ _ _ (fun seen heq => ?_) fun edit file text heq => ?_⟩
      · unfold look at heq
        split at heq
        · cases heq
        · rename_i doc hdoc
          split at heq
          · cases heq
          · obtain rfl := CallState.parsing.inj heq
            exact s.docs.mem_of_active hdoc
      · unfold look at heq
        split at heq
        · cases heq
        · rename_i doc hdoc
          split at heq
          · rename_i stored hstored
            obtain ⟨rfl, rfl, rfl⟩ := CallState.returned.inj heq
            obtain ⟨hle, hcontent, hast, -⟩ := hs.docs path doc (s.docs.mem_of_active hdoc)
            exact ⟨hle, hast.symm.trans hstored, congrArg Content.path hcontent,
              congrArg Content.text hcontent⟩
          · cases heq
    · exact ⟨h, hs⟩
  | land i result =>
    simp only [Session.step]
    split
    · rename_i path seen hi
      cases result with
      | ok parsed => exact hs.install hi (hallowed path seen hi)
      | error error => exact ⟨h, hs.setCall _ _ _ (fun _ heq => by cases heq) fun _ _ _ heq => by cases heq⟩
    · exact ⟨h, hs⟩

/-- Every session that any interleaving reaches has a record. -/
theorem Reachable.explained (hs : s.Reachable paths g) : ∃ h, s.Explained g h := by
  induction hs with
  | empty => exact ⟨_, explained_empty fun _ => ⟨"", paths.toUri "", none, []⟩⟩
  | step hs hallowed ih =>
    obtain ⟨h, hexplained⟩ := ih
    exact hexplained.step paths hallowed

/-- What was parsed in a step: one document, the one the path analyzes, by a call that saw the
document with the edit it still has. -/
theorem Explained.installed (hs : s.Explained g h) {event : SessionEvent Uri Tree Ast Error}
    {path : String} {doc : Document Uri Tree Ast} {file : Arc (SourceFile Ast)}
    (hdoc : doc ∈ (s.step paths g event).docs.docsAt path) (hfile : doc.parsed = some file) :
    (∃ before ∈ s.docs.docsAt path, before.edit = doc.edit ∧ before.parsed = some file) ∨
      ∃ i seen result, event = .land i result ∧ s.calls[i]? = some ⟨path, .parsing seen⟩ ∧
        seen.uri = doc.uri ∧ seen.edit = doc.edit ∧ seen.text = doc.text := by
  cases event with
  | didOpen uri text version =>
    rcases s.docs.mem_docsAt_push List.filter_sublist hdoc with hold | ⟨-, rfl⟩
    · exact .inl ⟨doc, hold, rfl, hfile⟩
    · exact nomatch hfile
  | didChange uri changes version =>
    simp only [Session.step, Documents.change] at hdoc
    split at hdoc
    · exact .inl ⟨doc, hdoc, rfl, hfile⟩
    · split at hdoc
      · exact .inl ⟨doc, hdoc, rfl, hfile⟩
      · rcases s.docs.mem_docsAt_push List.eraseP_sublist hdoc with hold | ⟨-, rfl⟩
        · exact .inl ⟨doc, hold, rfl, hfile⟩
        · exact nomatch hfile
  | didClose uri => exact .inl ⟨doc, (s.docs.docsAt_close paths uri path).subset hdoc, rfl, hfile⟩
  | call path' => exact .inl ⟨doc, hdoc, rfl, hfile⟩
  | lock i =>
    simp only [Session.step] at hdoc
    split at hdoc <;> exact .inl ⟨doc, hdoc, rfl, hfile⟩
  | land i result =>
    simp only [Session.step] at hdoc
    split at hdoc
    · rename_i path' seen hi
      cases result with
      | error error => exact .inl ⟨doc, hdoc, rfl, hfile⟩
      | ok parsed =>
        dsimp only at hdoc
        unfold Session.install at hdoc
        split at hdoc
        · exact .inl ⟨doc, hdoc, rfl, hfile⟩
        · rename_i active hactive
          obtain ⟨hactive, hedit⟩ := Option.filter_eq_some_iff.mp hactive
          replace hedit : active.edit = seen.edit := of_decide_eq_true hedit
          split at hdoc
          · exact .inl ⟨doc, hdoc, rfl, hfile⟩
          · rw [s.docs.docsAt_updateActive hactive] at hdoc
            split at hdoc
            · rename_i hpath
              subst hpath
              rcases List.mem_append.mp hdoc with hfirst | hlast
              · exact .inl ⟨doc, List.mem_of_mem_dropLast hfirst, rfl, hfile⟩
              · right
                have hseen := (hs.seen i path seen hi).2.1
                have hcontent := (hs.docs path active (s.docs.mem_of_active hactive)).2.1
                rw [hedit, hseen] at hcontent
                rw [List.mem_singleton.mp hlast]
                exact ⟨i, seen, _, rfl, hi, congrArg Content.uri hcontent, hedit.symm,
                  congrArg Content.text hcontent⟩
            · exact .inl ⟨doc, hdoc, rfl, hfile⟩
    · exact .inl ⟨doc, hdoc, rfl, hfile⟩

/-- In every interleaving: what is stored for a document, and what a call returned, was parsed
from the text it comes with; a stored tree describes the document's text; all calls of one
edit have one AST, which is the one stored; and a parse is installed only into the document, at
the edit, that it is of. -/
theorem parsedFile_sound (hs : s.Reachable paths g) :
    (∀ path, ∀ doc ∈ s.docs.docsAt path,
      (∀ file, doc.parsed = some file → g.ParsedFrom (doc.content path) file.value) ∧
      ∀ tree, doc.tree = some tree → g.Describes tree doc.text) ∧
    (∀ (i : Nat) path edit file text, s.calls[i]? = some ⟨path, .returned edit file text⟩ →
      (∃ content : Content Uri, content.path = path ∧ content.text = text ∧
        g.ParsedFrom content file.value) ∧
      (∀ path', ∀ doc ∈ s.docs.docsAt path', doc.edit = edit →
        path' = path ∧ doc.text = text ∧ doc.parsed = some file) ∧
      ∀ (j : Nat) path' file' text', s.calls[j]? = some ⟨path', .returned edit file' text'⟩ →
        file' = file ∧ text' = text) ∧
    ∀ event, s.Allowed g event → ∀ path, ∀ doc ∈ (s.step paths g event).docs.docsAt path,
      ∀ file, doc.parsed = some file →
        (∃ before ∈ s.docs.docsAt path, before.edit = doc.edit ∧ before.parsed = some file) ∨
        ∃ i seen result, event = .land i result ∧ s.calls[i]? = some ⟨path, .parsing seen⟩ ∧
          seen.uri = doc.uri ∧ seen.edit = doc.edit ∧ seen.text = doc.text := by
  obtain ⟨h, hs⟩ := hs.explained
  refine ⟨fun path doc hdoc => ?_, fun i path edit file text hi => ?_,
    fun event _ path doc hdoc file hfile => hs.installed paths hdoc hfile⟩
  · obtain ⟨-, hcontent, hast, hcurrent⟩ := hs.docs path doc hdoc
    exact ⟨fun file hfile => hcontent ▸ hs.parsed doc.edit file (hast.symm.trans hfile), hcurrent⟩
  · obtain ⟨-, hast, hpath, htext⟩ := hs.returned i path edit file text hi
    refine ⟨⟨h.content edit, hpath, htext, hs.parsed edit file hast⟩,
      fun path' doc hdoc hedit => ?_, fun j path' file' text' hj => ?_⟩
    · obtain ⟨-, hcontent, hdocAst, -⟩ := hs.docs path' doc hdoc
      rw [hedit] at hcontent hdocAst
      exact ⟨(congrArg Content.path hcontent).symm.trans hpath,
        (congrArg Content.text hcontent).symm.trans htext, hdocAst.trans hast⟩
    · obtain ⟨-, hast', -, htext'⟩ := hs.returned j path' edit file' text' hj
      exact ⟨Option.some.inj (hast'.symm.trans hast), htext'.symm.trans htext⟩

end Session

/-! ## One document, one call -/

/-- A parser whose tree is the length of what it parsed. -/
def lengthGrammar : Grammar Nat Unit Unit where
  Parses _ source _ result := result = .ok ((), byteLen source)
  ParsesReport _ _ result := result = .ok ()
  editTree tree e := tree + e.newEndByte - e.oldEndByte
  Describes tree text := tree = byteLen text
  describes_editTree := by
    rintro tree e old new rfl ⟨before, removed, inserted, after, rfl, rfl, rfl⟩
    simp only [byteLen_append]
    omega
  describes_parse := by
    rintro path source oldTree ast tree h -
    exact (Prod.mk.inj (Except.ok.inj h)).2

/-- `x` opened as `a.R`. -/
def lettersDocument : Document String Nat Unit :=
  ⟨"a.R", some "a.R", ['x'], 1, 1, none, none, none⟩

/-- The document is open, and a call is parsing it. -/
def parsingSession : Session String Nat Unit Unit :=
  ⟨⟨(∅ : Table _ _).insert "a.R" [lettersDocument], 1⟩, [⟨"a.R", .parsing lettersDocument⟩], 0⟩

theorem parsingSession_reachable : parsingSession.Reachable plainPaths lengthGrammar := by
  have hopened : (Session.empty.step plainPaths lengthGrammar
      (.didOpen "a.R" ['x'] 1)).Reachable plainPaths lengthGrammar := .step .empty trivial
  have hcalled : (Session.step plainPaths lengthGrammar _
      (.call "a.R")).Reachable plainPaths lengthGrammar := hopened.step trivial
  have hlooked : (Session.step plainPaths lengthGrammar _
      (.lock 0)).Reachable plainPaths lengthGrammar := hcalled.step trivial
  exact hlooked

/-- The parse that lands is returned and stored. -/
theorem parsedFile_sound_letters :
    ∃ content : Content String, content.path = "a.R" ∧ content.text = ['x'] ∧
      lengthGrammar.ParsedFrom content ⟨"a.R", some "a.R", ['x'], ()⟩ := by
  have hallowed : parsingSession.Allowed lengthGrammar
      (.land 0 (.ok (⟨"a.R", none, ['x'], ()⟩, some 1))) := by
    intro path seen hi
    obtain ⟨rfl, hseen⟩ := Call.mk.inj (Option.some.inj hi)
    obtain rfl := CallState.parsing.inj hseen
    exact .plain (by decide +kernel) rfl
  have hlanded := (Session.parsedFile_sound plainPaths (parsingSession_reachable.step hallowed)).2.1
  exact (hlanded 0 "a.R" 1 ⟨0, ⟨"a.R", some "a.R", ['x'], ()⟩⟩ ['x'] rfl).1

end Ry
