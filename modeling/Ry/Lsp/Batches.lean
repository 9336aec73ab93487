import Ry.Lsp.RoundTrip
import Ry.Lsp.Documents

/-! # Batches of content changes

A range stands for the boundaries at its two positions, and a change splices the text between
them.  `Documents.change` applies the longest prefix of a batch that can be applied so, and
reports to the parser the edits of these splices.
-/

namespace Ry

variable {Uri Tree Ast : Type}

/-- The boundary is where the position says.  Inside a CRLF no position stands. -/
def StandsAt (position : Position) (before after : List Char) : Prop :=
  exactPosition before after = (position.line.toNat, position.character.toNat) ∧
    ¬ InsideCrlf before after

/-- The edit of the splice that puts `inserted` for `removed` after `before`. -/
def InputEdit.ofSplice (before removed inserted : List Char) : InputEdit :=
  { startByte := byteLen before
    oldEndByte := byteLen (before ++ removed)
    newEndByte := byteLen (before ++ inserted)
    startPosition := endPoint before
    oldEndPosition := endPoint (before ++ removed)
    newEndPosition := endPoint (before ++ inserted) }

/-- One content change, as the protocol means it. -/
inductive Splice : List Char → ContentChange → List Char → Prop
  | ranged {range : Range} {before removed after : List Char} (new : List Char)
      (start : StandsAt range.start before (removed ++ after))
      (stop : StandsAt range.stop (before ++ removed) after) :
      Splice (before ++ removed ++ after) ⟨some range, new⟩ (before ++ new ++ after)
  | whole (text new : List Char) : Splice text ⟨none, new⟩ new

section Runs

variable (editTree : Tree → InputEdit → Tree)

/-- Changes applied one after the other, each to the text before it, with the edits the tree is
given. -/
inductive Spliced : List Char → Option Tree → List ContentChange → List Char → Option Tree → Prop
  | nil (text : List Char) (tree : Option Tree) : Spliced text tree [] text tree
  | ranged {range : Range} {before removed after new text : List Char} {tree tree' : Option Tree}
      {changes : List ContentChange}
      (start : StandsAt range.start before (removed ++ after))
      (stop : StandsAt range.stop (before ++ removed) after)
      (rest : Spliced (before ++ new ++ after)
        (tree.map fun tree => editTree tree (InputEdit.ofSplice before removed new))
        changes text tree') :
      Spliced (before ++ removed ++ after) tree (⟨some range, new⟩ :: changes) text tree'
  | whole {old new text : List Char} {tree tree' : Option Tree} {changes : List ContentChange}
      (rest : Spliced new none changes text tree') :
      Spliced old tree (⟨none, new⟩ :: changes) text tree'

end Runs

/-- No further change applies. -/
def Stuck (text : List Char) (changes : List ContentChange) : Prop :=
  ∀ change rest, changes = change :: rest → ∀ text', ¬ Splice text change text'

/-- What a batch makes of an open document: the text and tree of the longest prefix that
applies, or nothing at all. -/
def AppliesLongestPrefix [LinearOrder Uri] (paths : UriPaths Uri)
    (editTree : Tree → InputEdit → Tree) (docs : Documents Uri Tree Ast)
    (doc : Document Uri Tree Ast) (changes : List ContentChange) (version : Int) : Prop :=
  ∃ done rest text tree, changes = done ++ rest ∧
    Spliced editTree doc.text doc.tree done text tree ∧ Stuck text rest ∧
    (done = [] → docs.change paths editTree doc.uri changes version = (docs, false)) ∧
    (done ≠ [] → docs.change paths editTree doc.uri changes version =
      ({ byPath := docs.byPath.insert (paths.toPath doc.uri)
           ((docs.docsAt (paths.toPath doc.uri)).eraseP (·.uri = doc.uri) ++
             [{ doc with
                text, tree, version, edit := docs.edits + 1, parsed := none, hints := none }])
         edits := docs.edits + 1 }, true))

/-! ## Ranges -/

/-- Where the counters suffice, the offset of a position is that of the boundary there. -/
theorem positionToByteOffset_eq_some_iff {text : List Char} (hfit : FitsCounters text)
    (position : Position) (byte : Nat) :
    positionToByteOffset text position = some byte ↔
      ∃ before after, text = before ++ after ∧ byte = byteLen before ∧
        StandsAt position before after := by
  constructor
  · intro hfound
    have hfound' := @scanFor_found position byte [] text (by rw [wirePosition_nil]; exact hfound)
    obtain ⟨before, after, rfl, rfl, hwire⟩ := hfound'
    rw [List.nil_append] at hwire hfound
    refine ⟨before, after, rfl, rfl, ?_, ?_⟩
    · obtain ⟨hline, hcol⟩ := hfit before after rfl
      rw [← hwire, wirePosition, UInt32.toNat_ofNat_of_lt' hline, UInt32.toNat_ofNat_of_lt' hcol]
    · intro hcrlf
      have hback := back_of_fitsCounters hfit
      rw [byteOffsetToPosition_boundary, hwire, hfound, if_pos hcrlf] at hback
      have hne : before ≠ [] := by
        rintro rfl
        exact not_insideCrlf_nil after hcrlf
      have hpos := byteLen_pos hne
      have hself := Option.some.inj hback
      omega
  · rintro ⟨before, after, rfl, rfl, hexact, hcrlf⟩
    have hback := back_of_fitsCounters hfit
    rw [byteOffsetToPosition_boundary, if_neg hcrlf] at hback
    rwa [wirePosition, hexact, UInt32.ofNat_toNat, UInt32.ofNat_toNat] at hback

/-- A range is a span exactly when a change can be spliced there. -/
theorem rangeByteSpan_eq_some_iff {text : List Char} (hfit : FitsCounters text) (range : Range)
    (start stop : Nat) :
    rangeByteSpan text range = some (start, stop) ↔
      ∃ before removed after, text = before ++ removed ++ after ∧ start = byteLen before ∧
        stop = byteLen (before ++ removed) ∧ StandsAt range.start before (removed ++ after) ∧
        StandsAt range.stop (before ++ removed) after := by
  constructor
  · intro hspan
    unfold rangeByteSpan at hspan
    split at hspan
    · rename_i start' stop' hstart hstop
      split at hspan
      · rename_i hle
        obtain ⟨rfl, rfl⟩ := Prod.mk.inj (Option.some.inj hspan)
        obtain ⟨before, rest, htext, rfl, hbefore⟩ :=
          (positionToByteOffset_eq_some_iff hfit _ _).mp hstart
        obtain ⟨upTo, after, htext', rfl, hupTo⟩ :=
          (positionToByteOffset_eq_some_iff hfit _ _).mp hstop
        obtain ⟨removed, rfl, rfl⟩ := prefix_of_byteLen_le (htext.symm.trans htext') hle
        exact ⟨before, removed, after, htext', rfl, rfl, hbefore, hupTo⟩
      · cases hspan
    · cases hspan
  · rintro ⟨before, removed, after, htext, rfl, rfl, hstart, hstop⟩
    have hfirst := (positionToByteOffset_eq_some_iff hfit range.start _).mpr
      ⟨before, removed ++ after, by rw [htext, List.append_assoc], rfl, hstart⟩
    have hlast := (positionToByteOffset_eq_some_iff hfit range.stop _).mpr
      ⟨before ++ removed, after, htext, rfl, hstop⟩
    unfold rangeByteSpan
    rw [hfirst, hlast]
    exact if_pos (byteLen_append before removed ▸ Nat.le_add_right _ _)

theorem inputEdit_eq_ofSplice (before removed after new : List Char) :
    inputEdit (before ++ removed ++ after) (byteLen before) (byteLen (before ++ removed)) new =
      InputEdit.ofSplice before removed new := by
  unfold inputEdit byteOffsetToPoint InputEdit.ofSplice
  rw [prefixBytes_append, List.append_assoc, prefixBytes_append, byteLen_append before new,
    endPoint_append before new]

theorem replaceRange_splice (before removed after new : List Char) :
    replaceRange (before ++ removed ++ after) (byteLen before) (byteLen (before ++ removed)) new =
      before ++ new ++ after := by
  rw [replaceRange, suffixBytes_append, List.append_assoc before removed, prefixBytes_append]

/-! ## Batches -/

/-- One batch, run on a document. -/
theorem applyChanges_spliced (editTree : Tree → InputEdit → Tree) (doc : Document Uri Tree Ast)
    (changes : List ContentChange)
    (hfit : ∀ done rest text tree, changes = done ++ rest →
      Spliced editTree doc.text doc.tree done text tree → FitsCounters text) :
    ∃ done rest text tree, changes = done ++ rest ∧
      Spliced editTree doc.text doc.tree done text tree ∧ Stuck text rest ∧
      doc.applyChanges editTree changes = ({ doc with text, tree }, decide (done ≠ [])) := by
  induction changes generalizing doc with
  | nil =>
    exact ⟨[], [], doc.text, doc.tree, rfl, .nil _ _, fun _ _ h => (List.cons_ne_nil _ _ h.symm).elim,
      rfl⟩
  | cons change changes ih =>
    obtain ⟨range, new⟩ := change
    cases range with
    | none =>
      obtain ⟨done, rest, text, tree, rfl, hrun, hstuck, happly⟩ :=
        ih { doc with text := new, tree := none } fun done rest text tree hsplit hrun =>
          hfit (⟨none, new⟩ :: done) rest text tree (congrArg _ hsplit) (.whole hrun)
      refine ⟨⟨none, new⟩ :: done, rest, text, tree, rfl, .whole hrun, hstuck, ?_⟩
      rw [Document.applyChanges]
      dsimp only
      rw [happly]
      simp
    | some range =>
      have hhere := hfit [] _ doc.text doc.tree rfl (.nil _ _)
      cases hspan : rangeByteSpan doc.text range with
      | none =>
        refine ⟨[], ⟨some range, new⟩ :: changes, doc.text, doc.tree, rfl, .nil _ _, ?_, ?_⟩
        · intro change rest heq text' hsplice
          obtain ⟨rfl, rfl⟩ := List.cons.inj heq
          generalize htext : doc.text = old at hsplice
          cases hsplice with
          | @ranged _ before removed after _ hstart hstop =>
            have hsome := (rangeByteSpan_eq_some_iff hhere range _ _).mpr
              ⟨before, removed, after, htext, rfl, rfl, hstart, hstop⟩
            rw [hspan] at hsome
            cases hsome
        · rw [Document.applyChanges]
          dsimp only
          rw [hspan]
          rfl
      | some span =>
        obtain ⟨start, stop⟩ := span
        obtain ⟨before, removed, after, htext, rfl, rfl, hstart, hstop⟩ :=
          (rangeByteSpan_eq_some_iff hhere range start stop).mp hspan
        have hstep : ∀ done text tree,
            Spliced editTree (before ++ new ++ after)
              (doc.tree.map fun tree => editTree tree (InputEdit.ofSplice before removed new))
              done text tree →
            Spliced editTree doc.text doc.tree (⟨some range, new⟩ :: done) text tree := by
          intro done text tree hrun
          rw [htext]
          exact .ranged hstart hstop hrun
        obtain ⟨done, rest, text, tree, rfl, hrun, hstuck, happly⟩ :=
          ih { doc with
              tree := doc.tree.map fun tree => editTree tree (InputEdit.ofSplice before removed new)
              text := before ++ new ++ after } fun done rest text tree hsplit hrun =>
            hfit (⟨some range, new⟩ :: done) rest text tree (congrArg _ hsplit)
              (hstep done text tree hrun)
        refine ⟨⟨some range, new⟩ :: done, rest, text, tree, rfl, hstep done text tree hrun,
          hstuck, ?_⟩
        rw [Document.applyChanges]
        dsimp only
        rw [hspan]
        dsimp only
        rw [htext, inputEdit_eq_ofSplice, replaceRange_splice, happly]
        simp

/-- While the counters suffice for the texts in between, a batch applies its longest prefix. -/
theorem Documents.change_appliesLongestPrefix [LinearOrder Uri] (paths : UriPaths Uri)
    (editTree : Tree → InputEdit → Tree) (docs : Documents Uri Tree Ast)
    (doc : Document Uri Tree Ast) (changes : List ContentChange) (version : Int)
    (hopen : (docs.docsAt (paths.toPath doc.uri)).find? (·.uri = doc.uri) = some doc)
    (hfit : ∀ done rest text tree, changes = done ++ rest →
      Spliced editTree doc.text doc.tree done text tree → FitsCounters text) :
    AppliesLongestPrefix paths editTree docs doc changes version := by
  obtain ⟨done, rest, text, tree, hsplit, hrun, hstuck, happly⟩ :=
    applyChanges_spliced editTree doc changes hfit
  refine ⟨done, rest, text, tree, hsplit, hrun, hstuck, fun hnone => ?_, fun hsome => ?_⟩
  · rw [change]
    dsimp only
    rw [hopen]
    dsimp only
    rw [happly, decide_eq_false (fun h => h hnone)]
  · rw [change]
    dsimp only
    rw [hopen]
    dsimp only
    rw [happly, decide_eq_true hsome]

/-! ## Short texts -/

theorem utf16Width_le (text : List Char) : utf16Width text ≤ 2 * text.length := by
  induction text with
  | nil => exact Nat.le_refl _
  | cons ch text ih =>
    have hsplit : utf16Width (ch :: text) = utf16Width [ch] + utf16Width text :=
      utf16Width_append [ch] text
    have hch : utf16Width [ch] ≤ 2 := by
      rw [utf16Width, List.map_singleton, List.sum_singleton]
      split <;> decide
    rw [List.length_cons]
    omega

theorem length_columnText_le (before after : List Char) :
    (columnText before after).length ≤ before.length := by
  have hline : (lastLine before).length ≤ before.length := by
    rw [lastLine, List.length_reverse, ← @List.length_reverse _ before]
    exact (List.takeWhile_prefix _).length_le
  unfold columnText
  split
  · rw [List.length_dropLast]
    omega
  · exact hline

/-- Every text below two gibibytes fits. -/
theorem fitsCounters_of_length {text : List Char} (h : text.length < 2 ^ 31) :
    FitsCounters text := by
  rintro before after rfl
  rw [List.length_append] at h
  have hlines := @List.count_le_length _ _ '\n' before
  have hwidth := utf16Width_le (columnText before after)
  have hcolumns := length_columnText_le before after
  unfold exactPosition
  dsimp only
  omega

/-- A batch adds at most what it inserts. -/
theorem Spliced.length_le {editTree : Tree → InputEdit → Tree} {old text : List Char}
    {tree tree' : Option Tree} {changes : List ContentChange}
    (h : Spliced editTree old tree changes text tree') :
    text.length ≤ old.length + (changes.map (·.text.length)).sum := by
  induction h with
  | nil => exact Nat.le_refl _
  | ranged _ _ _ ih =>
    simp only [List.length_append, List.map_cons, List.sum_cons] at ih ⊢
    omega
  | whole _ ih =>
    simp only [List.map_cons, List.sum_cons]
    omega

theorem fitsCounters_of_short {editTree : Tree → InputEdit → Tree} {old : List Char}
    {tree : Option Tree} {changes : List ContentChange}
    (hshort : old.length + (changes.map (·.text.length)).sum < 2 ^ 31) :
    ∀ done rest text tree', changes = done ++ rest →
      Spliced editTree old tree done text tree' → FitsCounters text := by
  rintro done rest text tree' rfl hrun
  have hlength := hrun.length_le
  rw [List.map_append, List.sum_append] at hshort
  exact fitsCounters_of_length (by omega)

/-- The only document, open as `a.R`. -/
def onlyDocument (text : List Char) : Document String Nat Unit :=
  ⟨"a.R", some "a.R", text, 1, 1, none, none, none⟩

def onlyDocuments (text : List Char) : Documents String Nat Unit :=
  ⟨(∅ : Table _ _).insert "a.R" [onlyDocument text], 1⟩

theorem docsAt_onlyDocuments (text : List Char) :
    (onlyDocuments text).docsAt "a.R" = [onlyDocument text] := by
  rw [Documents.docsAt, onlyDocuments, Finmap.lookup_insert]
  rfl

theorem find_onlyDocuments (text : List Char) :
    ((onlyDocuments text).docsAt (plainPaths.toPath (onlyDocument text).uri)).find?
      (·.uri = (onlyDocument text).uri) = some (onlyDocument text) := by
  have hdocs : (onlyDocuments text).docsAt (plainPaths.toPath (onlyDocument text).uri) =
      [onlyDocument text] := docsAt_onlyDocuments text
  rw [hdocs]
  simp

/-- An applied change is reported. -/
theorem change_onlyDocuments {editTree : Nat → InputEdit → Nat} {text : List Char}
    {changes : List ContentChange} (version : Int)
    (happly : ((onlyDocument text).applyChanges editTree changes).2 = true) :
    ((onlyDocuments text).change plainPaths editTree (onlyDocument text).uri changes version).2 =
      true := by
  rw [Documents.change]
  dsimp only
  rw [find_onlyDocuments]
  dsimp only
  generalize (onlyDocument text).applyChanges editTree changes = result at happly
  obtain ⟨edited, applied⟩ := result
  obtain rfl : applied = true := happly
  rfl

/-- An `x` put after the first character of the first line. -/
def insertX : ContentChange := ⟨some ⟨⟨0, 1⟩, ⟨0, 1⟩⟩, ['x']⟩

/-- Between two letters the `x` goes in. -/
theorem insertX_appliesLongestPrefix :
    AppliesLongestPrefix plainPaths (fun _ edit => edit.newEndByte) (onlyDocuments ['a', 'b'])
      (onlyDocument ['a', 'b']) [insertX] 2 :=
  Documents.change_appliesLongestPrefix plainPaths _ _ _ _ _ (find_onlyDocuments _)
    (fitsCounters_of_short (by decide))

/-- An offset found where the position does not stand is an edit too many. -/
theorem not_appliesLongestPrefix_of_found {text : List Char} {byte : Nat}
    (hfound : positionToByteOffset text ⟨0, 1⟩ = some byte)
    (hnowhere : ∀ before rest, text = before ++ rest → ¬ StandsAt ⟨0, 1⟩ before rest) :
    ¬ AppliesLongestPrefix plainPaths (fun tree _ => tree) (onlyDocuments text)
      (onlyDocument text) [insertX] 2 := by
  rintro ⟨done, rest, text', tree, hsplit, hrun, -, hnone, -⟩
  cases done with
  | nil =>
    have happly : ((onlyDocument text).applyChanges (fun tree _ => tree) [insertX]).2 = true := by
      have hspan : rangeByteSpan (onlyDocument text).text ⟨⟨0, 1⟩, ⟨0, 1⟩⟩ = some (byte, byte) := by
        rw [rangeByteSpan, onlyDocument, hfound]
        exact if_pos (Nat.le_refl _)
      rw [insertX, Document.applyChanges]
      dsimp only
      rw [hspan]
    have hreported := change_onlyDocuments 2 happly
    rw [hnone rfl] at hreported
    cases hreported
  | cons change done =>
    obtain ⟨rfl, -⟩ := List.cons.inj hsplit
    have htext : (onlyDocument text).text = text := rfl
    rw [htext] at hrun
    unfold insertX at hrun
    cases hrun with
    | ranged hstart _ _ => exact hnowhere _ _ (List.append_assoc _ _ _) hstart

/-! ## Long texts -/

/-- Empty lines as many as make the line count start again, and a letter. -/
def wrappedText : List Char := List.replicate (2 ^ 32) '\n' ++ ['a']

/-- The search for the second column of the first line passes over empty lines. -/
theorem scanFor_replicate_newline (line : UInt32) (byte n : Nat) (rest : List Char) :
    scanFor ⟨0, 1⟩ ⟨line, 0⟩ byte (List.replicate n '\n' ++ rest) =
      scanFor ⟨0, 1⟩ ⟨line + UInt32.ofNat n, 0⟩ (byte + n) rest := by
  induction n generalizing line byte with
  | zero =>
    rw [List.replicate_zero, List.nil_append, Nat.add_zero]
    congr 2
    exact (UInt32.add_zero line).symm
  | succ n ih =>
    have hbefore : ¬ (0 : UInt32) = 1 := by decide
    have hpast : ¬ (0 : UInt32) > 1 := by decide
    rw [List.replicate_succ, List.cons_append, scanFor, if_neg fun h => hbefore h.2,
      if_neg fun h => hpast h.2, scanStep, if_pos rfl]
    dsimp only
    rw [ih]
    have hline : line + 1 + UInt32.ofNat n = line + UInt32.ofNat (n + 1) := by
      rw [UInt32.ofNat_add, UInt32.add_assoc, UInt32.add_comm 1]
      rfl
    have hbyte : byte + '\n'.utf8Size + n = byte + (n + 1) := by
      have hsize : '\n'.utf8Size = 1 := by decide
      omega
    rw [hline, hbyte]

theorem positionToByteOffset_wrappedText :
    positionToByteOffset wrappedText ⟨0, 1⟩ = some (2 ^ 32 + 1) := by
  have hwrap : (0 : UInt32) + UInt32.ofNat (2 ^ 32) = 0 := by decide
  rw [positionToByteOffset, wrappedText, scanFor_replicate_newline, hwrap, Nat.zero_add]
  rfl

theorem not_standsAt_wrappedText {before rest : List Char} (h : wrappedText = before ++ rest) :
    ¬ StandsAt ⟨0, 1⟩ before rest := by
  rintro ⟨hexact, -⟩
  cases before with
  | nil =>
    rw [exactPosition, columnText, if_neg (not_insideCrlf_nil rest)] at hexact
    exact absurd (Prod.mk.inj hexact).2 (by decide)
  | cons ch before =>
    have hhead : ch = '\n' := by
      have heads := congrArg List.head? h
      rw [wrappedText, List.cons_append, List.head?_cons, List.head?_append,
        List.head?_replicate, if_neg (by decide), Option.some_or] at heads
      exact (Option.some.inj heads).symm
    have hcount := (Prod.mk.inj hexact).1
    rw [hhead, List.count_cons_self] at hcount
    exact Nat.succ_ne_zero _ hcount

/-- After 2 ^ 32 lines the `x` goes in where no such position is. -/
theorem insertX_not_appliesLongestPrefix :
    ¬ AppliesLongestPrefix plainPaths (fun tree _ => tree) (onlyDocuments wrappedText)
      (onlyDocument wrappedText) [insertX] 2 :=
  not_appliesLongestPrefix_of_found positionToByteOffset_wrappedText
    fun _ _ => not_standsAt_wrappedText

end Ry
