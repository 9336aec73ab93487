import Ry.Scope.Recorded

/-! # What a snapshot leaves

`finishSnapshot` takes the scope back to where `beginSnapshot` found it, whatever ran
between, and hands back a delta from which the branch's final state can be read off.

Both rest on `Walk.recorded`: by induction on the walk, every mutator records what it
changes and a nested snapshot leaves nothing to record.
-/

namespace Ry

open UndoLog

namespace Scope

/-! ## Replaying leaves the frame alone -/

/-- What no record holds. -/
def frame (s : Scope) : Journal × FrameFlags × Finset String :=
  (s.journal, s.flags, s.possibleBlockWrites)

theorem frame_replay (u : Undo) (s : Scope) : (u.replay s).frame = s.frame := by
  cases u with
  | marker kind name present => cases kind <;> rfl
  | assignment name a =>
    cases hp : a.provenance <;>
      simp [Undo.replay, AssignmentUndo.restore, hp, putProvenance, frame, flags]
  | _ => rfl

theorem frame_replayAll (us : List Undo) (s : Scope) :
    (UndoLog.replayAll Undo.replay us s).frame = s.frame :=
  replayAll_induct (P := fun t => t.frame = s.frame) Undo.replay
    (fun u t ht => (frame_replay u t).trans ht) us rfl

/-- Scopes that agree, with one frame and one provenance table, are equal. -/
theorem eq_of_agree {t s : Scope} (h : Agree ∅ t s) (hframe : t.frame = s.frame)
    (hprov : t.referenceProvenance = s.referenceProvenance) : t = s := by
  have hfacts := h.facts
  have hmarkers : ∀ n, t.markers n = s.markers n := fun n => congrArg BindingState.markers (hfacts n)
  have htables := h.tables
  have hbindings : t.bindings = s.bindings :=
    Bindings.ext_get fun n => congrArg BindingState.ty (hfacts n)
  have hdefs : t.lexicalDefinitions = s.lexicalDefinitions :=
    Finmap.ext_lookup fun n => congrArg BindingState.lexicalDefinition (hfacts n)
  have haliases : t.functionAliases = s.functionAliases :=
    Finmap.ext_lookup fun n => congrArg BindingState.aliasTarget (hfacts n)
  have hboxes : t.boxObjects = s.boxObjects :=
    Finmap.ext_lookup fun n => congrArg BindingState.boxObject (hfacts n)
  have hsets : t.narrowedBindings = s.narrowedBindings ∧ t.parameterBindings = s.parameterBindings ∧
      t.scalarAssertedBindings = s.scalarAssertedBindings ∧
      t.loopVectorBindings = s.loopVectorBindings ∧
      t.listOriginBindings = s.listOriginBindings ∧
      t.defaultParameterBindings = s.defaultParameterBindings ∧
      t.lexicalFunctions = s.lexicalFunctions := by
    refine ⟨?_, ?_, ?_, ?_, ?_, ?_, ?_⟩ <;> refine marked_ext fun n => ?_
    · exact congrArg Markers.narrowed (hmarkers n)
    · exact congrArg Markers.parameter (hmarkers n)
    · exact congrArg Markers.scalarAsserted (hmarkers n)
    · exact congrArg Markers.loopVector (hmarkers n)
    · exact congrArg Markers.listOrigin (hmarkers n)
    · exact congrArg Markers.defaultParameter (hmarkers n)
    · exact congrArg Markers.lexical (hmarkers n)
  obtain ⟨h1, h2, h3, h4, h5, h6, h7⟩ := hsets
  simp only [frame, flags, Prod.mk.injEq, FrameFlags.mk.injEq] at hframe
  simp only [tables, Prod.mk.injEq] at htables
  cases t
  cases s
  simp_all

/-! ## The delta -/

/-- What the latest record about a name makes of its final state. -/
def entryOf (s : Scope) (name : String) : Undo → BindingState
  | .assignment _ _ => { BindingState.default with ty := s.get name }
  | _ => s.capture name

/-- Where the capture loop stands: the types moved out are those of captured names,
and nothing else is touched. -/
structure Capturing (s : Scope) (seen : List Undo) (acc : Scope × Table String BindingState) :
    Prop where
  scope : ∃ b : Bindings, acc.1 = { s with bindings := b } ∧
    ∀ n, (acc.2.lookup n = none ∨ n ∉ assigned seen) → b.get n = s.get n
  entry : ∀ n, acc.2.lookup n = (seen.find? (·.deltaName? == some n)).map (s.entryOf n)

theorem Capturing.start (s : Scope) : Capturing s [] (s, ∅) :=
  ⟨⟨s.bindings, rfl, fun _ _ => rfl⟩, fun _ => rfl⟩

/-- Seeing a record whose name is captured already changes nothing. -/
theorem entry_append_of_isSome {s : Scope} {seen : List Undo} {changed : Table String BindingState}
    (h : ∀ n, changed.lookup n = (seen.find? (·.deltaName? == some n)).map (s.entryOf n))
    {u : Undo} (hu : ∀ n, u.deltaName? = some n → (changed.lookup n).isSome = true) (n : String) :
    changed.lookup n = ((seen ++ [u]).find? (·.deltaName? == some n)).map (s.entryOf n) := by
  rw [List.find?_append, h n]
  cases hseen : seen.find? (·.deltaName? == some n) with
  | some v => rfl
  | none =>
    have hnone : ¬ (changed.lookup n).isSome := by simp [h n, hseen]
    have hne : (u.deltaName? == some n) = false := by
      simpa using fun hn => hnone (hu n hn)
    simp [hne]

/-- Capturing the name of a record that is the first about it. -/
theorem entry_append_insert {s : Scope} {seen : List Undo} {changed : Table String BindingState}
    (h : ∀ n, changed.lookup n = (seen.find? (·.deltaName? == some n)).map (s.entryOf n))
    {u : Undo} {name : String} (hu : u.deltaName? = some name) (hnew : changed.lookup name = none)
    (n : String) :
    (changed.insert name (s.entryOf name u)).lookup n =
      ((seen ++ [u]).find? (·.deltaName? == some n)).map (s.entryOf n) := by
  rw [List.find?_append, Table.lookup_insert]
  split
  · rename_i hn
    subst hn
    have hseen : seen.find? (·.deltaName? == some n) = none := by
      simpa [h n] using hnew
    simp [hseen, hu]
  · rename_i hn
    rw [h n]
    have hne : (u.deltaName? == some n) = false := by
      rw [hu]
      simpa using Ne.symm hn
    simp [hne]

theorem notMem_assigned_of_append {seen : List Undo} {u : Undo} {n : String}
    (h : n ∉ assigned (seen ++ [u])) : n ∉ assigned seen :=
  fun ⟨a, ha⟩ => h ⟨a, List.mem_append_left _ ha⟩

/-- A record whose name is captured, or that has none, is passed over. -/
theorem Capturing.skip {s : Scope} {seen : List Undo} {acc : Scope × Table String BindingState}
    (h : Capturing s seen acc) {u : Undo}
    (hu : ∀ n, u.deltaName? = some n → (acc.2.lookup n).isSome = true) :
    Capturing s (seen ++ [u]) acc where
  scope := by
    obtain ⟨b, hb, hget⟩ := h.scope
    exact ⟨b, hb, fun n hn => hget n (hn.imp_right notMem_assigned_of_append)⟩
  entry := entry_append_of_isSome h.entry hu

/-- Any other record than an assignment's leaves the type where it is. -/
theorem Capturing.capture {s : Scope} {seen : List Undo} {acc : Scope × Table String BindingState}
    (h : Capturing s seen acc) {u : Undo} {name : String} (hu : u.deltaName? = some name)
    (hnew : acc.2.lookup name = none) (hentry : s.entryOf name u = s.capture name) :
    Capturing s (seen ++ [u]) (acc.1, acc.2.insert name (acc.1.capture name)) where
  scope := by
    obtain ⟨b, hb, hget⟩ := h.scope
    refine ⟨b, hb, fun n hn => hget n (hn.imp (fun hnone => ?_) notMem_assigned_of_append)⟩
    rw [Table.lookup_insert] at hnone
    split at hnone
    · cases hnone
    · exact hnone
  entry := by
    obtain ⟨b, hb, hget⟩ := h.scope
    have hcapture : acc.1.capture name = s.entryOf name u := by
      rw [hentry, hb]
      have hty : b.get name = s.bindings.get name := hget name (.inl hnew)
      simp [Scope.capture, captureMetadata, markers, provenanceOf, get, hty]
    simpa only [hcapture] using entry_append_insert h.entry hu hnew

/-- An assignment's type is moved out of the bindings into the delta. -/
theorem Capturing.move {s : Scope} {seen : List Undo} {acc : Scope × Table String BindingState}
    (h : Capturing s seen acc) {name : String} (a : AssignmentUndo)
    (hnew : acc.2.lookup name = none) :
    Capturing s (seen ++ [.assignment name a])
      ({ acc.1 with bindings := acc.1.bindings.remove name },
        acc.2.insert name { BindingState.default with ty := acc.1.get name }) where
  scope := by
    obtain ⟨b, hb, hget⟩ := h.scope
    refine ⟨b.remove name, by rw [hb], fun n hn => ?_⟩
    rw [Bindings.get_remove]
    rw [Table.lookup_insert] at hn
    split
    · rename_i hname
      subst hname
      rcases hn with hn | hn
      · simp at hn
      · exact absurd ⟨a, by simp⟩ hn
    · rename_i hname
      rw [if_neg hname] at hn
      exact hget n (hn.imp_right notMem_assigned_of_append)
  entry := by
    obtain ⟨b, hb, hget⟩ := h.scope
    have hty : acc.1.get name = s.get name := by
      rw [hb]
      exact hget name (.inl hnew)
    rw [hty]
    exact entry_append_insert (u := .assignment name a) h.entry rfl hnew

theorem Capturing.step {s : Scope} {seen : List Undo} {acc : Scope × Table String BindingState}
    (h : Capturing s seen acc) (u : Undo) : Capturing s (seen ++ [u]) (captureRecord acc u) := by
  have hname : ∀ name, u.deltaName? = some name → (∀ n a, u ≠ .assignment n a) →
      Capturing s (seen ++ [u]) (if (acc.2.lookup name).isSome then acc
        else (acc.1, acc.2.insert name (acc.1.capture name))) := by
    intro name hu hkind
    split
    · rename_i hsome
      exact h.skip fun n hn => by rwa [← Option.some.inj (hu.symm.trans hn)]
    · rename_i hnone
      refine h.capture hu (by simpa using hnone) ?_
      cases u <;> first | rfl | exact absurd rfl (hkind _ _)
  cases u with
  | assignment name a =>
    simp only [captureRecord]
    split
    · rename_i hsome
      exact h.skip fun n hn => by rwa [← Option.some.inj hn]
    · rename_i hnone
      exact h.move a (by simpa using hnone)
  | binding name state => exact hname name rfl (by simp)
  | marker kind name present => exact hname name rfl (by simp)
  | lexicalDefinition name previous => exact hname name rfl (by simp)
  | aliasTarget name previous => exact hname name rfl (by simp)
  | reference name previous => exact hname name rfl (by simp)
  | _ => exact h.skip (by simp [Undo.deltaName?, Undo.name?])

theorem capturing_foldl {s : Scope} (records seen : List Undo)
    {acc : Scope × Table String BindingState} (h : Capturing s seen acc) :
    Capturing s (seen ++ records) (records.foldl captureRecord acc) := by
  induction records generalizing seen acc with
  | nil => simpa using h
  | cons u us ih => simpa using ih (seen ++ [u]) (h.step u)

theorem capturing_captureDelta (s : Scope) (records : List Undo) :
    Capturing s records (records.foldl captureRecord (s, ∅)) :=
  capturing_foldl records [] (Capturing.start s)

/-! ## Ending a snapshot -/

theorem frame_captureDelta (s : Scope) (records : List Undo) :
    (s.captureDelta records).1.frame = s.frame := by
  obtain ⟨b, hb, -⟩ := (capturing_captureDelta s records).scope
  have hmoved : (s.captureDelta records).1 = { s with bindings := b } := hb
  rw [hmoved]
  rfl

theorem agree_moved {s : Scope} {records : List Undo} (journal : Journal) :
    Agree (assigned records)
      { (s.captureDelta records).1 with journal := journal } s := by
  obtain ⟨b, hb, hget⟩ := (capturing_captureDelta s records).scope
  have hmoved : (s.captureDelta records).1 = { s with bindings := b } := hb
  rw [hmoved]
  exact ⟨fun _ => rfl, fun n hn => hget n (.inr hn), fun h => ⟨h, fun _ => rfl⟩, rfl⟩

/-- Writing the saved flags and provenance back on a scope that agrees with the one
they were saved from. -/
theorem restore_saved {t s : Scope} (h : Agree ∅ t s) :
    (t.writeFlags s.flags).restoreProvenance s.beginSnapshot.2.provenance =
      { s with journal := t.journal, possibleBlockWrites := t.possibleBlockWrites } := by
  have hprov : ((t.writeFlags s.flags).restoreProvenance
      s.beginSnapshot.2.provenance).referenceProvenance = s.referenceProvenance := by
    cases hs : s.referenceProvenance with
    | none => simp [beginSnapshot, hs, restoreProvenance]
    | some p =>
      obtain ⟨ht, hlookup⟩ := h.provenance (by simp [hs])
      obtain ⟨q, hq⟩ := Option.isSome_iff_exists.mp ht
      have hbindings : q.bindings = p.bindings :=
        Finmap.ext_lookup fun n => by simpa [provenanceOf, hq, hs] using hlookup n
      simp [beginSnapshot, hs, restoreProvenance, writeFlags, hq, hbindings]
  refine eq_of_agree (.of_eq (fun n => ?_) hprov ?_) ?_ hprov
  · refine Eq.trans ?_ (h.facts n)
    cases s.beginSnapshot.2.provenance <;> rfl
  · refine Eq.trans ?_ h.tables
    cases s.beginSnapshot.2.provenance <;> rfl
  · cases s.beginSnapshot.2.provenance <;> rfl

/-- A snapshot whose changes are all on record is taken back to its start. -/
theorem finishSnapshot_of_recorded {s s' : Scope} (h : Recorded s.beginSnapshot.1 s') :
    (s'.finishSnapshot s.beginSnapshot.2).1 =
      { s with possibleBlockWrites := s'.possibleBlockWrites } := by
  obtain ⟨us, hundo, hdepth, hrestores, -⟩ := h
  have hundo : s'.journal.undo = us ++ s.journal.undo := hundo
  have hcount : s'.journal.undo.length - s.beginSnapshot.2.len = us.length := by
    simp [hundo, beginSnapshot]
  have htake : s'.journal.undo.take us.length = us := by simp [hundo]
  have hdrop : s'.journal.undo.drop us.length = s.journal.undo := by simp [hundo]
  set journal : Journal := { s'.journal with undo := s.journal.undo } with hjournal
  have hmoved := frame_captureDelta s' us
  have hmovedJournal : (s'.captureDelta us).1.journal = s'.journal := congrArg Prod.fst hmoved
  set back := UndoLog.replayAll Undo.replay us { (s'.captureDelta us).1 with journal := journal }
    with hback
  have hagree : Agree ∅ back s := by
    have hopened : Agree ∅ s.beginSnapshot.1 s := Agree.of_eq (fun _ => rfl) rfl rfl
    exact ((Agree.replayAll us (agree_moved journal)).trans hrestores).trans hopened
  have hfinish : (s'.finishSnapshot s.beginSnapshot.2).1 =
      let t := (back.writeFlags s.flags).restoreProvenance s.beginSnapshot.2.provenance
      { t with journal := { t.journal with depth := t.journal.depth - 1 } } := by
    simp only [finishSnapshot, hcount, htake]
    rw [hmovedJournal, hdrop]
    rfl
  have hframe := frame_replayAll us { (s'.captureDelta us).1 with journal := journal }
  have hbackJournal : back.journal = journal := congrArg Prod.fst hframe
  have hbackWrites : back.possibleBlockWrites = s'.possibleBlockWrites :=
    (congrArg (·.2.2) hframe).trans (congrArg (·.2.2) hmoved)
  have hpop : journal.depth - 1 = s.journal.depth := by
    have hdepth : s'.journal.depth = s.journal.depth + 1 := hdepth
    simp [hjournal, hdepth]
  rw [hfinish, restore_saved hagree]
  simp [hbackJournal, hbackWrites, hpop]
  simp [hjournal]

/-- The entries of a delta, by the latest record about each name. -/
theorem lookup_changed (s : Scope) (records : List Undo) (n : String) :
    (s.captureDelta records).2.changed.lookup n =
      (records.find? (·.deltaName? == some n)).map (s.entryOf n) :=
  (capturing_captureDelta s records).entry n

/-- A name's entry, or else the base it is read over, is its final state. -/
theorem changed_faithful {s s' : Scope} (h : Recorded s.beginSnapshot.1 s') (n : String) :
    (((s'.finishSnapshot s.beginSnapshot.2).2.changed.lookup n).elim
      ((s'.finishSnapshot s.beginSnapshot.2).1.facts n)
      fun st => { st with provenance := none }) = s'.facts n := by
  have hback := congrArg (facts · n) (finishSnapshot_of_recorded h)
  have hbase : (s'.finishSnapshot s.beginSnapshot.2).1.facts n = s.facts n := hback
  obtain ⟨us, hundo, hdepth, hrestores, hcleared⟩ := h
  have hundo : s'.journal.undo = us ++ s.journal.undo := hundo
  have htake : s'.journal.undo.take (s'.journal.undo.length - s.beginSnapshot.2.len) = us := by
    simp [hundo, beginSnapshot]
  have hchanged : (s'.finishSnapshot s.beginSnapshot.2).2 = (s'.captureDelta us).2 := by
    simp only [finishSnapshot, htake]
  rw [hbase, hchanged, lookup_changed]
  cases hfind : us.find? (·.deltaName? == some n) with
  | none => exact (facts_of_restores hrestores (name?_ne_of_find? hfind)).symm
  | some u =>
    cases u with
    | assignment name a =>
      -- an assignment's entry is its type alone, and there is nothing else
      obtain rfl : name = n := by
        simpa [Undo.deltaName?, Undo.name?] using List.find?_some hfind
      exact (hcleared name a hfind).symm
    | _ => rfl

end Scope

/-! ## Runs -/

/-- Whatever runs inside a snapshot, nested snapshots included, is on record. -/
theorem Walk.recorded (w : Walk) {s : Scope} (hs : 0 < s.journal.depth) :
    Scope.Recorded s (w.run s) := by
  induction w generalizing s with
  | done => exact .refl s
  | step order st rest ih =>
    have hstep := st.recorded order hs
    exact hstep.trans (ih (hstep.pos hs))
  | snapshot branch rest ihb ihr =>
    have hbranch := Scope.finishSnapshot_of_recorded (ihb (s := s.beginSnapshot.1) (Nat.succ_pos _))
    -- the nested branch is rolled back whole, so there is nothing to record
    have hback : Scope.Recorded s
        ((branch.run s.beginSnapshot.1).finishSnapshot s.beginSnapshot.2).1 := by
      rw [hbranch]
      exact .of_agree rfl (.of_eq (fun _ => rfl) rfl rfl)
    exact hback.trans (ihr (hback.pos hs))

namespace Scope

/-- Every field that takes part in snapshots, and the journal itself, is back where it
was; the block writes are the branch's.  The number of escaped names is right in any
scope. -/
theorem snapshot_restores (s : Scope) (w : Walk) :
    let branch := w.run s.beginSnapshot.1
    let back := (branch.finishSnapshot s.beginSnapshot.2).1
    back = { s with possibleBlockWrites := branch.possibleBlockWrites } ∧
      back.journal.undo.length = s.journal.undo.length ∧ back.journal.depth = s.journal.depth ∧
      back.bindings.escapedNames = (back.bindings.map.keys.filter (hasEscape ·)).card := by
  have h := finishSnapshot_of_recorded (w.recorded (s := s.beginSnapshot.1) (Nat.succ_pos _))
  exact ⟨h, by rw [h], by rw [h], Bindings.counted _⟩

/-- Reading a delta's entry where there is one, and the restored base elsewhere, gives
the branch's final state; so a name that ended as it began is not reported as
anything else. -/
theorem delta_faithful (s : Scope) (w : Walk) (n : String) :
    let branch := w.run s.beginSnapshot.1
    let back := (branch.finishSnapshot s.beginSnapshot.2).1
    let delta := (branch.finishSnapshot s.beginSnapshot.2).2
    ((delta.changed.lookup n).elim (back.facts n) fun st => { st with provenance := none })
        = branch.facts n ∧
      ∀ st, delta.changed.lookup n = some st → branch.facts n = back.facts n →
        { st with provenance := none } = back.facts n := by
  have h := changed_faithful (w.recorded (s := s.beginSnapshot.1) (Nat.succ_pos _)) n
  refine ⟨h, fun st hst hsame => ?_⟩
  rw [hst] at h
  exact h.trans hsame

end Scope

end Ry
