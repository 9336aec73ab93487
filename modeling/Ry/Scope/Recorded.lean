import Ry.Scope.Rollback

/-! # Every mutator records what it changes

One lemma for each mutator, saying that inside a snapshot it is `Recorded`: the
records it pushes take its result back to where it started, and a name whose latest
record is an ordinary assignment has nothing but its type.  The second part is what
lets a branch's delta keep such a name's type alone.

Mutators that call others are composed from their lemmas by `Recorded.trans`.
-/

namespace Ry

open UndoLog

/-- The name a record puts into a branch's delta. -/
def Undo.deltaName? : Undo → Option String
  | .reference name _ => some name
  | u => u.name?

namespace Scope

theorem Agree.of_facts {t s : Scope} (hfacts : ∀ n, t.facts n = s.facts n)
    (hprovenance : s.referenceProvenance.isSome = true →
      t.referenceProvenance.isSome = true ∧ ∀ n, t.provenanceOf n = s.provenanceOf n)
    (htables : t.tables = s.tables) : Agree ∅ t s where
  metadata n := by rw [hfacts n]
  type n _ := congrArg BindingState.ty (hfacts n)
  provenance := hprovenance
  tables := htables

theorem Agree.of_eq {t s : Scope} (hfacts : ∀ n, t.facts n = s.facts n)
    (hprovenance : t.referenceProvenance = s.referenceProvenance) (htables : t.tables = s.tables) :
    Agree ∅ t s :=
  .of_facts hfacts (fun h => by simp [provenanceOf, hprovenance, h]) htables

theorem Agree.facts {t s : Scope} (h : Agree ∅ t s) (n : String) : t.facts n = s.facts n := by
  have hm := h.metadata n
  have ht := h.type n (Set.notMem_empty n)
  calc t.facts n = { { t.facts n with ty := none } with ty := t.get n } := rfl
    _ = { { s.facts n with ty := none } with ty := s.get n } := by rw [hm, ht]
    _ = s.facts n := rfl

/-- A name whose latest record is an ordinary assignment has nothing but its type. -/
def Cleared (us : List Undo) (s : Scope) : Prop :=
  ∀ n a, us.find? (·.deltaName? == some n) = some (.assignment n a) →
    s.facts n = { BindingState.default with ty := s.get n }

/-- What happened between the two scopes is on record. -/
def Recorded (s s' : Scope) : Prop :=
  ∃ us, s'.journal.undo = us ++ s.journal.undo ∧ s'.journal.depth = s.journal.depth ∧
    Restores Undo.replay (Agree ∅) us s s' ∧ Cleared us s'

theorem facts_replayAll_of_notMem {us : List Undo} {n : String}
    (h : ∀ u ∈ us, u.name? ≠ some n) (s : Scope) :
    (UndoLog.replayAll Undo.replay us s).facts n = s.facts n := by
  induction us generalizing s with
  | nil => rfl
  | cons u us ih =>
    rw [replayAll_cons, ih (fun v hv => h v (List.mem_cons_of_mem _ hv)), Undo.facts_replay,
      if_neg (h u (by simp))]

/-- No record about a name: nothing about it has changed. -/
theorem facts_of_restores {us : List Undo} {s s' : Scope}
    (hr : Restores Undo.replay (Agree ∅) us s s') {n : String}
    (h : ∀ u ∈ us, u.name? ≠ some n) : s'.facts n = s.facts n := by
  rw [← Agree.facts hr n, facts_replayAll_of_notMem h]

theorem name?_ne_of_find? {us : List Undo} {n : String}
    (h : us.find? (·.deltaName? == some n) = none) : ∀ u ∈ us, u.name? ≠ some n := by
  intro u hu hname
  have hdelta : u.deltaName? ≠ some n := by simpa using List.find?_eq_none.mp h u hu
  cases u <;> simp_all [Undo.deltaName?, Undo.name?]

namespace Recorded

theorem refl (s : Scope) : Recorded s s :=
  ⟨[], rfl, rfl, Agree.refl ∅ s, by simp [Cleared]⟩

/-- A change of what agreement does not see needs no record. -/
theorem of_agree {s s' : Scope} (hj : s'.journal = s.journal) (h : Agree ∅ s' s) :
    Recorded s s' :=
  ⟨[], by rw [hj]; rfl, by rw [hj], h, by simp [Cleared]⟩

theorem depth {s s' : Scope} (h : Recorded s s') : s'.journal.depth = s.journal.depth :=
  h.choose_spec.2.1

theorem pos {s s' : Scope} (h : Recorded s s') (hs : 0 < s.journal.depth) :
    0 < s'.journal.depth :=
  Nat.lt_of_lt_of_eq hs h.depth.symm

theorem trans {a b c : Scope} (hab : Recorded a b) (hbc : Recorded b c) : Recorded a c := by
  obtain ⟨us, hundo, hdepth, hrestore, hcleared⟩ := hab
  obtain ⟨vs, hundo', hdepth', hrestore', hcleared'⟩ := hbc
  refine ⟨vs ++ us, by rw [hundo', hundo, List.append_assoc], hdepth'.trans hdepth, ?_, ?_⟩
  · exact Restores.append (fun u t s h => Agree.replay_congr u t s h) (fun _ _ _ => Agree.trans)
      hrestore hrestore'
  · intro n a hfind
    rw [List.find?_append] at hfind
    cases hv : vs.find? (·.deltaName? == some n) with
    | some v =>
      rw [hv, Option.some_or] at hfind
      exact hcleared' n a (hv.trans hfind)
    | none =>
      -- the later change has no record about the name, so it left it alone
      rw [hv, Option.none_or] at hfind
      have hfacts := facts_of_restores hrestore' (name?_ne_of_find? hv)
      have hget : c.get n = b.get n := congrArg BindingState.ty hfacts
      rw [hfacts, hget]
      exact hcleared n a hfind

/-- A loop of recorded changes is recorded. -/
theorem foldl {A : Type} {f : Scope → A → Scope}
    (h : ∀ s a, 0 < s.journal.depth → Recorded s (f s a)) (l : List A) {s : Scope}
    (hs : 0 < s.journal.depth) : Recorded s (l.foldl f s) := by
  induction l generalizing s with
  | nil => exact refl s
  | cons a l ih =>
    have hstep := h s a hs
    exact hstep.trans (ih (hstep.pos hs))

/-- One record that is no assignment's, undoing what was done. -/
theorem of_record {s s' : Scope} {u : Undo} (hundo : s'.journal.undo = u :: s.journal.undo)
    (hdepth : s'.journal.depth = s.journal.depth) (hu : ∀ n a, u ≠ .assignment n a)
    (h : Agree ∅ (u.replay s') s) : Recorded s s' := by
  refine ⟨[u], hundo, hdepth, h, ?_⟩
  intro n a hfind
  have hmem := List.mem_of_find?_eq_some hfind
  exact absurd (List.mem_singleton.mp hmem).symm (hu n a)

end Recorded

theorem record_eq {s : Scope} (hs : 0 < s.journal.depth) (u : Undo) : s.record u = s.pushUndo u :=
  if_pos hs

/-! ## Records of whole entries and tables -/

section Tables

variable {s : Scope} (hs : 0 < s.journal.depth)
include hs

theorem recorded_clearKnownString (name : String) : Recorded s (s.clearKnownString name) := by
  simp only [clearKnownString]
  split
  · exact .refl s
  · rename_i value hvalue
    rw [record_eq (by exact hs)]
    refine .of_record rfl rfl (by simp) (Agree.of_eq (fun _ => rfl) rfl ?_)
    simp [Undo.replay, tables, pushUndo, ← hvalue]

theorem recorded_setKnownString (name value : String) :
    Recorded s (s.setKnownString name value) := by
  simp only [setKnownString]
  split
  · exact .refl s
  · rw [record_eq (by exact hs)]
    refine .of_record rfl rfl (by simp) (Agree.of_eq (fun _ => rfl) rfl ?_)
    simp [Undo.replay, tables, pushUndo]

theorem recorded_clearKnownStrings : Recorded s s.clearKnownStrings := by
  simp only [clearKnownStrings]
  split
  · rw [record_eq (by exact hs)]
    exact .of_record rfl rfl (by simp) (Agree.of_eq (fun _ => rfl) rfl rfl)
  · rename_i hempty
    have h : s.knownStrings = ∅ := Table.eq_empty_of_isEmpty (by simpa using hempty)
    exact .of_agree rfl (Agree.of_eq (fun _ => rfl) rfl (by simp [tables, h]))

theorem recorded_setConditionAlias (name : String) (cond : Expr) :
    Recorded s (s.setConditionAlias name cond) := by
  simp only [setConditionAlias]
  split
  · exact .refl s
  · rw [record_eq (by exact hs)]
    refine .of_record rfl rfl (by simp) (Agree.of_eq (fun _ => rfl) rfl ?_)
    simp [Undo.replay, tables, pushUndo]

theorem recorded_removeConditionAlias (name : String) :
    Recorded s (s.removeConditionAlias name) := by
  rw [removeConditionAlias, record_eq (by exact hs)]
  refine .of_record rfl rfl (by simp) (Agree.of_eq (fun _ => rfl) rfl ?_)
  simp [Undo.replay, tables, pushUndo]

theorem recorded_retainConditionAliases (order : IterOrder) (keep : String → Bool) :
    Recorded s (s.retainConditionAliases order keep) :=
  .foldl (fun _ name h => recorded_removeConditionAlias h name) _ hs

theorem recorded_clearConditionAliases : Recorded s s.clearConditionAliases := by
  simp only [clearConditionAliases]
  split
  · rw [record_eq (by exact hs)]
    exact .of_record rfl rfl (by simp) (Agree.of_eq (fun _ => rfl) rfl rfl)
  · rename_i hempty
    have h : s.conditionAliases = ∅ := Table.eq_empty_of_isEmpty (by simpa using hempty)
    exact .of_agree rfl (Agree.of_eq (fun _ => rfl) rfl (by simp [tables, h]))

theorem recorded_clearOpsBinding (rawName : String) : Recorded s (s.clearOpsBinding rawName) := by
  simp only [clearOpsBinding]
  split
  · rw [record_eq (by exact hs)]
    refine .of_record rfl rfl (by simp) (Agree.of_eq (fun _ => rfl) rfl ?_)
    simp [Undo.replay, tables, pushUndo]
  · rename_i hnone
    simp only [Bool.or_eq_true, not_or, Bool.not_eq_true] at hnone
    have hfunctions :
        s.literalFunctions.erase (semanticArgumentName rawName) = s.literalFunctions :=
      Table.erase_of_lookup_none (by simpa using hnone.1)
    have hvectors : s.plainOpsVectors.erase (semanticArgumentName rawName) = s.plainOpsVectors :=
      Finset.erase_eq_of_notMem (by simpa [marked] using hnone.2)
    exact .of_agree rfl (Agree.of_eq (fun _ => rfl) rfl (by simp [tables, hfunctions, hvectors]))

theorem recorded_setLiteralFunction (name : String) (function : LiteralFunction) :
    Recorded s (s.setLiteralFunction name function) := by
  simp only [setLiteralFunction, journalOpsBinding, record_eq hs]
  refine .of_record rfl rfl (by simp) (Agree.of_eq (fun _ => rfl) rfl ?_)
  simp [Undo.replay, tables, pushUndo]

theorem recorded_markPlainOpsVector (name : String) :
    Recorded s (s.markPlainOpsVector name) := by
  simp only [markPlainOpsVector, journalOpsBinding, record_eq hs]
  refine .of_record rfl rfl (by simp) (Agree.of_eq (fun _ => rfl) rfl ?_)
  simp [Undo.replay, tables, pushUndo]

theorem recorded_clearOpsFacts : Recorded s s.clearOpsFacts := by
  simp only [clearOpsFacts]
  split
  · rw [record_eq (by exact hs)]
    exact .of_record rfl rfl (by simp) (Agree.of_eq (fun _ => rfl) rfl rfl)
  · rename_i hempty
    simp only [Bool.or_eq_true, Bool.not_eq_true', decide_eq_true_eq, not_or, Bool.not_eq_false,
      ne_eq, not_not] at hempty
    have h : s.literalFunctions = ∅ := Table.eq_empty_of_isEmpty hempty.1
    exact .of_agree rfl (Agree.of_eq (fun _ => rfl) rfl (by simp [tables, h, hempty.2]))

end Tables

/-! ## Records of one fact about a name -/

def markerSet (s : Scope) : MarkerKind → Finset String
  | .listOrigin => s.listOriginBindings
  | .lexical => s.lexicalFunctions
  | .parameter => s.parameterBindings
  | .scalarAsserted => s.scalarAssertedBindings
  | .loopVector => s.loopVectorBindings

def withMarkerSet (s : Scope) (set : Finset String) : MarkerKind → Scope
  | .listOrigin => { s with listOriginBindings := set }
  | .lexical => { s with lexicalFunctions := set }
  | .parameter => { s with parameterBindings := set }
  | .scalarAsserted => { s with scalarAssertedBindings := set }
  | .loopVector => { s with loopVectorBindings := set }

/-- A marker set that changes at one name, its old entry on record. -/
theorem recorded_marker (s : Scope) (name : String) (kind : MarkerKind) {set : Finset String}
    (h : setMarker set name (marked (s.markerSet kind) name) = s.markerSet kind) :
    Recorded s ((s.pushUndo (.marker kind name (s.markerPresent kind name))).withMarkerSet set
      kind) := by
  cases kind <;> exact .of_record rfl rfl (by simp)
    (Agree.of_eq (fun n => by simp_all [Undo.replay, markerPresent, markerSet, withMarkerSet,
      pushUndo, facts, capture, captureMetadata, markers, get, provenanceOf]) rfl rfl)

theorem recorded_lexicalDefinition (s : Scope) (name : String) {table : Table String Span}
    (h : Table.put table name (s.lexicalDefinitions.lookup name) = s.lexicalDefinitions) :
    Recorded s { s.pushUndo (.lexicalDefinition name (s.lexicalDefinitions.lookup name)) with
      lexicalDefinitions := table } :=
  .of_record rfl rfl (by simp)
    (Agree.of_eq (fun n => by simp [Undo.replay, pushUndo, facts, capture, captureMetadata,
      markers, get, h]) rfl rfl)

section OneFact

variable {s : Scope} (hs : 0 < s.journal.depth)
include hs

theorem recorded_markListOrigin (name : String) : Recorded s (s.markListOrigin name) := by
  simp only [markListOrigin, journalMarker, record_eq hs]
  exact recorded_marker s name .listOrigin (setMarker_insert_marked _ _)

theorem recorded_markLexicalCallable (name : String) :
    Recorded s (s.markLexicalCallable name) := by
  simp only [markLexicalCallable, journalMarker, record_eq hs]
  exact recorded_marker s name .lexical (setMarker_insert_marked _ _)

theorem recorded_markScalarAsserted (name : String) :
    Recorded s (s.markScalarAsserted name) := by
  simp only [markScalarAsserted, journalMarker, record_eq hs]
  split
  · exact .refl s
  · exact recorded_marker s name .scalarAsserted (setMarker_insert_marked _ _)

theorem recorded_clearScalarAsserted (name : String) :
    Recorded s (s.clearScalarAsserted name) := by
  simp only [clearScalarAsserted, journalMarker, record_eq hs]
  split
  · exact recorded_marker s name .scalarAsserted (setMarker_erase_marked _ _)
  · exact .refl s

theorem recorded_markLoopVector (name : String) : Recorded s (s.markLoopVector name) := by
  simp only [markLoopVector, journalMarker, record_eq hs]
  split
  · exact .refl s
  · exact recorded_marker s name .loopVector (setMarker_insert_marked _ _)

theorem recorded_clearLoopVector (name : String) : Recorded s (s.clearLoopVector name) := by
  simp only [clearLoopVector, journalMarker, record_eq hs]
  split
  · exact recorded_marker s name .loopVector (setMarker_erase_marked _ _)
  · exact .refl s

theorem recorded_retainScalarAssertions (order : IterOrder) (keep : String → Bool) :
    Recorded s (s.retainScalarAssertions order keep) :=
  .foldl (fun _ name h => recorded_clearScalarAsserted h name) _ hs

theorem recorded_markBoundFunctionDefinition (name : String) (definition : Span) :
    Recorded s (s.markBoundFunctionDefinition name definition) := by
  simp only [markBoundFunctionDefinition, journalLexicalDefinition, record_eq hs]
  exact recorded_lexicalDefinition s name (Table.put_insert_lookup _ _ _)

theorem recorded_forgetLexicalDefinition (name : String) :
    Recorded s (s.forgetLexicalDefinition name) := by
  simp only [forgetLexicalDefinition, journalLexicalDefinition, record_eq hs]
  exact recorded_lexicalDefinition s name (Table.put_erase_lookup _ _)

theorem recorded_markLexicalFunction (name : String) (definition : Span) :
    Recorded s (s.markLexicalFunction name definition) :=
  have h := recorded_markLexicalCallable hs name
  h.trans (recorded_markBoundFunctionDefinition (h.pos hs) name definition)

theorem recorded_setFunctionAlias (name target : String) :
    Recorded s (s.setFunctionAlias name target) := by
  simp only [setFunctionAlias, journalAlias, record_eq hs]
  exact .of_record rfl rfl (by simp)
    (Agree.of_eq (fun n => by simp [Undo.replay, pushUndo, facts, capture, captureMetadata,
      markers, get]) rfl rfl)

end OneFact

/-! ## Records of a whole name -/

/-- Two scopes that differ in what they record about the names in `ns` alone. -/
structure SameOff (ns : List String) (t s : Scope) : Prop where
  facts : ∀ n, n ∉ ns → t.facts n = s.facts n
  provenance : s.referenceProvenance.isSome = true →
    t.referenceProvenance.isSome = true ∧ ∀ n, n ∉ ns → t.provenanceOf n = s.provenanceOf n
  tables : t.tables = s.tables

/-- The full records of a list of names, the last name's first. -/
def bindingRecords (s : Scope) (ns : List String) : List Undo :=
  (ns.map fun name => Undo.binding name (s.capture name)).reverse

theorem mem_bindingRecords {s : Scope} {ns : List String} {u : Undo}
    (h : u ∈ s.bindingRecords ns) : ∃ name ∈ ns, u = .binding name (s.capture name) := by
  simp only [bindingRecords, List.mem_reverse, List.mem_map] at h
  obtain ⟨name, hn, rfl⟩ := h
  exact ⟨name, hn, rfl⟩

/-- Replaying a name's full record leaves the other names as they were, and brings
this one back. -/
theorem sameOff_replay_binding {s t : Scope} {ns : List String} {name : String}
    (h : SameOff (name :: ns) t s) :
    SameOff ns ((Undo.binding name (s.capture name)).replay t) s where
  facts n hn := by
    rw [Undo.facts_replay]
    split
    · rename_i hname
      obtain rfl : name = n := by simpa [Undo.name?] using hname
      rfl
    · rename_i hname
      refine h.facts n ?_
      simp only [Undo.name?, Option.some.injEq] at hname
      simp [hn, Ne.symm hname]
  provenance hs := by
    obtain ⟨ht, hp⟩ := h.provenance hs
    refine ⟨by rw [Undo.tracked_replay, ht], fun n hn => ?_⟩
    refine (Undo.provenanceOf_putProvenance t n name _ ht).trans ?_
    split
    · rename_i hname
      rw [hname]
      rfl
    · rename_i hname
      exact hp n (by simp [hn, hname])
  tables := by
    rw [← h.tables]
    rfl

theorem sameOff_replayAll_bindings {s : Scope} (ns : List String) {t : Scope}
    (h : SameOff ns t s) :
    SameOff [] (UndoLog.replayAll Undo.replay (s.bindingRecords ns) t) s := by
  induction ns using List.reverseRecOn generalizing t with
  | nil => exact h
  | append_singleton ns name ih =>
    have hrecords : s.bindingRecords (ns ++ [name])
        = .binding name (s.capture name) :: s.bindingRecords ns := by
      simp [bindingRecords]
    rw [hrecords, replayAll_cons]
    refine ih (sameOff_replay_binding ⟨fun n hn => ?_, fun hs => ?_, h.tables⟩)
    · exact h.facts n (by simpa [or_comm] using hn)
    · obtain ⟨ht, hp⟩ := h.provenance hs
      exact ⟨ht, fun n hn => hp n (by simpa [or_comm] using hn)⟩

/-- Any change of what is recorded about some names, after their full records. -/
theorem recorded_bindings {s s' : Scope} (ns : List String)
    (hundo : s'.journal.undo = s.bindingRecords ns ++ s.journal.undo)
    (hdepth : s'.journal.depth = s.journal.depth) (h : SameOff ns s' s) : Recorded s s' := by
  refine ⟨s.bindingRecords ns, hundo, hdepth, ?_, ?_⟩
  · have hback := sameOff_replayAll_bindings ns h
    refine .of_facts (fun n => hback.facts n (by simp)) (fun hs => ?_) hback.tables
    obtain ⟨ht, hp⟩ := hback.provenance hs
    exact ⟨ht, fun n => hp n (by simp)⟩
  · intro n a hfind
    obtain ⟨name, -, hbinding⟩ := mem_bindingRecords (List.mem_of_find?_eq_some hfind)
    cases hbinding

/-- Any change of what is recorded about one name, after its full record. -/
theorem recorded_binding {s s' : Scope} (name : String)
    (hundo : s'.journal.undo = .binding name (s.capture name) :: s.journal.undo)
    (hdepth : s'.journal.depth = s.journal.depth) (h : SameOff [name] s' s) : Recorded s s' :=
  recorded_bindings [name] hundo hdepth h

theorem facts_forgetBinding (s : Scope) (n name : String) :
    (s.forgetBinding name).facts n =
      if n = name then { BindingState.default with ty := s.get name } else s.facts n := by
  split
  · rename_i h
    subst h
    simp [forgetBinding, invalidateProvenance, facts, capture, captureMetadata, markers, get,
      marked_erase, BindingState.default, Markers.none]
  · rename_i h
    simp [forgetBinding, invalidateProvenance, facts, capture, captureMetadata, markers, get,
      marked_erase, h]

theorem provenanceOf_invalidateProvenance (s : Scope) (n name : String) :
    (s.invalidateProvenance name).provenanceOf n =
      if n = name then none else s.provenanceOf n := by
  simp only [invalidateProvenance, provenanceOf]
  cases s.referenceProvenance <;> simp [Table.lookup_erase]

@[simp] theorem tracked_invalidateProvenance (s : Scope) (name : String) :
    (s.invalidateProvenance name).referenceProvenance.isSome = s.referenceProvenance.isSome := by
  simp [invalidateProvenance]

theorem sameOff_one {t s : Scope} {name : String}
    (hfacts : ∀ n, n ≠ name → t.facts n = s.facts n)
    (htracked : t.referenceProvenance.isSome = s.referenceProvenance.isSome)
    (hprovenance : ∀ n, n ≠ name → t.provenanceOf n = s.provenanceOf n)
    (htables : t.tables = s.tables) : SameOff [name] t s where
  facts n hn := hfacts n (by simpa using hn)
  provenance hs := ⟨by rw [htracked, hs], fun n hn => hprovenance n (by simpa using hn)⟩
  tables := htables

/-- An assignment that removed nothing forgot nothing. -/
theorem agree_forgetBinding {s : Scope} {name : String}
    (hmarkers : s.markers name = .none) (hdef : s.lexicalDefinitions.lookup name = none)
    (halias : s.functionAliases.lookup name = none) (hbox : s.boxObjects.lookup name = none)
    (hprov : s.provenanceOf name = none) : Agree ∅ (s.forgetBinding name) s := by
  have hfacts : ∀ n, (s.forgetBinding name).facts n = s.facts n := by
    intro n
    rw [facts_forgetBinding]
    split
    · rename_i h
      subst h
      simp [facts, capture, captureMetadata, BindingState.default, hmarkers, hdef, halias, hbox]
    · rfl
  refine .of_facts hfacts (fun hs => ⟨?_, fun n => ?_⟩) rfl
  · exact (tracked_invalidateProvenance s name).trans hs
  · refine (provenanceOf_invalidateProvenance s n name).trans ?_
    split
    · rename_i h
      rw [h, hprov]
    · rfl

theorem facts_assign (s : Scope) (n name : String) (ty : RType) :
    (s.assign name ty).facts n =
      if n = name then { BindingState.default with ty := some ty } else s.facts n := by
  have hfacts : (s.assign name ty).facts n =
      { (s.forgetBinding name).facts n with ty := (s.bindings.insert name ty).get n } := rfl
  rw [hfacts, facts_forgetBinding, Bindings.get_insert]
  split <;> rfl

theorem facts_pushUndo (s : Scope) (u : Undo) (n : String) : (s.pushUndo u).facts n = s.facts n :=
  rfl

theorem provenanceOf_replay_assignment (t : Scope) (n name : String) (a : AssignmentUndo)
    (ht : t.referenceProvenance.isSome = true) :
    ((Undo.assignment name a).replay t).provenanceOf n =
      if n = name then a.provenance.or (t.provenanceOf n) else t.provenanceOf n := by
  cases hp : a.provenance with
  | none => simp [Undo.replay, AssignmentUndo.restore, hp, provenanceOf]
  | some p =>
    have hput := Undo.provenanceOf_putProvenance t n name (some p) ht
    simpa [Undo.replay, AssignmentUndo.restore, hp, provenanceOf] using hput

theorem tables_replay_assignment (t : Scope) (name : String) (a : AssignmentUndo) :
    ((Undo.assignment name a).replay t).tables = t.tables := by
  cases hp : a.provenance <;>
    simp [Undo.replay, AssignmentUndo.restore, hp, putProvenance, tables]

/-- The compact record of an assignment undoes it, and nothing but the type is left
beside it. -/
theorem recorded_assignment (s : Scope) (name : String) (ty : RType) :
    Recorded s ((s.assign name ty).pushUndo (.assignment name (s.assignmentUndo name))) := by
  refine ⟨[.assignment name (s.assignmentUndo name)], rfl, rfl, ?_, fun n a hfind => ?_⟩
  · unfold Restores
    rw [replayAll_cons, replayAll_nil]
    refine .of_facts (fun n => ?_) (fun hs => ?_) (tables_replay_assignment _ name _)
    · rw [Undo.facts_replay, facts_pushUndo, facts_assign]
      by_cases h : n = name
      · subst h
        simp [Undo.name?, Undo.onFacts, assignmentUndo, facts, capture, captureMetadata,
          BindingState.default, Markers.none]
      · simp [Undo.name?, h, Ne.symm h]
    · have htracked : ((s.assign name ty).pushUndo
          (.assignment name (s.assignmentUndo name))).referenceProvenance.isSome = true :=
        (tracked_invalidateProvenance s name).trans hs
      refine ⟨(Undo.tracked_replay _ _).trans htracked, fun n => ?_⟩
      have hforget : ((s.assign name ty).pushUndo
          (.assignment name (s.assignmentUndo name))).provenanceOf n
            = if n = name then none else s.provenanceOf n :=
        provenanceOf_invalidateProvenance s n name
      rw [provenanceOf_replay_assignment _ n name _ htracked, hforget]
      by_cases h : n = name <;> simp [h, assignmentUndo]
  · have hmem := List.mem_singleton.mp (List.mem_of_find?_eq_some hfind)
    obtain ⟨rfl, -⟩ := Undo.assignment.inj hmem
    refine (facts_pushUndo _ _ n).trans ((facts_assign s n n ty).trans ?_)
    simp [get, pushUndo, assign]

/-! ## Writing a binding -/

theorem recorded_noteEscapedSlot (s : Scope) (name : String) :
    Recorded s (s.noteEscapedSlot name) := by
  unfold noteEscapedSlot
  split
  · exact .refl s
  · exact .of_agree rfl (.of_eq (fun _ => rfl) rfl rfl)

theorem forgetPackageAlias_eq (s : Scope) (name : String) :
    ∃ aliases, (∀ n, n ≠ name → aliases.lookup n = s.functionAliases.lookup n) ∧
      s.forgetPackageAlias name = { s with functionAliases := aliases } := by
  unfold forgetPackageAlias
  split
  · exact ⟨_, fun n hn => Finmap.lookup_erase_ne hn, rfl⟩
  · exact ⟨_, fun _ _ => rfl, rfl⟩

section Bindings

variable {s : Scope} (hs : 0 < s.journal.depth)
include hs

theorem recorded_insertWithAssignmentUndo (name : String) (ty : RType) :
    Recorded s (s.insertWithAssignmentUndo name ty) := by
  have hops := recorded_clearOpsBinding hs name
  simp only [insertWithAssignmentUndo]
  split
  · rename_i hnothing
    simp only [Bool.and_eq_true, AssignmentUndo.removedNothing, beq_iff_eq, Option.isNone_iff_eq_none]
      at hnothing
    obtain ⟨-, ⟨⟨⟨hmarkers, hdef⟩, halias⟩, hbox⟩, hprov⟩ := hnothing
    exact hops.trans (.of_agree rfl (agree_forgetBinding hmarkers hdef halias hbox hprov))
  · exact hops.trans (recorded_assignment _ name ty)

theorem recorded_insertValue (order : IterOrder) (name : String) (ty : RType) :
    Recorded s (s.insertValue order name ty) := by
  have hstring := recorded_clearKnownString hs name
  have hcond := hstring.trans (recorded_retainConditionAliases (hstring.pos hs)
    order (· != semanticArgumentName name))
  have hslot := hcond.trans (recorded_noteEscapedSlot _ name)
  have hdepth := hslot.depth ▸ hs
  simp only [insertValue, if_pos hdepth]
  exact hslot.trans (recorded_insertWithAssignmentUndo hdepth name ty)

theorem recorded_setBoxObject (name : String) (object : BoxObject) :
    Recorded s (s.setBoxObject name object) := by
  simp only [setBoxObject, journalBinding, record_eq hs]
  refine recorded_binding name rfl rfl (sameOff_one (fun n hn => ?_) rfl (fun _ _ => rfl) rfl)
  simp [facts, capture, captureMetadata, markers, get, pushUndo, hn]

theorem recorded_insert (order : IterOrder) (name : String) (ty : RType) :
    Recorded s (s.insert order name ty) := by
  have hvalue := recorded_insertValue hs order name ty
  unfold insert
  split
  · exact hvalue.trans (recorded_setBoxObject (hvalue.pos hs) name _)
  · exact hvalue

theorem recorded_insertParameter (order : IterOrder) (name : String) (ty : RType) :
    Recorded s (s.insertParameter order name ty) := by
  have hinsert := recorded_insert hs order name ty
  simp only [insertParameter, journalMarker, record_eq (hinsert.pos hs)]
  exact hinsert.trans (recorded_marker _ name .parameter (setMarker_insert_marked _ _))

theorem recorded_replaceBindingOnly (name : String) (ty : Option RType) :
    Recorded s (s.replaceBindingOnly name ty) := by
  simp only [replaceBindingOnly, journalBinding, record_eq hs]
  refine recorded_binding name rfl rfl (sameOff_one (fun n hn => ?_) rfl (fun _ _ => rfl) rfl)
  simp [facts, capture, captureMetadata, markers, get, pushUndo, hn]

theorem recorded_setBoxAttachment (name : String) (callable : Option BoxCallable) :
    Recorded s (s.setBoxAttachment name callable) := by
  unfold setBoxAttachment
  split
  · rename_i target
    have halias := recorded_setFunctionAlias hs name target
    exact halias.trans (recorded_setBoxObject (halias.pos hs) name _)
  · exact recorded_setBoxObject hs name _

theorem recorded_applyBoxObject (name : String) (object : Option BoxObject) :
    Recorded s (s.applyBoxObject name object) := by
  simp only [applyBoxObject, journalBinding, record_eq hs]
  split
  · exact .refl s
  · obtain ⟨aliases, haliases, hforget⟩ := forgetPackageAlias_eq
      (s.pushUndo (.binding name (s.capture name))) name
    rw [hforget]
    have hbox : ∀ boxes : Table String BoxObject,
        (∀ n, n ≠ name → boxes.lookup n = s.boxObjects.lookup n) →
        Recorded s { s.pushUndo (.binding name (s.capture name)) with
          functionAliases := aliases, boxObjects := boxes } := by
      intro boxes hboxes
      refine recorded_binding name rfl rfl (sameOff_one (fun n hn => ?_) rfl (fun _ _ => rfl) rfl)
      have halias : aliases.lookup n = s.functionAliases.lookup n := haliases n hn
      simp [facts, capture, captureMetadata, markers, get, pushUndo, hboxes n hn, halias]
    split
    · exact (hbox s.boxObjects fun _ _ => rfl).trans
        (recorded_setBoxAttachment (by exact hs) name _)
    · exact hbox _ fun n hn => Finmap.lookup_insert_of_ne _ hn
    · exact hbox _ fun n hn => Finmap.lookup_erase_ne hn

theorem recorded_applyBoxProvenance (joined : List (String × Option BoxObject)) :
    Recorded s (s.applyBoxProvenance joined) :=
  .foldl (fun _ entry h => recorded_applyBoxObject h entry.1 entry.2) joined hs

end Bindings

/-! ## Narrowing and parameter defaults

The source pushes the name's metadata first and completes the record with the old
type last, with the operator record between.  Writing everything but the operator
facts first gives the same scope, and the same records. -/

/-- What `insertNarrowed` writes beside the operator facts, after the full record. -/
def narrowedCore (s : Scope) (name : String) (ty : RType) : Scope :=
  let t := (s.pushUndo (.binding name (s.capture name))).invalidateProvenance name
  let t := { t with functionAliases := t.functionAliases.erase name }
  let t := t.replaceBoxCallAfterWrite name ty
  { t with
    lexicalFunctions := t.lexicalFunctions.erase name
    loopVectorBindings :=
      if ty.cls.hasKnownClass || ty.length == .zero || ty.length == .one then
        t.loopVectorBindings.erase name else t.loopVectorBindings
    lexicalDefinitions := t.lexicalDefinitions.erase name
    bindings := t.bindings.insert name ty
    narrowedBindings := Insert.insert name t.narrowedBindings }

/-- What `insertParameterDefault` writes beside the operator facts, after the full
record. -/
def defaultCore (s : Scope) (name : String) (ty : RType) : Scope :=
  let t := (s.pushUndo (.binding name (s.capture name))).invalidateProvenance name
  let t := { t with functionAliases := t.functionAliases.erase name }
  let t := t.replaceBoxCallAfterWrite name ty
  { t with
    narrowedBindings := t.narrowedBindings.erase name
    scalarAssertedBindings := t.scalarAssertedBindings.erase name
    loopVectorBindings := t.loopVectorBindings.erase name
    lexicalDefinitions := t.lexicalDefinitions.erase name
    bindings := t.bindings.insert name ty
    parameterBindings := Insert.insert name t.parameterBindings
    defaultParameterBindings := Insert.insert name t.defaultParameterBindings }

theorem depth_noteEscapedSlot (s : Scope) (name : String) :
    (s.noteEscapedSlot name).journal = s.journal := by
  unfold noteEscapedSlot
  split <;> rfl

section Cores

variable {s : Scope} (hs : 0 < s.journal.depth)
include hs

theorem insertNarrowed_eq (name : String) (ty : RType) :
    s.insertNarrowed name ty =
      ((s.noteEscapedSlot name).narrowedCore name ty).clearOpsBinding name := by
  have hdepth : (s.noteEscapedSlot name).journal.depth ≠ 0 := by
    rw [depth_noteEscapedSlot]
    omega
  generalize hnote : s.noteEscapedSlot name = n at hdepth
  simp only [insertNarrowed, hnote, beginBindingChange, if_neg hdepth, clearOpsBinding,
    narrowedCore]
  split <;> rename_i h <;>
    simp [record, pushUndo, Nat.pos_of_ne_zero hdepth, finishBindingChange,
      invalidateProvenance, replaceBoxCallAfterWrite, boxCallAfterWrite, get, capture] at h ⊢
  · intro hnone
    simpa [hnone] using h
  · exact h

theorem insertParameterDefault_eq (name : String) (ty : RType) :
    s.insertParameterDefault name ty =
      ((s.noteEscapedSlot name).defaultCore name ty).clearOpsBinding name := by
  have hdepth : (s.noteEscapedSlot name).journal.depth ≠ 0 := by
    rw [depth_noteEscapedSlot]
    omega
  generalize hnote : s.noteEscapedSlot name = n at hdepth
  simp only [insertParameterDefault, hnote, beginBindingChange, if_neg hdepth, clearOpsBinding,
    defaultCore]
  split <;> rename_i h <;>
    simp [record, pushUndo, Nat.pos_of_ne_zero hdepth, finishBindingChange,
      invalidateProvenance, replaceBoxCallAfterWrite, boxCallAfterWrite, get, capture] at h ⊢
  · intro hnone
    simpa [hnone] using h
  · exact h

end Cores

theorem lookup_replaceBoxCallAfterWrite (s : Scope) {n name : String} (hn : n ≠ name)
    (ty : RType) :
    (s.replaceBoxCallAfterWrite name ty).boxObjects.lookup n = s.boxObjects.lookup n := by
  simp only [replaceBoxCallAfterWrite]
  split
  · exact Finmap.lookup_insert_of_ne _ hn
  · exact Finmap.lookup_erase_ne hn

theorem recorded_narrowedCore (s : Scope) (name : String) (ty : RType) :
    Recorded s (s.narrowedCore name ty) := by
  refine recorded_binding name rfl rfl (sameOff_one (fun n hn => ?_) ?_ (fun n hn => ?_) rfl)
  · have hbox : (s.narrowedCore name ty).boxObjects.lookup n = s.boxObjects.lookup n :=
      lookup_replaceBoxCallAfterWrite _ hn ty
    have hloop : marked (s.narrowedCore name ty).loopVectorBindings n
        = marked s.loopVectorBindings n := by
      simp only [narrowedCore]
      split
      · exact (marked_erase _ n name).trans (if_neg hn)
      · rfl
    simp only [facts, capture, captureMetadata, markers, hbox, hloop]
    simp [narrowedCore, replaceBoxCallAfterWrite, invalidateProvenance, pushUndo, get,
      marked_insert, marked_erase, hn]
  · exact tracked_invalidateProvenance _ name
  · exact (provenanceOf_invalidateProvenance _ n name).trans (if_neg hn)

theorem recorded_defaultCore (s : Scope) (name : String) (ty : RType) :
    Recorded s (s.defaultCore name ty) := by
  refine recorded_binding name rfl rfl (sameOff_one (fun n hn => ?_) ?_ (fun n hn => ?_) rfl)
  · have hbox : (s.defaultCore name ty).boxObjects.lookup n = s.boxObjects.lookup n :=
      lookup_replaceBoxCallAfterWrite _ hn ty
    simp only [facts, capture, captureMetadata, markers, hbox]
    simp [defaultCore, replaceBoxCallAfterWrite, invalidateProvenance, pushUndo, get,
      marked_insert, marked_erase, hn]
  · exact tracked_invalidateProvenance _ name
  · exact (provenanceOf_invalidateProvenance _ n name).trans (if_neg hn)

section Narrowing

variable {s : Scope} (hs : 0 < s.journal.depth)
include hs

theorem recorded_insertNarrowed (name : String) (ty : RType) :
    Recorded s (s.insertNarrowed name ty) := by
  rw [insertNarrowed_eq hs]
  have h := (recorded_noteEscapedSlot s name).trans (recorded_narrowedCore _ name ty)
  exact h.trans (recorded_clearOpsBinding (h.pos hs) name)

theorem recorded_insertParameterDefault (name : String) (ty : RType) :
    Recorded s (s.insertParameterDefault name ty) := by
  rw [insertParameterDefault_eq hs]
  have h := (recorded_noteEscapedSlot s name).trans (recorded_defaultCore _ name ty)
  exact h.trans (recorded_clearOpsBinding (h.pos hs) name)

end Narrowing

/-! ## Provenance -/

theorem recorded_startReferenceScope (s : Scope) (owner : Span) :
    Recorded s (s.startReferenceScope owner) := by
  unfold startReferenceScope
  split
  · rename_i p hp
    refine .of_agree rfl (.of_facts (fun _ => rfl) (fun _ => ⟨rfl, fun n => ?_⟩) rfl)
    simp [provenanceOf, hp]
  · rename_i hp
    exact .of_agree rfl (.of_facts (fun _ => rfl) (fun h => by simp [hp] at h) rfl)

section Provenance

variable {s : Scope} (hs : 0 < s.journal.depth)
include hs

theorem recorded_clearReferenceBindings : Recorded s s.clearReferenceBindings := by
  unfold clearReferenceBindings
  split
  · exact .refl s
  · rename_i p hp
    rw [record_eq (by exact hs)]
    refine .of_record rfl rfl (by simp) (.of_facts (fun _ => rfl) (fun _ => ⟨rfl, fun n => ?_⟩) rfl)
    simp [Undo.replay, pushUndo, provenanceOf, hp]

theorem recorded_installReferenceDefinition (name : String) (definition : Option DefinitionId)
    (typeKnown : Bool) : Recorded s (s.installReferenceDefinition name definition typeKnown) := by
  simp only [installReferenceDefinition, journalReferenceBinding, record_eq hs]
  -- whatever the name's entry becomes, its record holds the old one
  have hentry : ∀ t : Scope, t.journal = (s.pushUndo (.reference name (s.provenanceOf name))).journal →
      (∀ n, t.facts n = s.facts n) → t.tables = s.tables →
      (s.referenceProvenance.isSome = true → t.referenceProvenance.isSome = true ∧
        ∀ n, n ≠ name → t.provenanceOf n = s.provenanceOf n) → Recorded s t := by
    intro t hj hfacts htables hprov
    have hundo : t.journal.undo = .reference name (s.provenanceOf name) :: s.journal.undo := by
      rw [hj]
      rfl
    refine .of_record hundo (by rw [hj]; rfl) (by simp) (.of_facts hfacts (fun h => ?_) htables)
    obtain ⟨ht, hoff⟩ := hprov h
    refine ⟨(Undo.tracked_replay _ t).trans ht, fun n => ?_⟩
    refine (Undo.provenanceOf_putProvenance t n name _ ht).trans ?_
    split
    · rename_i hn
      rw [hn]
    · rename_i hn
      exact hoff n hn
  split
  · exact .refl s
  · split
    · rename_i p _ hp
      have hp : s.referenceProvenance = some p := hp
      split
      · exact hentry _ rfl (fun _ => rfl) rfl fun h => ⟨h, fun _ _ => rfl⟩
      · refine hentry _ rfl (fun _ => rfl) rfl fun _ => ⟨rfl, fun n hn => ?_⟩
        simp [provenanceOf, hp, Finmap.lookup_insert_of_ne _ hn]
    · exact hentry _ rfl (fun _ => rfl) rfl fun h => ⟨h, fun _ _ => rfl⟩

theorem recorded_finishReferenceRead (name : String) (span : Span) :
    Recorded s (s.finishReferenceRead name span) := by
  unfold finishReferenceRead
  split
  · exact .refl s
  · rename_i p hp
    dsimp only
    split
    · have hnote : Recorded s { s with referenceProvenance := some (p.noteUnsafeRead span) } :=
        .of_agree rfl (.of_facts (fun _ => rfl)
          (fun _ => ⟨rfl, fun n => by simp [provenanceOf, hp, ScopeProvenance.noteUnsafeRead]⟩) rfl)
      exact hnote.trans (recorded_clearReferenceBindings (by exact hs))
    · exact .refl s

end Provenance

/-! ## Unknown effects -/

theorem foldl_journalBinding {s : Scope} (hs : 0 < s.journal.depth) (ns : List String) :
    ns.foldl journalBinding s =
      { s with journal := { s.journal with undo := s.bindingRecords ns ++ s.journal.undo } } := by
  induction ns using List.reverseRecOn with
  | nil => rfl
  | append_singleton ns name ih =>
    rw [List.foldl_append, ih]
    simp [journalBinding, record, hs, pushUndo, bindingRecords]
    rfl

/-- A name the scope records nothing about has no facts. -/
theorem facts_of_notMem_recordedNames {s : Scope} {n : String} (h : n ∉ s.recordedNames) :
    s.facts n = .default := by
  simp only [recordedNames, Finset.mem_union, not_or, Table.mem_keys_iff,
    Option.not_isSome_iff_eq_none] at h
  obtain ⟨⟨⟨⟨⟨⟨⟨⟨⟨⟨hty, h1⟩, h2⟩, h3⟩, h4⟩, h5⟩, h6⟩, h7⟩, hdef⟩, halias⟩, hbox⟩ := h
  simp [facts, capture, captureMetadata, markers, get, Bindings.get, BindingState.default,
    Markers.none, marked, hty, h1, h2, h3, h4, h5, h6, h7, hdef, halias, hbox]

theorem facts_forgetAll (s : Scope) (n : String) (h : s.facts n = .default) :
    s.forgetAll.facts n = .default := by
  have hty : s.get n = none := congrArg BindingState.ty h
  have hbox : s.boxObjects.lookup n = none := congrArg BindingState.boxObject h
  simp only [get] at hty
  simp [forgetAll, keepBoxCallsAfterWrites, facts, capture, captureMetadata, markers, get,
    BindingState.default, Markers.none, hty, Table.lookup_mapValues, Table.lookup_retain, hbox]

/-- Dropping the provenance table and dropping everything else do not interfere. -/
theorem clearReferenceBindings_forgetAll (s : Scope) :
    s.clearReferenceBindings.forgetAll = s.forgetAll.clearReferenceBindings := by
  have hp : s.forgetAll.referenceProvenance = s.referenceProvenance := rfl
  unfold clearReferenceBindings
  rw [hp]
  cases s.referenceProvenance with
  | none => rfl
  | some p =>
    dsimp only
    by_cases hs : 0 < s.journal.depth
    · have hrecord : ∀ (t : Scope) u, t.journal = s.journal → t.record u = t.pushUndo u :=
        fun t u ht => record_eq (by rw [ht]; exact hs) u
      rw [hrecord, hrecord] <;> rfl
    · have hrecord : ∀ (t : Scope) u, t.journal = s.journal → t.record u = t :=
        fun t u ht => if_neg (by rw [ht]; exact hs)
      rw [hrecord, hrecord] <;> rfl

theorem provenanceOf_clearReferenceBindings (s : Scope) (n : String) :
    s.clearReferenceBindings.provenanceOf n = none := by
  unfold clearReferenceBindings
  split
  · rename_i hp
    simp [provenanceOf, hp]
  · simp only [record]
    split <;> simp [provenanceOf, pushUndo]

section Effects

variable {s : Scope} (hs : 0 < s.journal.depth)
include hs

/-- The full records of every name on record, and then none of their facts. -/
theorem recorded_forgetAll (order : IterOrder) :
    Recorded s (s.journalRecordedNames order).forgetAll := by
  simp only [journalRecordedNames, if_pos hs, foldl_journalBinding hs]
  refine recorded_bindings (order.list s.recordedNames) rfl rfl ⟨fun n hn => ?_, fun h => ?_, rfl⟩
  · have hdefault : s.facts n = .default :=
      facts_of_notMem_recordedNames (mt (order.mem s.recordedNames n).mpr hn)
    exact (facts_forgetAll _ n hdefault).trans hdefault.symm
  · exact ⟨h, fun _ _ => rfl⟩

theorem recorded_invalidateOpsEnvironment : Recorded s s.invalidateOpsEnvironment := by
  have hstrings := recorded_clearKnownStrings hs
  have hops := hstrings.trans (recorded_clearOpsFacts (hstrings.pos hs))
  exact hops.trans (.of_agree rfl (.of_eq (fun _ => rfl) rfl rfl))

omit hs in
theorem recorded_failedNamespaces_forgetAll (s : Scope) :
    Recorded s.forgetAll s.clearFailedNamespaces.forgetAll :=
  .of_agree rfl (.of_eq (fun _ => rfl) rfl rfl)

/-- The part of an unknown effect the branch's records undo. -/
theorem recorded_forgetEffects (order : IterOrder) :
    Recorded s
      (s.journalRecordedNames order).clearFailedNamespaces.clearReferenceBindings.forgetAll := by
  -- the provenance record comes before the facts go, which is as good as after
  rw [clearReferenceBindings_forgetAll]
  have h := (recorded_forgetAll hs order).trans (recorded_failedNamespaces_forgetAll _)
  exact h.trans (recorded_clearReferenceBindings (h.pos hs))

omit hs in
theorem recorded_noteEffects (s : Scope) : Recorded s s.noteEffects :=
  .of_agree rfl (.of_eq (fun _ => rfl) rfl rfl)

omit hs in
theorem recorded_invalidateAllProvenance (h : ∀ n, s.provenanceOf n = none) :
    Recorded s s.invalidateAllProvenance := by
  refine .of_agree rfl (.of_facts (fun _ => rfl) (fun hs => ⟨?_, fun n => ?_⟩) rfl)
  · simpa [invalidateAllProvenance] using hs
  · rw [h n]
    cases hp : s.referenceProvenance <;> simp [provenanceOf, invalidateAllProvenance, hp]

omit hs in
theorem provenanceOf_forgetAll (s : Scope) (n : String) :
    s.forgetAll.provenanceOf n = s.provenanceOf n := rfl

omit hs in
/-- What is left of an unknown effect once the facts are gone. -/
theorem recorded_afterForgetting (hs : 0 < s.journal.depth) (h : ∀ n, s.provenanceOf n = none) :
    Recorded s s.invalidateAllProvenance.noteEffects.invalidateOpsEnvironment := by
  have hflags := (recorded_invalidateAllProvenance h).trans (recorded_noteEffects _)
  exact hflags.trans (recorded_invalidateOpsEnvironment (hflags.pos hs))

theorem recorded_invalidateUnknownEffects (order : IterOrder) :
    Recorded s (s.invalidateUnknownEffects order) := by
  have hstrings := recorded_clearKnownStrings hs
  have haliases := hstrings.trans (recorded_clearConditionAliases (hstrings.pos hs))
  have hforget := haliases.trans (recorded_forgetEffects (haliases.pos hs) order)
  refine hforget.trans (recorded_afterForgetting (hforget.pos hs) fun n => ?_)
  rw [provenanceOf_forgetAll, provenanceOf_clearReferenceBindings]

end Effects

/-! ## Every step -/

theorem recorded_clearScalarAssertions {s : Scope} (hs : 0 < s.journal.depth)
    (order : IterOrder) : Recorded s (s.clearScalarAssertions order) :=
  recorded_retainScalarAssertions hs order _

theorem recorded_invalidateScalarAssertions {s : Scope} (hs : 0 < s.journal.depth)
    (order : IterOrder) : Recorded s (s.invalidateScalarAssertions order) :=
  have hflag : Recorded s
      { s with uncertainty := { s.uncertainty with dynamicBindings := true } } :=
    .of_agree rfl (.of_eq (fun _ => rfl) rfl rfl)
  hflag.trans (recorded_clearScalarAssertions (by exact hs) order)

theorem recorded_invalidateLiteralValues {s : Scope} (hs : 0 < s.journal.depth) :
    Recorded s s.invalidateLiteralValues :=
  (recorded_clearKnownStrings hs).trans (.of_agree rfl (.of_eq (fun _ => rfl) rfl rfl))

end Scope

/-- Inside a snapshot, every mutator records what it changes. -/
theorem Step.recorded (st : Step) (order : IterOrder) {s : Scope} (hs : 0 < s.journal.depth) :
    Scope.Recorded s (st.apply order s) := by
  cases st with
  | insert name ty => exact Scope.recorded_insert hs order name ty
  | insertNarrowed name ty => exact Scope.recorded_insertNarrowed hs name ty
  | insertParameter name ty => exact Scope.recorded_insertParameter hs order name ty
  | insertParameterDefault name ty => exact Scope.recorded_insertParameterDefault hs name ty
  | replaceBindingOnly name ty => exact Scope.recorded_replaceBindingOnly hs name ty
  | markListOrigin name => exact Scope.recorded_markListOrigin hs name
  | markScalarAsserted name => exact Scope.recorded_markScalarAsserted hs name
  | clearScalarAsserted name => exact Scope.recorded_clearScalarAsserted hs name
  | retainScalarAssertions keep => exact Scope.recorded_retainScalarAssertions hs order keep
  | invalidateScalarAssertions => exact Scope.recorded_invalidateScalarAssertions hs order
  | markLoopVector name => exact Scope.recorded_markLoopVector hs name
  | clearLoopVector name => exact Scope.recorded_clearLoopVector hs name
  | setFunctionAlias name target => exact Scope.recorded_setFunctionAlias hs name target
  | setBoxObject name object => exact Scope.recorded_setBoxObject hs name object
  | setBoxAttachment name callable => exact Scope.recorded_setBoxAttachment hs name callable
  | applyBoxProvenance joined => exact Scope.recorded_applyBoxProvenance hs joined
  | markLexicalFunction name definition =>
    exact Scope.recorded_markLexicalFunction hs name definition
  | markBoundFunctionDefinition name definition =>
    exact Scope.recorded_markBoundFunctionDefinition hs name definition
  | markLexicalCallable name => exact Scope.recorded_markLexicalCallable hs name
  | forgetLexicalDefinition name => exact Scope.recorded_forgetLexicalDefinition hs name
  | invalidateUnknownEffects => exact Scope.recorded_invalidateUnknownEffects hs order
  | invalidateOpsEnvironment => exact Scope.recorded_invalidateOpsEnvironment hs
  | clearOpsBinding rawName => exact Scope.recorded_clearOpsBinding hs rawName
  | setLiteralFunction name function => exact Scope.recorded_setLiteralFunction hs name function
  | markPlainOpsVector name => exact Scope.recorded_markPlainOpsVector hs name
  | clearOpsFacts => exact Scope.recorded_clearOpsFacts hs
  | setKnownString name value => exact Scope.recorded_setKnownString hs name value
  | clearKnownString name => exact Scope.recorded_clearKnownString hs name
  | clearKnownStrings => exact Scope.recorded_clearKnownStrings hs
  | setConditionAlias name cond => exact Scope.recorded_setConditionAlias hs name cond
  | retainConditionAliases keep => exact Scope.recorded_retainConditionAliases hs order keep
  | clearConditionAliases => exact Scope.recorded_clearConditionAliases hs
  | invalidateLiteralValues => exact Scope.recorded_invalidateLiteralValues hs
  | invalidateLiteralValuesForDispatch value =>
    simp only [Step.apply, Scope.invalidateLiteralValuesForDispatch]
    split
    · exact Scope.recorded_invalidateLiteralValues hs
    · exact .refl s
  | startReferenceScope owner => exact Scope.recorded_startReferenceScope s owner
  | installReferenceDefinition name definition typeKnown =>
    exact Scope.recorded_installReferenceDefinition hs name definition typeKnown
  | finishReferenceRead name span => exact Scope.recorded_finishReferenceRead hs name span
  -- the fields a snapshot saves whole, and the block writes, which it does not restore
  | invalidateDataMaskEnv => exact .of_agree rfl (.of_eq (fun _ => rfl) rfl rfl)
  | markDataMaskColumn name => exact .of_agree rfl (.of_eq (fun _ => rfl) rfl rfl)
  | writeFlags flags => exact .of_agree rfl (.of_eq (fun _ => rfl) rfl rfl)
  | noteBlockWrite name => exact .of_agree rfl (.of_eq (fun _ => rfl) rfl rfl)

end Ry
