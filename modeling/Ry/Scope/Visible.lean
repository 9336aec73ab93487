import Ry.Scope.Snapshot

/-! # The plain and the journaling path

Outside any snapshot a mutator writes the tables and pushes nothing.  Inside one it
also pushes records, and `insert` skips the write where it would change nothing it can
see.  Whether the two leave the same tables is a question about that shortcut alone:
every other mutator is `Blind`, it reads and writes the same tables whatever the
journal holds, and an `insert` does so unless the name already has a type that
compares equal to the new one and is not the new one.
-/

namespace Ry

namespace Scope

@[simp] theorem visible_journal (s : Scope) (j : Journal) :
    visible { s with journal := j } = s.visible := rfl

@[simp] theorem visible_pushUndo (s : Scope) (u : Undo) : (s.pushUndo u).visible = s.visible := rfl

@[simp] theorem visible_record (s : Scope) (u : Undo) : (s.record u).visible = s.visible := by
  unfold record
  split <;> rfl

theorem eq_of_visible {s t : Scope} (h : s.visible = t.visible) :
    s = { t with journal := s.journal } := by
  cases s
  cases t
  simpa [visible] using h

/-- What reads no journal reads the same in scopes with the same tables. -/
theorem read_of_visible {A : Type} (f : Scope → A) (hf : ∀ s : Scope, f s.visible = f s)
    {s t : Scope} (h : s.visible = t.visible) : f s = f t := by
  rw [← hf s, h, hf t]

/-- What the mutator does to the tables does not depend on the journal. -/
def Blind (m : Scope → Scope) : Prop :=
  ∀ s j, (m { s with journal := j }).visible = (m s).visible

namespace Blind

theorem congr {m : Scope → Scope} (h : Blind m) {s t : Scope} (hst : s.visible = t.visible) :
    (m s).visible = (m t).visible := by
  rw [eq_of_visible hst]
  exact h t s.journal

theorem comp {m m' : Scope → Scope} (h : Blind m) (h' : Blind m') : Blind fun s => m' (m s) :=
  fun s j => h'.congr (h s j)

theorem foldl {A : Type} (f : Scope → A → Scope) (h : ∀ a, Blind fun s => f s a) (l : List A) :
    Blind fun s => l.foldl f s := by
  induction l with
  | nil => exact fun _ _ => rfl
  | cons a l ih => exact (h a).comp ih

end Blind

section Tables

theorem blind_clearKnownString (name : String) : Blind (clearKnownString · name) := by
  intro s j
  simp only [clearKnownString]
  split
  · rfl
  · simp only [visible_record]
    rfl

theorem blind_setKnownString (name value : String) : Blind (setKnownString · name value) := by
  intro s j
  simp only [setKnownString]
  split
  · rfl
  · simp only [visible_record]
    rfl

theorem blind_clearKnownStrings : Blind clearKnownStrings := by
  intro s j
  simp only [clearKnownStrings]
  split
  · simp only [visible_record]
    rfl
  · rfl

theorem blind_setConditionAlias (name : String) (cond : Expr) :
    Blind (setConditionAlias · name cond) := by
  intro s j
  simp only [setConditionAlias]
  split
  · rfl
  · simp only [visible_record]
    rfl

theorem blind_clearConditionAliases : Blind clearConditionAliases := by
  intro s j
  simp only [clearConditionAliases]
  split
  · simp only [visible_record]
    rfl
  · rfl

theorem blind_clearOpsBinding (rawName : String) : Blind (clearOpsBinding · rawName) := by
  intro s j
  simp only [clearOpsBinding]
  split
  · simp only [visible_record]
    rfl
  · rfl

theorem blind_setLiteralFunction (name : String) (function : LiteralFunction) :
    Blind (setLiteralFunction · name function) := by
  intro s j
  simp only [setLiteralFunction, journalOpsBinding, record]
  split <;> split <;> rfl

theorem blind_clearOpsFacts : Blind clearOpsFacts := by
  intro s j
  simp only [clearOpsFacts]
  split
  · simp only [visible_record]
    rfl
  · rfl

theorem blind_markPlainOpsVector (name : String) : Blind (markPlainOpsVector · name) := by
  intro s j
  simp only [markPlainOpsVector, journalOpsBinding, record]
  split <;> split <;> rfl

theorem blind_invalidateLiteralValues : Blind invalidateLiteralValues := fun s j =>
  congrArg (fun v : Scope => { v with uncertainty := { v.uncertainty with literalValues := true } })
    (blind_clearKnownStrings s j)

theorem blind_invalidateOpsEnvironment : Blind invalidateOpsEnvironment := fun s j =>
  congrArg
    (fun v : Scope => { v with uncertainty := { v.uncertainty with opsEnvironment := true } })
    (blind_clearOpsFacts.congr (blind_clearKnownStrings s j))

theorem blind_invalidateLiteralValuesForDispatch (value : RType) :
    Blind (invalidateLiteralValuesForDispatch · value) := by
  intro s j
  simp only [invalidateLiteralValuesForDispatch]
  split
  · exact blind_invalidateLiteralValues s j
  · rfl

end Tables

section OneFact

theorem blind_markListOrigin (name : String) : Blind (markListOrigin · name) := by
  intro s j
  simp only [markListOrigin, journalMarker, record]
  split <;> split <;> rfl

theorem blind_markParameter (name : String) : Blind fun s =>
    let s := s.journalMarker name .parameter
    { s with parameterBindings := Insert.insert name s.parameterBindings } := by
  intro s j
  simp only [journalMarker, record]
  split <;> split <;> rfl

theorem blind_markLexicalCallable (name : String) : Blind (markLexicalCallable · name) := by
  intro s j
  simp only [markLexicalCallable, journalMarker, record]
  split <;> split <;> rfl

theorem blind_markScalarAsserted (name : String) : Blind (markScalarAsserted · name) := by
  intro s j
  simp only [markScalarAsserted, journalMarker, record]
  split
  · rfl
  · split <;> split <;> rfl

theorem blind_clearScalarAsserted (name : String) : Blind (clearScalarAsserted · name) := by
  intro s j
  simp only [clearScalarAsserted, journalMarker, record]
  split
  · split <;> split <;> rfl
  · rfl

theorem blind_markLoopVector (name : String) : Blind (markLoopVector · name) := by
  intro s j
  simp only [markLoopVector, journalMarker, record]
  split
  · rfl
  · split <;> split <;> rfl

theorem blind_clearLoopVector (name : String) : Blind (clearLoopVector · name) := by
  intro s j
  simp only [clearLoopVector, journalMarker, record]
  split
  · split <;> split <;> rfl
  · rfl

theorem blind_markBoundFunctionDefinition (name : String) (definition : Span) :
    Blind (markBoundFunctionDefinition · name definition) := by
  intro s j
  simp only [markBoundFunctionDefinition, journalLexicalDefinition, record]
  split <;> split <;> rfl

theorem blind_forgetLexicalDefinition (name : String) :
    Blind (forgetLexicalDefinition · name) := by
  intro s j
  simp only [forgetLexicalDefinition, journalLexicalDefinition, record]
  split <;> split <;> rfl

theorem blind_markLexicalFunction (name : String) (definition : Span) :
    Blind (markLexicalFunction · name definition) :=
  (blind_markLexicalCallable name).comp (blind_markBoundFunctionDefinition name definition)

theorem blind_setFunctionAlias (name target : String) : Blind (setFunctionAlias · name target) := by
  intro s j
  simp only [setFunctionAlias, journalAlias, record]
  split <;> split <;> rfl

theorem blind_setBoxObject (name : String) (object : BoxObject) :
    Blind (setBoxObject · name object) := by
  intro s j
  simp only [setBoxObject, journalBinding, record]
  split <;> split <;> rfl

theorem blind_setBoxAttachment (name : String) (callable : Option BoxCallable) :
    Blind (setBoxAttachment · name callable) := by
  unfold setBoxAttachment
  split
  · exact (blind_setFunctionAlias name _).comp (blind_setBoxObject name _)
  · exact blind_setBoxObject name _

theorem blind_replaceBindingOnly (name : String) (ty : Option RType) :
    Blind (replaceBindingOnly · name ty) := by
  intro s j
  simp only [replaceBindingOnly, journalBinding, record]
  split <;> split <;> rfl

theorem blind_journalBinding (name : String) : Blind (journalBinding · name) := by
  intro s j
  simp [journalBinding]

theorem blind_forgetPackageAlias (name : String) : Blind (forgetPackageAlias · name) := by
  intro s j
  simp only [forgetPackageAlias]
  split <;> rfl

theorem blind_applyBoxObject (name : String) (object : Option BoxObject) :
    Blind (applyBoxObject · name object) := by
  have hforget := (blind_journalBinding name).comp (blind_forgetPackageAlias name)
  intro s j
  simp only [applyBoxObject]
  split
  · rfl
  · split
    · exact (blind_setBoxAttachment name _).congr (hforget s j)
    · rename_i object _ _
      exact congrArg (fun v : Scope => { v with boxObjects := v.boxObjects.insert name object })
        (hforget s j)
    · exact congrArg (fun v : Scope => { v with boxObjects := v.boxObjects.erase name })
        (hforget s j)

theorem blind_applyBoxProvenance (joined : List (String × Option BoxObject)) :
    Blind (applyBoxProvenance · joined) :=
  .foldl (fun s (entry : String × Option BoxObject) => s.applyBoxObject entry.1 entry.2)
    (fun entry => blind_applyBoxObject entry.1 entry.2) joined

end OneFact

/-! ## Loops over a set of names -/

section Loops

theorem visible_clearScalarAsserted (s : Scope) (name : String) :
    (s.clearScalarAsserted name).visible =
      { s with scalarAssertedBindings := s.scalarAssertedBindings.erase name }.visible := by
  simp only [clearScalarAsserted, journalMarker, record]
  split
  · split <;> rfl
  · rename_i h
    rw [Finset.erase_eq_of_notMem h]

theorem foldl_clearScalarAsserted (s : Scope) (l : List String) :
    (l.foldl clearScalarAsserted s).visible =
      { s with scalarAssertedBindings := s.scalarAssertedBindings.filter (· ∉ l) }.visible := by
  induction l generalizing s with
  | nil => simp
  | cons name l ih =>
    have htail := Blind.foldl clearScalarAsserted blind_clearScalarAsserted l
    rw [List.foldl_cons, htail.congr (visible_clearScalarAsserted s name), ih]
    congr 2
    ext n
    simp only [Finset.mem_filter, Finset.mem_erase, List.mem_cons, not_or]
    tauto

/-- The order of the loop shows in the records alone. -/
theorem visible_retainScalarAssertions (s : Scope) (order : IterOrder) (keep : String → Bool) :
    (s.retainScalarAssertions order keep).visible =
      { s with scalarAssertedBindings := s.scalarAssertedBindings.filter (keep ·) }.visible := by
  rw [retainScalarAssertions, foldl_clearScalarAsserted]
  congr 2
  ext n
  simp only [Finset.mem_filter, order.mem]
  cases keep n <;> simp

theorem foldl_removeConditionAlias (s : Scope) (l : List String) :
    (l.foldl removeConditionAlias s).visible =
      { s with conditionAliases :=
          Table.retain s.conditionAliases fun name _ => name ∉ l }.visible := by
  induction l generalizing s with
  | nil =>
    have hall : Table.retain s.conditionAliases (fun name _ => name ∉ ([] : List String))
        = s.conditionAliases :=
      Finmap.ext_lookup fun n => by cases h : s.conditionAliases.lookup n <;> simp [Table.lookup_retain, h]
    rw [hall]
    rfl
  | cons name l ih =>
    have hhead : (s.removeConditionAlias name).visible =
        { s with conditionAliases := s.conditionAliases.erase name }.visible := by
      simp only [removeConditionAlias, visible_record]
    have htail := Blind.foldl removeConditionAlias
      (fun name s j => by simp only [removeConditionAlias, visible_record]; rfl) l
    rw [List.foldl_cons, htail.congr hhead, ih]
    congr 2
    refine Finmap.ext_lookup fun n => ?_
    simp only [Table.lookup_retain, Table.lookup_erase, List.mem_cons, not_or]
    by_cases h : n = name <;> simp [h]

theorem retainConditionAliases_of_empty {s : Scope} (order : IterOrder) (keep : String → Bool)
    (h : s.conditionAliases = ∅) : s.retainConditionAliases order keep = s := by
  have hnone : order.list (s.conditionAliases.keys.filter fun name =>
      !keep name || ((s.conditionAliases.lookup name).elim false fun a => a.reads.any (!keep ·)))
        = [] := by
    refine List.eq_nil_iff_forall_not_mem.mpr fun name hname => ?_
    simp [order.mem, h] at hname
  rw [retainConditionAliases, hnone]
  rfl

theorem visible_retainConditionAliases (s : Scope) (order : IterOrder) (keep : String → Bool) :
    (s.retainConditionAliases order keep).visible =
      { s with conditionAliases :=
          Table.retain s.conditionAliases fun name a =>
            keep name && a.reads.all keep }.visible := by
  rw [retainConditionAliases, foldl_removeConditionAlias]
  congr 2
  refine Finmap.ext_lookup fun n => ?_
  rw [Table.lookup_retain, Table.lookup_retain]
  cases hn : s.conditionAliases.lookup n with
  | none => rfl
  | some a =>
    simp only [Option.filter_some, order.mem, Finset.mem_filter, Table.mem_keys_iff, hn]
    cases keep n <;> simp

end Loops

/-! ## Provenance and unknown effects -/

section Effects

theorem blind_clearReferenceBindings : Blind clearReferenceBindings := by
  intro s j
  simp only [clearReferenceBindings]
  split
  · rfl
  · simp only [visible_record]
    rfl

theorem blind_startReferenceScope (owner : Span) : Blind (startReferenceScope · owner) := by
  intro s j
  simp only [startReferenceScope]
  split <;> rfl

theorem blind_installReferenceDefinition (name : String) (definition : Option DefinitionId)
    (typeKnown : Bool) : Blind (installReferenceDefinition · name definition typeKnown) := by
  intro s j
  unfold installReferenceDefinition
  dsimp only
  split
  · rfl
  · -- the record moves the journal only
    have hrecord : ∀ j, ∃ j', journalReferenceBinding { s with journal := j } name =
        { s with journal := j' } := fun j => ⟨_, eq_of_visible (by
          rw [journalReferenceBinding, visible_record]
          rfl)⟩
    obtain ⟨j₁, h₁⟩ := hrecord j
    obtain ⟨j₂, h₂⟩ := hrecord s.journal
    rw [h₁, show s.journalReferenceBinding name = { s with journal := j₂ } from h₂]
    dsimp only
    split
    · split <;> rfl
    · rfl

theorem blind_finishReferenceRead (name : String) (span : Span) :
    Blind (finishReferenceRead · name span) := by
  intro s j
  simp only [finishReferenceRead]
  split
  · rfl
  · split
    · exact blind_clearReferenceBindings.congr rfl
    · rfl

theorem blind_clearFailedNamespaces : Blind clearFailedNamespaces := fun _ _ => rfl

theorem blind_forgetAll : Blind fun s => s.forgetAll.invalidateAllProvenance.noteEffects :=
  fun _ _ => rfl

/-- The names' full records are all an unknown effect's loop leaves. -/
theorem visible_journalRecordedNames (s : Scope) (order : IterOrder) :
    (s.journalRecordedNames order).visible = s.visible := by
  unfold journalRecordedNames
  split
  · rename_i h
    rw [foldl_journalBinding h]
    rfl
  · rfl

theorem visible_invalidateUnknownEffects (order order' : IterOrder) {s t : Scope}
    (h : s.visible = t.visible) :
    (s.invalidateUnknownEffects order).visible = (t.invalidateUnknownEffects order').visible := by
  have hnames := visible_journalRecordedNames s.clearKnownStrings.clearConditionAliases order
  have hnames' := visible_journalRecordedNames t.clearKnownStrings.clearConditionAliases order'
  have hcleared := blind_clearConditionAliases.congr (blind_clearKnownStrings.congr h)
  have hstart := (hnames.trans hcleared).trans hnames'.symm
  have hnamespaces := blind_clearFailedNamespaces.congr hstart
  have hprov := blind_clearReferenceBindings.congr hnamespaces
  exact blind_invalidateOpsEnvironment.congr (blind_forgetAll.congr hprov)

end Effects

/-! ## Writing a binding -/

section Writing

theorem blind_noteEscapedSlot (name : String) : Blind (noteEscapedSlot · name) := by
  intro s j
  simp only [noteEscapedSlot]
  split <;> rfl

theorem blind_beginBindingChange (name : String) : Blind fun s => (s.beginBindingChange name).1 := by
  intro s j
  simp only [beginBindingChange]
  split <;> split <;> rfl

@[simp] theorem visible_finishBindingChange (s : Scope) (index : Option Nat)
    (previous : Option RType) : (s.finishBindingChange index previous).visible = s.visible := by
  unfold finishBindingChange
  split <;> rfl

theorem blind_assign (name : String) (ty : RType) : Blind (assign · name ty) := fun _ _ => rfl

theorem blind_replaceBoxCallAfterWrite (name : String) (ty : RType) :
    Blind (replaceBoxCallAfterWrite · name ty) := fun _ _ => rfl

/-- What the two narrowing inserts write between their first and last record. -/
theorem blind_bindingChange (name : String) (ty : RType) (m m' : Scope → Scope) (hm : Blind m)
    (hm' : Blind m') : Blind fun s =>
      let change := (s.noteEscapedSlot name).beginBindingChange name
      let s := m ((change.1.clearOpsBinding name).invalidateProvenance name)
      m' ({ s with bindings := s.bindings.insert name ty }.finishBindingChange change.2
        (s.get name)) := by
  intro s j
  have hchange := (blind_beginBindingChange name).congr (blind_noteEscapedSlot name s j)
  have hops := (blind_clearOpsBinding name).congr hchange
  have hprov := Blind.congr (m := (invalidateProvenance · name)) (fun _ _ => rfl) hops
  have hwrite := Blind.congr (m := fun t : Scope => { t with bindings := t.bindings.insert name ty })
    (fun _ _ => rfl) (hm.congr hprov)
  exact hm'.congr (by simpa only [visible_finishBindingChange] using hwrite)

/-- What `insertNarrowed` forgets about the name. -/
def forgetForNarrowing (s : Scope) (name : String) (ty : RType) : Scope :=
  let s := { s with functionAliases := s.functionAliases.erase name }
  let s := s.replaceBoxCallAfterWrite name ty
  { s with
    lexicalFunctions := s.lexicalFunctions.erase name
    loopVectorBindings :=
      if ty.cls.hasKnownClass || ty.length == .zero || ty.length == .one then
        s.loopVectorBindings.erase name else s.loopVectorBindings
    lexicalDefinitions := s.lexicalDefinitions.erase name }

/-- What `insertParameterDefault` forgets about the name. -/
def forgetForDefault (s : Scope) (name : String) (ty : RType) : Scope :=
  let s := { s with functionAliases := s.functionAliases.erase name }
  let s := s.replaceBoxCallAfterWrite name ty
  { s with
    narrowedBindings := s.narrowedBindings.erase name
    scalarAssertedBindings := s.scalarAssertedBindings.erase name
    loopVectorBindings := s.loopVectorBindings.erase name
    lexicalDefinitions := s.lexicalDefinitions.erase name }

theorem blind_insertNarrowed (name : String) (ty : RType) : Blind (insertNarrowed · name ty) :=
  blind_bindingChange name ty (forgetForNarrowing · name ty)
    (fun s => { s with narrowedBindings := Insert.insert name s.narrowedBindings })
    (fun _ _ => rfl) (fun _ _ => rfl)

theorem blind_insertParameterDefault (name : String) (ty : RType) :
    Blind (insertParameterDefault · name ty) :=
  blind_bindingChange name ty (forgetForDefault · name ty)
    (fun s => { s with
      parameterBindings := Insert.insert name s.parameterBindings
      defaultParameterBindings := Insert.insert name s.defaultParameterBindings })
    (fun _ _ => rfl) (fun _ _ => rfl)

end Writing

/-! ## The shortcut -/

/-- The journaling insert would keep the name's type, and that is not the new one. -/
def InsertDrifts (s : Scope) (name : String) (ty : RType) : Prop :=
  ∃ old, s.get name = some old ∧ old.eq ty = true ∧ old ≠ ty ∧
    (s.assignmentUndo name).removedNothing = true

theorem clearOpsBinding_frame (s : Scope) (name rawName : String) :
    (s.clearOpsBinding rawName).get name = s.get name ∧
      (s.clearOpsBinding rawName).assignmentUndo name = s.assignmentUndo name := by
  simp only [clearOpsBinding, record]
  split
  · split <;> exact ⟨rfl, rfl⟩
  · exact ⟨rfl, rfl⟩

/-- Writing the type a name has is forgetting all else about it. -/
theorem assign_get {s : Scope} {name : String} {ty : RType} (h : s.get name = some ty) :
    s.assign name ty = s.forgetBinding name := by
  have hbindings : s.bindings.insert name ty = s.bindings := by
    refine Bindings.ext_get fun n => ?_
    rw [Bindings.get_insert]
    split
    · rename_i hn
      exact hn ▸ h.symm
    · rfl
  rw [assign, hbindings]
  rfl

theorem visible_insertWithAssignmentUndo {s : Scope} {name : String} {ty : RType}
    (h : ¬ s.InsertDrifts name ty) :
    (s.insertWithAssignmentUndo name ty).visible = ((s.clearOpsBinding name).assign name ty).visible
    := by
  obtain ⟨hget, hundo⟩ := clearOpsBinding_frame s name name
  simp only [insertWithAssignmentUndo]
  split
  · rename_i hskip
    rw [Bool.and_eq_true, hget, hundo] at hskip
    obtain ⟨old, hold, heq⟩ : ∃ old, s.get name = some old ∧ old.eq ty = true := by
      cases hty : s.get name <;> simp_all
    by_cases hsame : old = ty
    · rw [assign_get (hget.trans (hsame ▸ hold))]
    · exact absurd ⟨old, hold, heq, hsame, hskip.2⟩ h
  · rfl

/-- The plain insert of a value. -/
def plainInsert (s : Scope) (order : IterOrder) (name : String) (ty : RType) : Scope :=
  let s := s.clearKnownString name
  let s := s.retainConditionAliases order (· != semanticArgumentName name)
  ((s.noteEscapedSlot name).clearOpsBinding name).assign name ty

theorem visible_retainConditionAliases_congr (order order' : IterOrder) (keep : String → Bool)
    {s t : Scope} (h : s.visible = t.visible) :
    (s.retainConditionAliases order keep).visible = (t.retainConditionAliases order' keep).visible
    := by
  rw [visible_retainConditionAliases, visible_retainConditionAliases]
  have hretain : Blind fun s => { s with
      conditionAliases :=
        Table.retain s.conditionAliases fun name a => keep name && a.reads.all keep } :=
    fun _ _ => rfl
  exact hretain.congr h

theorem visible_retainScalarAssertions_congr (order order' : IterOrder) (keep : String → Bool)
    {s t : Scope} (h : s.visible = t.visible) :
    (s.retainScalarAssertions order keep).visible = (t.retainScalarAssertions order' keep).visible
    := by
  rw [visible_retainScalarAssertions, visible_retainScalarAssertions]
  have hretain : Blind fun s => { s with
      scalarAssertedBindings := s.scalarAssertedBindings.filter (keep ·) } :=
    fun _ _ => rfl
  exact hretain.congr h

theorem visible_plainInsert_congr (order order' : IterOrder) (name : String) (ty : RType)
    {s t : Scope} (h : s.visible = t.visible) :
    (s.plainInsert order name ty).visible = (t.plainInsert order' name ty).visible := by
  have hstring := (blind_clearKnownString name).congr h
  have hcond := visible_retainConditionAliases_congr order order' (· != semanticArgumentName name)
    hstring
  have hslot := (blind_noteEscapedSlot name).congr hcond
  exact (blind_assign name ty).congr ((blind_clearOpsBinding name).congr hslot)

theorem capture_of_visible {s t : Scope} (h : s.visible = t.visible) (n : String) :
    s.capture n = t.capture n :=
  read_of_visible (capture · n) (fun _ => rfl) h

/-- Nothing the insert does before the write touches what is recorded about a name. -/
theorem capture_beforeInsert (s : Scope) (order : IterOrder) (keep : String → Bool)
    (n name : String) :
    (((s.clearKnownString name).retainConditionAliases order keep).noteEscapedSlot name).capture n
      = s.capture n := by
  have hslot : ∀ t : Scope, (t.noteEscapedSlot name).capture n = t.capture n := by
    intro t
    unfold noteEscapedSlot
    split <;> rfl
  rw [hslot, capture_of_visible (visible_retainConditionAliases _ order keep) n]
  simp only [clearKnownString]
  split
  · rfl
  · exact capture_of_visible (visible_record _ _) n

theorem insertDrifts_of_capture {s t : Scope} {name : String} (ty : RType)
    (h : s.capture name = t.capture name) : s.InsertDrifts name ty ↔ t.InsertDrifts name ty := by
  have hget : s.get name = t.get name := congrArg BindingState.ty h
  have hundo : s.assignmentUndo name = t.assignmentUndo name :=
    congrArg (fun c : BindingState => AssignmentUndo.mk c.ty c.markers c.lexicalDefinition
      c.aliasTarget c.boxObject c.provenance) h
  rw [InsertDrifts, InsertDrifts, hget, hundo]

theorem visible_insertValue (order : IterOrder) {s : Scope} {name : String} {ty : RType}
    (h : ¬ s.InsertDrifts name ty) :
    (s.insertValue order name ty).visible = (s.plainInsert order name ty).visible := by
  simp only [insertValue, plainInsert]
  split
  · refine visible_insertWithAssignmentUndo fun hdrift => h ?_
    exact (insertDrifts_of_capture ty (capture_beforeInsert s order _ name name)).mp hdrift
  · rfl

theorem visible_insert (order order' : IterOrder) {s t : Scope} {name : String} {ty : RType}
    (hst : s.visible = t.visible) (h : ¬ s.InsertDrifts name ty) :
    (s.insert order name ty).visible = (t.insert order' name ty).visible := by
  have ht := mt (insertDrifts_of_capture ty (capture_of_visible hst name)).mpr h
  have hvalue : (s.insertValue order name ty).visible = (t.insertValue order' name ty).visible := by
    rw [visible_insertValue order h, visible_insertValue order' ht]
    exact visible_plainInsert_congr order order' name ty hst
  have hbox : s.boxCallAfterWrite name ty = t.boxCallAfterWrite name ty :=
    read_of_visible (boxCallAfterWrite · name ty) (fun _ => rfl) hst
  simp only [insert, hbox]
  split
  · exact (blind_setBoxObject name _).congr hvalue
  · exact hvalue

theorem get_plainInsert (s : Scope) (order : IterOrder) (name : String) (ty : RType) :
    (s.plainInsert order name ty).get name = some ty := by
  simp [plainInsert, assign, get]

/-- The shortcut leaves the name the type it had. -/
theorem get_insert_of_drifts (order : IterOrder) {s : Scope} {name : String} {ty : RType}
    (hs : 0 < s.journal.depth) (h : s.InsertDrifts name ty) :
    (s.insert order name ty).get name = s.get name := by
  obtain ⟨old, hold, heq, hne, hnothing⟩ := h
  have hbox : s.boxObjects.lookup name = none := by
    simp_all [AssignmentUndo.removedNothing, assignmentUndo]
  have hcall : s.boxCallAfterWrite name ty = false := by simp [boxCallAfterWrite, hbox]
  simp only [insert, hcall, Bool.false_eq_true, if_false, insertValue]
  have hcapture := capture_beforeInsert s order (· != semanticArgumentName name) name name
  set x := ((s.clearKnownString name).retainConditionAliases order
    (· != semanticArgumentName name)).noteEscapedSlot name
  have hx : 0 < x.journal.depth := by
    have hstring := recorded_clearKnownString hs name
    have hcond := hstring.trans (recorded_retainConditionAliases (hstring.pos hs) order
      (· != semanticArgumentName name))
    exact (hcond.trans (recorded_noteEscapedSlot _ name)).pos hs
  obtain ⟨old', hold', heq', -, hnothing'⟩ :=
    (insertDrifts_of_capture ty hcapture).mpr ⟨old, hold, heq, hne, hnothing⟩
  obtain ⟨hget, hundo⟩ := clearOpsBinding_frame x name name
  have hskip : (((x.clearOpsBinding name).get name).elim false (·.eq ty) &&
      ((x.clearOpsBinding name).assignmentUndo name).removedNothing) = true := by
    rw [hget, hundo, hold']
    simp [heq', hnothing']
  have hsame : x.get name = s.get name := congrArg BindingState.ty hcapture
  rw [if_pos hx, insertWithAssignmentUndo, if_pos hskip]
  exact hget.trans hsame

end Scope

/-! ## Steps and runs -/

namespace Step

/-- The step is an insert that takes the shortcut over a type it should replace. -/
def Drifts (s : Scope) : Step → Prop
  | insert name ty | insertParameter name ty => s.InsertDrifts name ty
  | _ => False

open Scope in
/-- What a step does to the tables does not depend on the journal, unless it is an
insert that drifts. -/
theorem visible_apply (st : Step) (order order' : IterOrder) {s t : Scope}
    (h : s.visible = t.visible) (hdrift : ¬ st.Drifts s) :
    (st.apply order s).visible = (st.apply order' t).visible := by
  cases st with
  | insert name ty => exact visible_insert order order' h hdrift
  | insertNarrowed name ty => exact (blind_insertNarrowed name ty).congr h
  | insertParameter name ty =>
    exact (blind_markParameter name).congr (visible_insert order order' h hdrift)
  | insertParameterDefault name ty => exact (blind_insertParameterDefault name ty).congr h
  | replaceBindingOnly name ty => exact (blind_replaceBindingOnly name ty).congr h
  | markListOrigin name => exact (blind_markListOrigin name).congr h
  | markScalarAsserted name => exact (blind_markScalarAsserted name).congr h
  | clearScalarAsserted name => exact (blind_clearScalarAsserted name).congr h
  | retainScalarAssertions keep => exact visible_retainScalarAssertions_congr order order' keep h
  | invalidateScalarAssertions =>
    exact visible_retainScalarAssertions_congr order order' _
      (Blind.congr (m := fun s => { s with uncertainty := { s.uncertainty with
        dynamicBindings := true } }) (fun _ _ => rfl) h)
  | markLoopVector name => exact (blind_markLoopVector name).congr h
  | clearLoopVector name => exact (blind_clearLoopVector name).congr h
  | setFunctionAlias name target => exact (blind_setFunctionAlias name target).congr h
  | setBoxObject name object => exact (blind_setBoxObject name object).congr h
  | setBoxAttachment name callable => exact (blind_setBoxAttachment name callable).congr h
  | applyBoxProvenance joined => exact (blind_applyBoxProvenance joined).congr h
  | markLexicalFunction name definition =>
    exact (blind_markLexicalFunction name definition).congr h
  | markBoundFunctionDefinition name definition =>
    exact (blind_markBoundFunctionDefinition name definition).congr h
  | markLexicalCallable name => exact (blind_markLexicalCallable name).congr h
  | forgetLexicalDefinition name => exact (blind_forgetLexicalDefinition name).congr h
  | invalidateUnknownEffects => exact visible_invalidateUnknownEffects order order' h
  | invalidateDataMaskEnv =>
    exact Blind.congr (m := Scope.invalidateDataMaskEnv) (fun _ _ => rfl) h
  | markDataMaskColumn name =>
    exact Blind.congr (m := (Scope.markDataMaskColumn · name)) (fun _ _ => rfl) h
  | invalidateOpsEnvironment => exact blind_invalidateOpsEnvironment.congr h
  | clearOpsBinding rawName => exact (blind_clearOpsBinding rawName).congr h
  | setLiteralFunction name function => exact (blind_setLiteralFunction name function).congr h
  | markPlainOpsVector name => exact (blind_markPlainOpsVector name).congr h
  | clearOpsFacts => exact blind_clearOpsFacts.congr h
  | setKnownString name value => exact (blind_setKnownString name value).congr h
  | clearKnownString name => exact (blind_clearKnownString name).congr h
  | clearKnownStrings => exact blind_clearKnownStrings.congr h
  | setConditionAlias name cond => exact (blind_setConditionAlias name cond).congr h
  | retainConditionAliases keep => exact visible_retainConditionAliases_congr order order' keep h
  | clearConditionAliases => exact blind_clearConditionAliases.congr h
  | invalidateLiteralValues => exact blind_invalidateLiteralValues.congr h
  | invalidateLiteralValuesForDispatch value =>
    exact (blind_invalidateLiteralValuesForDispatch value).congr h
  | startReferenceScope owner => exact (blind_startReferenceScope owner).congr h
  | installReferenceDefinition name definition typeKnown =>
    exact (blind_installReferenceDefinition name definition typeKnown).congr h
  | finishReferenceRead name span => exact (blind_finishReferenceRead name span).congr h
  | writeFlags flags => exact Blind.congr (m := (Scope.writeFlags · flags)) (fun _ _ => rfl) h
  | noteBlockWrite name =>
    exact Blind.congr (m := fun s => { s with
      possibleBlockWrites := Insert.insert name s.possibleBlockWrites }) (fun _ _ => rfl) h

end Step

/-- The same calls one after another, each with the order its loops run in. -/
def runSteps (steps : List (IterOrder × Step)) (s : Scope) : Scope :=
  steps.foldl (fun s call => call.2.apply call.1 s) s

/-- No insert of the run drifts where it stands. -/
def NoDrift : List (IterOrder × Step) → Scope → Prop
  | [], _ => True
  | (order, st) :: rest, s => ¬ st.Drifts s ∧ NoDrift rest (st.apply order s)

theorem visible_runSteps {plain journaled : List (IterOrder × Step)}
    (hsteps : plain.map Prod.snd = journaled.map Prod.snd) {s t : Scope}
    (h : s.visible = t.visible) (hdrift : NoDrift plain s) :
    (runSteps plain s).visible = (runSteps journaled t).visible := by
  induction plain generalizing journaled s t with
  | nil =>
    obtain rfl := List.map_eq_nil_iff.mp hsteps.symm
    exact h
  | cons call plain ih =>
    obtain ⟨order, st⟩ := call
    obtain ⟨⟨order', st'⟩, journaled, rfl, hhead, htail⟩ := List.map_eq_cons_iff.mp hsteps.symm
    obtain rfl : st' = st := hhead
    exact ih htail.symm (st'.visible_apply order order' h hdrift.1) hdrift.2

theorem NoDrift.take {steps : List (IterOrder × Step)} {s : Scope} (h : NoDrift steps s)
    (k : Nat) : NoDrift (steps.take k) s := by
  induction steps generalizing s k with
  | nil => simpa using h
  | cons call steps ih =>
    cases k with
    | zero => trivial
    | succ k => exact ⟨h.1, ih h.2 k⟩

/-- At every point of a run without a drifting insert, the tables are the same whether
it runs outside any snapshot or inside one. -/
theorem plain_eq_journaled {plain journaled : List (IterOrder × Step)}
    (hsteps : plain.map Prod.snd = journaled.map Prod.snd) {s : Scope} (hdrift : NoDrift plain s) (k : Nat) :
    (runSteps (plain.take k) s).visible =
      (runSteps (journaled.take k) s.beginSnapshot.1).visible :=
  visible_runSteps (by rw [List.map_take, hsteps, List.map_take]) rfl (hdrift.take k)

section Drift

/-- The result of an unmodeled S3 method, known by its storage alone. -/
def proxiedDouble : RType := (RType.scalar .double).withClass .asStorageProxy

theorem proxiedDouble_ne : proxiedDouble ≠ RType.scalar .double :=
  fun h => absurd (congrArg (·.cls.storageProxy) h) (by decide)

/-- `x` holds such a result, and nothing else is on record. -/
def proxiedScope : Scope := { Scope.default with bindings := Bindings.empty.insert "x" proxiedDouble }

def assignAndNarrow : List (IterOrder × Step) :=
  [(.sorted, .insert "y" (RType.scalar .double)),
    (.sorted, .insertNarrowed "x" (RType.scalar .double)), (.sorted, .replaceBindingOnly "x" none)]

theorem noDrift_assignAndNarrow : NoDrift assignAndNarrow proxiedScope := by
  refine ⟨fun hdrift => ?_, id, id, trivial⟩
  obtain ⟨old, hold, -⟩ := hdrift
  have hnone : proxiedScope.get "y" = none := rfl
  simp [hnone] at hold

theorem plain_eq_journaled_assignAndNarrow :
    (runSteps (assignAndNarrow.take 3) proxiedScope).visible =
      (runSteps (assignAndNarrow.take 3) proxiedScope.beginSnapshot.1).visible :=
  plain_eq_journaled rfl noDrift_assignAndNarrow 3

/-- Writing a plain double over the proxied one replaces it outside a snapshot and
keeps it inside one. -/
theorem insert_drifts_proxied :
    ¬ ∀ (run : List (IterOrder × Step)) (s : Scope), s.journal.depth = 0 →
      (runSteps run s).visible = (runSteps run s.beginSnapshot.1).visible := by
  intro h
  have hrun := h [(.sorted, .insert "x" (RType.scalar .double))] proxiedScope rfl
  have hget := congrArg (Scope.get · "x") hrun
  have hplain : (proxiedScope.insert .sorted "x" (RType.scalar .double)).get "x" =
      some (RType.scalar .double) := by
    have hcall : proxiedScope.boxCallAfterWrite "x" (RType.scalar .double) = false := by decide
    have hstring : proxiedScope.clearKnownString "x" = proxiedScope := rfl
    rw [Scope.insert, hcall, if_neg nofun, Scope.insertValue, hstring,
      Scope.retainConditionAliases_of_empty .sorted _ rfl, if_neg (by decide)]
    simp [Scope.assign, Scope.get]
  have hkept : (proxiedScope.beginSnapshot.1.insert .sorted "x" (RType.scalar .double)).get "x" =
      some proxiedDouble :=
    Scope.get_insert_of_drifts .sorted (by decide)
      ⟨proxiedDouble, rfl, by decide, proxiedDouble_ne, by decide⟩
  exact proxiedDouble_ne (Option.some.inj ((hplain.symm.trans hget).trans hkept)).symm

end Drift

end Ry
