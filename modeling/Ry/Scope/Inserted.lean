import Ry.Scope.PerName

/-! # An insert into any scope

`Rewrites` says what a write makes of a scope that records nothing about strings,
conditions and operators, which is what a merge of two arms writes into.  Elsewhere an
insert drops some of those facts, too.  `Assigned` says it of every scope.
-/

namespace Ry

namespace Scope

/-- The step from `s` to `s'` assigns `ty` to `name`.  No condition alias that is `name`
or reads it is left, and of the flags only the one for escaped slot names may change. -/
structure Assigned (s s' : Scope) (name : String) (ty : RType) : Prop where
  capture : ∃ journaling, ∀ n, s'.capture n =
    if n = name then (s.capture n).afterInsert journaling ty else s.capture n
  aliases : s'.conditionAliases = Table.retain s.conditionAliases fun n a =>
    n != semanticArgumentName name && a.reads.all (· != semanticArgumentName name)
  flags : { s'.uncertainty with escapedSlotNames := false } =
    { s.uncertainty with escapedSlotNames := false }

section BeforeWrite

variable (s : Scope) (name : String)

theorem capture_clearOpsBinding (n : String) : (s.clearOpsBinding name).capture n = s.capture n := by
  simp only [clearOpsBinding]
  split
  · exact capture_of_visible (visible_record _ _) n
  · rfl

theorem conditionAliases_clearOpsBinding :
    (s.clearOpsBinding name).conditionAliases = s.conditionAliases := by
  simp only [clearOpsBinding]
  split
  · exact (read_of_visible conditionAliases (fun _ => rfl) (visible_record _ _)).trans rfl
  · rfl

theorem uncertainty_clearOpsBinding : (s.clearOpsBinding name).uncertainty = s.uncertainty := by
  simp only [clearOpsBinding]
  split
  · exact (read_of_visible uncertainty (fun _ => rfl) (visible_record _ _)).trans rfl
  · rfl

theorem conditionAliases_clearKnownString :
    (s.clearKnownString name).conditionAliases = s.conditionAliases := by
  simp only [clearKnownString]
  split
  · rfl
  · exact (read_of_visible conditionAliases (fun _ => rfl) (visible_record _ _)).trans rfl

theorem uncertainty_clearKnownString : (s.clearKnownString name).uncertainty = s.uncertainty := by
  simp only [clearKnownString]
  split
  · rfl
  · exact (read_of_visible uncertainty (fun _ => rfl) (visible_record _ _)).trans rfl

variable (order : IterOrder)

/-- What `insertValue` does before it writes. -/
def beforeWrite : Scope :=
  ((s.clearKnownString name).retainConditionAliases order
    (· != semanticArgumentName name)).noteEscapedSlot name

theorem conditionAliases_beforeWrite :
    (s.beforeWrite name order).conditionAliases = Table.retain s.conditionAliases fun n a =>
      n != semanticArgumentName name && a.reads.all (· != semanticArgumentName name) := by
  have hslot : ∀ t : Scope, (t.noteEscapedSlot name).conditionAliases = t.conditionAliases := by
    intro t
    unfold noteEscapedSlot
    split <;> rfl
  rw [beforeWrite, hslot, read_of_visible conditionAliases (fun _ => rfl)
    (visible_retainConditionAliases _ order _)]
  simp only [conditionAliases_clearKnownString]

theorem flags_beforeWrite :
    { (s.beforeWrite name order).uncertainty with escapedSlotNames := false } =
      { s.uncertainty with escapedSlotNames := false } := by
  have hslot : ∀ t : Scope, { (t.noteEscapedSlot name).uncertainty with escapedSlotNames := false }
      = { t.uncertainty with escapedSlotNames := false } := by
    intro t
    unfold noteEscapedSlot
    split <;> rfl
  rw [beforeWrite, hslot, read_of_visible uncertainty (fun _ => rfl)
    (visible_retainConditionAliases _ order _)]
  exact congrArg (fun u : Uncertainty => { u with escapedSlotNames := false })
    (uncertainty_clearKnownString s name)

end BeforeWrite

/-- The write itself: what it leaves of the name, and nothing beside the names. -/
theorem write_beforeWrite (s : Scope) (order : IterOrder) (name : String) (ty : RType) :
    ∃ journaling, (∀ n, (s.insertValue order name ty).capture n =
        if n = name then { BindingState.default with
          ty := if journaling && (s.capture n).keepsType ty then s.get n else some ty }
        else s.capture n) ∧
      (s.insertValue order name ty).rest = ((s.beforeWrite name order).clearOpsBinding name).rest
    := by
  have hcapture : ∀ n, ((s.beforeWrite name order).clearOpsBinding name).capture n = s.capture n :=
    fun n => (capture_clearOpsBinding _ name n).trans (capture_beforeInsert s order _ n name)
  set x := (s.beforeWrite name order).clearOpsBinding name with hx
  have hget : x.get name = s.get name := congrArg BindingState.ty (hcapture name)
  have hassign := rewrites_assign x name ty
  have hwrite : s.insertValue order name ty =
      if 0 < (s.beforeWrite name order).journal.depth then
        (s.beforeWrite name order).insertWithAssignmentUndo name ty
      else x.assign name ty := rfl
  rw [hwrite]
  split
  · refine ⟨true, ?_⟩
    simp only [insertWithAssignmentUndo, ← hx]
    have hkeeps : ((x.get name).elim false (·.eq ty) && (x.assignmentUndo name).removedNothing) =
        (s.capture name).keepsType ty := by
      rw [← hcapture name, keepsType_capture]
    rw [hkeeps]
    split
    · rename_i hkeep
      have hforget := rewrites_forgetBinding x name
      refine ⟨fun n => ?_, hforget.rest.trans (raiseEscaped_false _)⟩
      rw [hforget.capture n, hcapture n, hget]
      split
      · rename_i hn
        subst hn
        rw [hkeep, Bool.true_and, if_pos rfl]
      · rfl
    · rename_i hkeep
      refine ⟨fun n => ?_, hassign.rest.trans (raiseEscaped_false _)⟩
      have hpush : ∀ u, ((x.assign name ty).pushUndo u).capture n = (x.assign name ty).capture n :=
        fun _ => rfl
      rw [hpush, hassign.capture n, hcapture n]
      split
      · rename_i hn
        subst hn
        rw [Bool.true_and, if_neg hkeep]
      · rfl
  · refine ⟨false, fun n => ?_, hassign.rest.trans (raiseEscaped_false _)⟩
    rw [hassign.capture n, hcapture n]
    simp

theorem assigned_insert (s : Scope) (order : IterOrder) (name : String) (ty : RType) :
    Assigned s (s.insert order name ty) name ty := by
  obtain ⟨journaling, hcapture, hrest⟩ := write_beforeWrite s order name ty
  have hbox : s.boxCallAfterWrite name ty =
      (ty.mode != .function && (s.capture name).boxObject.elim false BoxObject.isCall) := rfl
  obtain ⟨hinsert, hrest⟩ : (∀ n, (s.insert order name ty).capture n =
      if n = name then (s.capture n).afterInsert journaling ty else s.capture n) ∧
      (s.insert order name ty).rest = ((s.beforeWrite name order).clearOpsBinding name).rest := by
    simp only [insert, hbox]
    split
    · rename_i hcall
      have hset := rewrites_setBoxObject (s.insertValue order name ty) name .opaqueCall
      refine ⟨fun n => ?_, (hset.rest.trans (raiseEscaped_false _)).trans hrest⟩
      rw [hset.capture n, hcapture name, hcapture n]
      split
      · rename_i hn
        subst hn
        simp only [if_true, BindingState.afterInsert, BindingState.boxAfterWrite, hcall]
        rfl
      · rfl
    · rename_i hcall
      refine ⟨fun n => ?_, hrest⟩
      rw [hcapture n]
      split
      · rename_i hn
        subst hn
        simp only [BindingState.afterInsert, BindingState.boxAfterWrite, hcall]
        rfl
      · rfl
  refine ⟨⟨journaling, hinsert⟩, ?_, ?_⟩
  · have haliases : (s.insert order name ty).rest.conditionAliases = _ :=
      congrArg conditionAliases hrest
    exact haliases.trans ((conditionAliases_clearOpsBinding _ name).trans
      (conditionAliases_beforeWrite s name order))
  · have hflags : (s.insert order name ty).rest.uncertainty = _ := congrArg uncertainty hrest
    have hops : (s.insert order name ty).uncertainty = (s.beforeWrite name order).uncertainty :=
      hflags.trans (uncertainty_clearOpsBinding _ name)
    rw [hops]
    exact flags_beforeWrite s name order

namespace Assigned

variable {s s' : Scope} {name : String} {ty : RType}

theorem capture_of_ne (h : Assigned s s' name ty) {n : String} (hn : n ≠ name) :
    s'.capture n = s.capture n := by
  obtain ⟨_, hcapture⟩ := h.capture
  rw [hcapture n, if_neg hn]

theorem capture_self (h : Assigned s s' name ty) :
    ∃ st journaling, s'.capture name = BindingState.afterInsert journaling st ty := by
  obtain ⟨journaling, hcapture⟩ := h.capture
  exact ⟨s.capture name, journaling, by rw [hcapture name, if_pos rfl]⟩

end Assigned

/-! ## Inserting one name after another -/

section Loop

variable (order : IterOrder) (ty : String → RType)

def insertAll (names : List String) (s : Scope) : Scope :=
  names.foldl (fun s name => s.insert order name (ty name)) s

/-- A name the loop visits is as its last insert left it; the others are as they were. -/
theorem capture_insertAll (names : List String) (s : Scope) (n : String) :
    (n ∉ names → (insertAll order ty names s).capture n = s.capture n) ∧
      (n ∈ names → ∃ st journaling,
        (insertAll order ty names s).capture n = BindingState.afterInsert journaling st (ty n)) := by
  induction names generalizing s with
  | nil => exact ⟨fun _ => rfl, fun h => absurd h List.not_mem_nil⟩
  | cons name names ih =>
    have hstep := assigned_insert s order name (ty name)
    have hrun : insertAll order ty (name :: names) s =
        insertAll order ty names (s.insert order name (ty name)) := rfl
    obtain ⟨hout, hin⟩ := ih (s.insert order name (ty name))
    rw [hrun]
    refine ⟨fun hn => ?_, fun hn => ?_⟩
    · rw [List.mem_cons, not_or] at hn
      rw [hout hn.2, hstep.capture_of_ne hn.1]
    · by_cases hlater : n ∈ names
      · exact hin hlater
      · obtain rfl : n = name := (List.mem_cons.mp hn).resolve_right hlater
        rw [hout hlater]
        exact hstep.capture_self

theorem conditionAliases_insertAll (names : List String) (s : Scope) {n : String}
    {a : ConditionAlias} (h : (insertAll order ty names s).conditionAliases.lookup n = some a) :
    s.conditionAliases.lookup n = some a ∧ ∀ name ∈ names,
      n ≠ semanticArgumentName name ∧ semanticArgumentName name ∉ a.reads := by
  induction names generalizing s with
  | nil => exact ⟨h, fun _ hname => absurd hname List.not_mem_nil⟩
  | cons name names ih =>
    obtain ⟨hlookup, hrest⟩ := ih (s.insert order name (ty name)) h
    rw [(assigned_insert s order name (ty name)).aliases, Table.lookup_retain] at hlookup
    obtain ⟨hold, hkeep⟩ := Option.filter_eq_some_iff.mp hlookup
    rw [Bool.and_eq_true, bne_iff_ne, List.all_eq_true] at hkeep
    refine ⟨hold, fun k hk => ?_⟩
    rcases List.mem_cons.mp hk with rfl | hk
    · exact ⟨hkeep.1, fun hread => by simpa using hkeep.2 _ hread⟩
    · exact hrest k hk

theorem flags_insertAll (names : List String) (s : Scope) :
    { (insertAll order ty names s).uncertainty with escapedSlotNames := false } =
      { s.uncertainty with escapedSlotNames := false } := by
  induction names generalizing s with
  | nil => rfl
  | cons name names ih =>
    exact (ih (s.insert order name (ty name))).trans (assigned_insert s order name (ty name)).flags

end Loop

end Scope

end Ry
