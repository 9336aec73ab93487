import Ry.Infer.JournalMerge

/-! # The arms of an `if`, with ifs inside them

An `Arm` is what the walk of an arm's statements does to the scope: mutator calls, and
whole `if`s.  Everything the arm does, the merge of a nested `if` included, is on record
(`Arm.recorded`), so a finished arm's delta is faithful and its scope restored
(`walkArms_base`, `walkArms_faithful`).
-/

namespace Ry

inductive Arm
  | done
  | step (order : IterOrder) (st : Step) (rest : Arm)
  | cond (order : IterOrder) (h : IfHeader) (thenArm elseArm rest : Arm)

/-- Run the arm on a scope. -/
def Arm.run : Arm → Scope → Scope
  | done, s => s
  | step order st rest, s => rest.run (st.apply order s)
  | cond order h thenArm elseArm rest, s =>
    rest.run (walkJournalIf order h thenArm.run elseArm.run s)

namespace Scope

/-- One recorded change after another. -/
theorem Recorded.andThen {a b c : Scope} (hab : Recorded a b) (ha : 0 < a.journal.depth)
    (hbc : 0 < b.journal.depth → Recorded b c) : Recorded a c :=
  hab.trans (hbc (hab.pos ha))

/-- A change of the flags alone. -/
theorem recorded_flags (s : Scope) (flags : FrameFlags) : Recorded s (s.writeFlags flags) :=
  .of_agree rfl (.of_eq (fun _ => rfl) rfl rfl)

/-! ## The condition's facts -/

theorem recorded_narrowStep {s : Scope} {r : Scope × List String} (h : NarrowStep s r)
    (hs : 0 < s.journal.depth) : Recorded s r.1 := by
  cases h with
  | skip => exact .refl s
  | narrow var ty => exact recorded_insertNarrowed hs var ty
  | keep var ty _ => exact recorded_insertNarrowed hs var ty
  | dead => exact .of_agree rfl (.of_eq (fun _ => rfl) rfl rfl)
  | scalar var => exact recorded_clearLoopVector hs var

theorem recorded_narrowRun {s : Scope} {r : Scope × List String} (h : NarrowRun s r)
    (hs : 0 < s.journal.depth) : Recorded s r.1 := by
  induction h with
  | done s => exact .refl s
  | step hstep _ ih => exact (recorded_narrowStep hstep hs).andThen hs ih

theorem capture_cleared (s : Scope) (rawName n : String) :
    (s.clearOpsBinding rawName).capture n = s.capture n := by
  simp only [clearOpsBinding]
  split
  · exact capture_of_visible (visible_record _ _) n
  · rfl

theorem capture_noteEscapedSlot (s : Scope) (name n : String) :
    (s.noteEscapedSlot name).capture n = s.capture n := by
  unfold noteEscapedSlot
  split <;> rfl

/-- How the merge will view a name after a narrowing write. -/
theorem view_insertNarrowed {s : Scope} (hs : 0 < s.journal.depth) (name : String) (ty : RType)
    (n : String) :
    ((s.insertNarrowed name ty).capture n).view =
      if n = name then { (s.capture n).view with ty := some ty, narrowed := true }
      else (s.capture n).view := by
  have hcapture : (s.insertNarrowed name ty).capture n =
      ((s.noteEscapedSlot name).narrowedCore name ty).capture n := by
    rw [insertNarrowed_eq hs, capture_cleared]
  have hget : ((s.noteEscapedSlot name).narrowedCore name ty).get n =
      if n = name then some ty else (s.noteEscapedSlot name).get n := Bindings.get_insert _ _ _ _
  have hmark : marked ((s.noteEscapedSlot name).narrowedCore name ty).narrowedBindings n =
      if n = name then true else marked (s.noteEscapedSlot name).narrowedBindings n :=
    marked_insert _ n name
  rw [hcapture, ← capture_noteEscapedSlot s name n]
  refine Eq.trans (congrArg₂ (fun ty narrowed => BindingView.mk ty narrowed
    (marked (s.noteEscapedSlot name).listOriginBindings n)
    (marked (s.noteEscapedSlot name).defaultParameterBindings n)) hget hmark) ?_
  split <;> rfl

/-- After a condition's facts, a name is as the merge saw it or is a reported narrowing. -/
structure OnlyNarrows (s s' : Scope) (names : List String) : Prop where
  depth : s'.journal.depth = s.journal.depth
  view : ∀ n, (s'.capture n).view = (s.capture n).view ∨
    ∃ ty, (s'.capture n).view = { (s.capture n).view with ty := some ty, narrowed := true } ∧
      (n ∈ names ∨ s.get n = some ty)

theorem onlyNarrows_step {s : Scope} {r : Scope × List String} (h : NarrowStep s r)
    (hs : 0 < s.journal.depth) : OnlyNarrows s r.1 r.2 where
  depth := (recorded_narrowStep h hs).depth
  view n := by
    cases h with
    | skip => exact .inl rfl
    | narrow var ty =>
      have hview := view_insertNarrowed hs var ty n
      by_cases hn : n = var
      · exact .inr ⟨ty, hview.trans (if_pos hn), .inl (by simp [narrowTo, hn])⟩
      · exact .inl (hview.trans (if_neg hn))
    | keep var ty hvar =>
      have hview := view_insertNarrowed hs var ty n
      by_cases hn : n = var
      · exact .inr ⟨ty, hview.trans (if_pos hn), .inr (hn ▸ hvar)⟩
      · exact .inl (hview.trans (if_neg hn))
    | dead => exact .inl rfl
    | scalar var =>
      refine .inl ?_
      rw [(rewrites_clearLoopVector s var).capture n]
      split
      · rename_i hn
        rw [hn]
        rfl
      · rfl

theorem onlyNarrows_run {s : Scope} {r : Scope × List String} (h : NarrowRun s r)
    (hs : 0 < s.journal.depth) : OnlyNarrows s r.1 r.2 := by
  induction h with
  | done s => exact ⟨rfl, fun _ => .inl rfl⟩
  | @step s r r' hstep hrun ih =>
    have hfirst := onlyNarrows_step hstep hs
    have hrest := ih ((recorded_narrowStep hstep hs).pos hs)
    refine ⟨hrest.depth.trans hfirst.depth, fun n => ?_⟩
    rcases hfirst.view n with hsame | ⟨ty, hty, hreported⟩
    · have hget : r.1.get n = s.get n := congrArg BindingView.ty hsame
      rcases hrest.view n with hsame' | ⟨ty, hty, hreported⟩
      · exact .inl (hsame'.trans hsame)
      · rw [hsame] at hty
        exact .inr ⟨ty, hty, hreported.imp (List.mem_append_right _) (hget ▸ ·)⟩
    · have hget : r.1.get n = some ty := congrArg BindingView.ty hty
      rcases hrest.view n with hsame' | ⟨ty', hty', hreported'⟩
      · exact .inr ⟨ty, hsame'.trans hty, hreported.imp_left (List.mem_append_left _)⟩
      · rw [hty] at hty'
        refine .inr ⟨ty', hty', ?_⟩
        rcases hreported' with hmem | hkept
        · exact .inl (List.mem_append_right _ hmem)
        · obtain rfl : ty = ty' := Option.some.inj (hget.symm.trans hkept)
          exact hreported.imp_left (List.mem_append_left _)

theorem recorded_enterArm (h : IfHeader) (branch : NarrowingBranch) {s : Scope}
    (hs : 0 < s.journal.depth) : Recorded s (s.enterArm h branch).1 := by
  have hfacts := recorded_narrowRun (narrowRun_applyNarrowingBranch h.narrowing branch s) hs
  refine hfacts.trans ?_
  simp only [enterArm, applyFailedNamespaceBranch]
  split
  · exact .refl _
  · split <;> exact .of_agree rfl (.of_eq (fun _ => rfl) rfl rfl)

theorem recorded_insertMerged (order : IterOrder) {s : Scope} (hs : 0 < s.journal.depth)
    (name : String) (write : Option (RType × Bool)) :
    Recorded s (s.insertMerged order name write) := by
  match write with
  | none => exact .refl s
  | some (ty, false) => exact recorded_insert hs order name ty
  | some (ty, true) =>
    exact (recorded_insert hs order name ty).andThen hs fun h => recorded_markListOrigin h name

theorem recorded_insertFact (order : IterOrder) {s : Scope} (hs : 0 < s.journal.depth)
    (name : String) (fact : Option RType × Bool) : Recorded s (s.insertFact order name fact) := by
  match fact with
  | (none, _) => exact .refl s
  | (some ty, true) => exact recorded_insertParameterDefault hs name ty
  | (some ty, false) => exact recorded_insert hs order name ty

end Scope

/-! ## The merge is on record -/

namespace Deltas

open Scope

variable (d : Deltas) (c : IfStatement) (order : IterOrder) {s : Scope}
  (hs : 0 < s.journal.depth)
include hs

theorem recorded_forgetLexical (name : String) : Recorded s (d.forgetLexical c s name) := by
  simp only [forgetLexical]
  split
  · exact recorded_forgetLexicalDefinition hs name
  · exact .refl s

omit hs in
theorem recorded_joinNamespaces : Recorded s (d.joinNamespaces c s) :=
  .of_agree rfl (.of_eq (fun _ => rfl) rfl rfl)

theorem recorded_loseScalars : Recorded s (d.loseScalars c order s) :=
  .foldl (fun _ name h => recorded_clearScalarAsserted h name) _ hs

theorem recorded_settle : Recorded s (d.settle c order s) := by
  have hforget : Recorded s (d.forgetLexicals c order s) :=
    .foldl (fun _ name h => recorded_forgetLexical d c h name) _ hs
  have hlose := hforget.andThen hs (recorded_loseScalars d c order)
  exact hlose.trans (recorded_joinNamespaces d c)

omit hs in
theorem recorded_joinUncertainty (u : Uncertainty) :
    Recorded s { s with uncertainty := s.uncertainty.or u } :=
  .of_agree rfl (.of_eq (fun _ => rfl) rfl rfl)

theorem recorded_dropFacts : Recorded s (d.dropFacts c s) := by
  have htables : Recorded s s.clearTables :=
    ((recorded_clearOpsFacts hs).andThen hs recorded_clearKnownStrings).andThen hs
      recorded_clearConditionAliases
  exact htables.trans (recorded_joinUncertainty _)

theorem recorded_mergeBinding (name : String) : Recorded s (d.mergeBinding c order s name) := by
  simp only [mergeBinding]
  split
  · exact .refl s
  · exact recorded_insertMerged order hs name _

omit hs in
theorem recorded_maskBindings : Recorded s (d.maskBindings c s) := by
  simp only [maskBindings]
  split
  · exact .of_agree rfl (.of_eq (fun _ => rfl) rfl rfl)
  · exact .refl s

theorem recorded_mergeBindings : Recorded s (d.mergeBindings c order s) := by
  have hmerge := (recorded_dropFacts d c hs).andThen hs fun h =>
    .foldl (fun _ name h => recorded_mergeBinding d c order h name) (d.changedNames order) h
  exact hmerge.trans (recorded_maskBindings d c)

theorem recorded_installFacts (captured : Scope) :
    Recorded s (d.installFacts c order captured s) := by
  have hfacts : Recorded s ((d.continuationFacts c order captured).foldl
      (fun s fact => s.insertFact order fact.1 fact.2) s) :=
    .foldl (fun _ fact h => recorded_insertFact order h fact.1 fact.2) _ hs
  exact hfacts.andThen hs fun h =>
    .foldl (fun _ fact h => recorded_insertNarrowed h fact.1 fact.2) _ h

theorem recorded_setLoopVectors (captured : Scope) :
    Recorded s (d.setLoopVectors c order captured s) := by
  have hclear : Recorded s ((order.list (s.loopVectorBindings \ d.loopVectorsAfter c captured)).foldl
      clearLoopVector s) :=
    .foldl (fun _ name h => recorded_clearLoopVector h name) _ hs
  exact hclear.andThen hs fun h => .foldl (fun _ name h => recorded_markLoopVector h name) _ h

omit hs in
theorem recorded_closePath : Recorded s (d.closePath c s) := by
  unfold closePath
  split
  · exact .of_agree rfl (.of_eq (fun _ => rfl) rfl rfl)
  · exact .refl s

theorem recorded_merge : Recorded s (d.merge c order s) := by
  have hsettle := recorded_settle d c order hs
  have hmerge := hsettle.andThen hs (recorded_mergeBindings d c order)
  have hfacts := hmerge.andThen hs fun h =>
    recorded_installFacts d c order h (d.settle c order s)
  have hvectors := hfacts.andThen hs fun h =>
    recorded_setLoopVectors d c order h (d.settle c order s)
  have hboxes := hvectors.andThen hs fun h => recorded_applyBoxProvenance h
    (joinBoxProvenance order (d.forgetLexicals c order s)
      (d.boxPaths c (d.forgetLexicals c order s)))
  exact hboxes.trans (recorded_closePath d c)

end Deltas

/-! ## A finished arm -/

namespace Scope

/-- The scope an arm ends in, under its snapshot. -/
def armEnd (s : Scope) (h : IfHeader) (branch : NarrowingBranch) (arm : Scope → Scope) : Scope :=
  arm (s.beginSnapshot.1.enterArm h branch).1

/-- The walk records what it changes. -/
def Journaled (arm : Scope → Scope) : Prop :=
  ∀ s : Scope, 0 < s.journal.depth → Recorded s (arm s)

section WalkArm

variable {arm : Scope → Scope} (harm : Journaled arm) (s : Scope) (h : IfHeader)
  (branch : NarrowingBranch)
include harm

theorem recorded_armEnd : Recorded s.beginSnapshot.1 (s.armEnd h branch arm) :=
  (recorded_enterArm h branch (Nat.succ_pos _)).andThen (Nat.succ_pos _) (harm _)

theorem recorded_armEnd_taken :
    Recorded s.beginSnapshot.1 { s.armEnd h branch arm with failedNamespaces := ∅ } :=
  (recorded_armEnd harm s h branch).trans (.of_agree rfl (.of_eq (fun _ => rfl) rfl rfl))

/-- The scope is as it was, but for the block writes. -/
theorem walkArm_base :
    (s.walkArm h branch arm).base =
      { s with possibleBlockWrites := (s.armEnd h branch arm).possibleBlockWrites } :=
  finishSnapshot_of_recorded (recorded_armEnd_taken harm s h branch)

theorem walkArm_faithful :
    (s.walkArm h branch arm).delta.Faithful s (s.armEnd h branch arm) where
  names n := by
    have hback := congrArg (facts · n) (walkArm_base harm s h branch)
    have hnames := changed_faithful (recorded_armEnd_taken harm s h branch) n
    have hbase : (s.walkArm h branch arm).base.facts n = s.facts n := hback
    rw [← hbase]
    exact hnames
  unreachable := rfl
  uncertainty := rfl
  dataMaskEnvUnknown := rfl

end WalkArm

end Scope

theorem BranchDelta.Faithful.of_base {d : BranchDelta} {base base' branch : Scope}
    (h : d.Faithful base branch) (hbase : ∀ n, base'.facts n = base.facts n) :
    d.Faithful base' branch where
  names n := by
    rw [hbase n]
    exact h.names n
  unreachable := h.unreachable
  uncertainty := h.uncertainty
  dataMaskEnvUnknown := h.dataMaskEnvUnknown

theorem IfHeader.journaled_elseWalk (h : IfHeader) {arm : Scope → Scope}
    (harm : Scope.Journaled arm) : Scope.Journaled (h.elseWalk arm) := by
  unfold elseWalk
  split
  · exact harm
  · exact fun s _ => .refl s

section WalkArms

variable {thenArm elseArm : Scope → Scope} (hthen : Scope.Journaled thenArm)
  (helse : Scope.Journaled elseArm) (h : IfHeader) (s : Scope)

/-- Where the else arm ends.  It starts from the restored scope. -/
def Scope.elseEnd (s : Scope) (h : IfHeader) (thenArm elseArm : Scope → Scope) : Scope :=
  (s.walkArm h .thenBranch thenArm).base.armEnd h .elseBranch (h.elseWalk elseArm)

include hthen helse

/-- Both arms walked, the scope is as it was, but for the block writes. -/
theorem walkArms_base :
    (walkArms h thenArm elseArm s).1 =
      { s with possibleBlockWrites := (s.elseEnd h thenArm elseArm).possibleBlockWrites } := by
  have hback := Scope.walkArm_base (h.journaled_elseWalk helse)
    (s.walkArm h .thenBranch thenArm).base h .elseBranch
  refine hback.trans ?_
  rw [Scope.elseEnd, Scope.walkArm_base hthen s h .thenBranch]

theorem walkArms_then_faithful :
    (walkArms h thenArm elseArm s).2.1.thenDelta.Faithful (walkArms h thenArm elseArm s).1
      (s.armEnd h .thenBranch thenArm) :=
  (Scope.walkArm_faithful hthen s h .thenBranch).of_base fun n => by
    rw [walkArms_base hthen helse]
    rfl

theorem walkArms_else_faithful :
    (walkArms h thenArm elseArm s).2.1.elseDelta.Faithful (walkArms h thenArm elseArm s).1
      (s.elseEnd h thenArm elseArm) :=
  (Scope.walkArm_faithful (h.journaled_elseWalk helse) (s.walkArm h .thenBranch thenArm).base h
    .elseBranch).of_base fun n => by
      rw [walkArms_base hthen helse, Scope.walkArm_base hthen]
      rfl

/-- The whole `if` is on record. -/
theorem recorded_walkJournalIf (order : IterOrder) (hs : 0 < s.journal.depth) :
    Scope.Recorded s (walkJournalIf order h thenArm elseArm s) := by
  have hbase : Scope.Recorded s (walkArms h thenArm elseArm s).1 := by
    rw [walkArms_base hthen helse]
    exact .of_agree rfl (.of_eq (fun _ => rfl) rfl rfl)
  exact hbase.andThen hs (Deltas.recorded_merge _ _ order)

end WalkArms

/-- An arm records what it changes, its nested ifs included. -/
theorem Arm.journaled (arm : Arm) : Scope.Journaled arm.run := by
  induction arm with
  | done => exact fun s _ => .refl s
  | step order st rest ih => exact fun s hs => (st.recorded order hs).andThen hs (ih _)
  | cond order h thenArm elseArm rest iht ihe ih =>
    exact fun s hs => (recorded_walkJournalIf iht ihe h s order hs).andThen hs (ih _)

/-! ## One `if` -/

/-- An `if` walked from a scope. -/
structure IfRun where
  order : IterOrder
  header : IfHeader
  thenArm : Arm
  elseArm : Arm
  start : Scope

namespace IfRun

variable (r : IfRun)

def after : Scope := walkJournalIf r.order r.header r.thenArm.run r.elseArm.run r.start

def thenEnd : Scope := r.start.armEnd r.header .thenBranch r.thenArm.run

/-- Without an `else`, where the false path ends. -/
def elseEnd : Scope := r.start.elseEnd r.header r.thenArm.run r.elseArm.run

def walked : Scope × Deltas × IfStatement :=
  walkArms r.header r.thenArm.run r.elseArm.run r.start

def statement : IfStatement := r.walked.2.2

def ends : Ends := ⟨r.start.loopFrame.isSome, r.thenEnd.unreachable, r.elseEnd.unreachable⟩

/-- The arms the merge takes to exit through a `return`. -/
def returns : Bool × Bool :=
  r.walked.2.1.returnDiverges r.statement (r.walked.2.1.settle r.statement r.order r.walked.1)

/-- The state `n` is left in. -/
def stateAfter (n : String) : BindingState :=
  r.statement.mergeState r.ends (r.start.capture n) (r.thenEnd.facts n) (r.elseEnd.facts n)
    (decide (0 < r.start.journal.depth)) r.returns n

/-- What is left beside the names. -/
def restAfter (raised : Bool) : Scope :=
  r.statement.mergeRest r.ends
    { r.start.rest with possibleBlockWrites := r.elseEnd.possibleBlockWrites }
    ⟨r.thenEnd.failedNamespaces, r.thenEnd.uncertainty, r.thenEnd.dataMaskEnvUnknown⟩
    ⟨r.elseEnd.failedNamespaces, r.elseEnd.uncertainty, r.elseEnd.dataMaskEnvUnknown⟩ raised

/-- What the `if` leaves, name by name and beside the names. -/
theorem holds_after :
    ∃ raised, (raised = true ↔ Deltas.raises r.statement r.ends r.returns r.start.capture
        r.thenEnd.facts r.elseEnd.facts) ∧
      r.after.Holds r.start.journal.depth r.stateAfter (r.restAfter raised) := by
  have hthen := walkArms_then_faithful r.thenArm.journaled r.elseArm.journaled r.header r.start
  have helse := walkArms_else_faithful r.thenArm.journaled r.elseArm.journaled r.header r.start
  have hmerge := Deltas.holds_merge r.statement r.order hthen helse
  have hbase : r.walked.1 =
      { r.start with possibleBlockWrites := r.elseEnd.possibleBlockWrites } :=
    walkArms_base r.thenArm.journaled r.elseArm.journaled r.header r.start
  have hends : r.walked.2.1.ends r.walked.1 = r.ends := by
    rw [hbase]
    rfl
  have hrest : r.walked.1.rest =
      { r.start.rest with possibleBlockWrites := r.elseEnd.possibleBlockWrites } := by
    rw [hbase]
    rfl
  have hcapture : r.walked.1.capture = r.start.capture := by
    rw [hbase]
    rfl
  have hdepth : r.walked.1.journal.depth = r.start.journal.depth := by
    rw [hbase]
  rw [show (walkArms r.header r.thenArm.run r.elseArm.run r.start).1 = r.walked.1 from rfl,
    show (walkArms r.header r.thenArm.run r.elseArm.run r.start).2.1 = r.walked.2.1 from rfl,
    hends, hrest, hcapture, hdepth] at hmerge
  exact hmerge

end IfRun

end Ry
