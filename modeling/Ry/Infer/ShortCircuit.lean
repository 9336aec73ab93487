import Ry.Infer.MustFacts
import Ry.Scope.Inserted

/-! # `&&` and `||`

The right operand is inferred on a clone of the scope, narrowed by what the left one
proves; the names it assigns are copied back, and what it made uncertain is noted.  The
operands' own inference is a parameter: whatever it does to a scope, and an operand may
itself be a chain of such operators, `Joined` says how the scope afterwards relates to
the one in which the right operand was skipped and the one in which it ran.

The diagnostics are left out.
-/

namespace Ry

/-! ## The names a condition assigns -/

/-- A complex target binds no name at the target itself. -/
def insertBoundName : Expr → List String
  | .ident name _ => [name]
  | _ => []

mutual
/-- Assignments in the operands of an expression and in the value blocks among them.
Function bodies and the control statements of a block are not entered. -/
def Expr.conditionAssignmentNames : Expr → List String
  | .call func args _ => func.conditionAssignmentNames ++ argConditionAssignmentNames args
  | .binOp op lhs rhs _ =>
    (if op = .assign ∨ op = .superAssign then insertBoundName lhs else [])
      ++ lhs.conditionAssignmentNames ++ rhs.conditionAssignmentNames
  | .unaryOp _ e _ => e.conditionAssignmentNames
  | .index base _ args _ => base.conditionAssignmentNames ++ argConditionAssignmentNames args
  | .function _ _ _ => []
  | .block body _ => stmtConditionAssignmentNames body
  | .ite cond thenBranch elseBranch _ =>
    cond.conditionAssignmentNames ++ thenBranch.conditionAssignmentNames
      ++ optionConditionAssignmentNames elseBranch
  | .logical .. | .integer .. | .double .. | .string .. | .null _ | .na .. | .ident ..
  | .missing _ | .unknown _ => []
termination_by structural e => e
def argConditionAssignmentNames : List Arg → List String
  | [] => []
  | arg :: args => arg.conditionAssignmentNames ++ argConditionAssignmentNames args
termination_by structural l => l
def Arg.conditionAssignmentNames : Arg → List String
  | .mk _ value _ => value.conditionAssignmentNames
termination_by structural a => a
def optionConditionAssignmentNames : Option Expr → List String
  | none => []
  | some e => e.conditionAssignmentNames
termination_by structural o => o
def Stmt.conditionAssignmentNames : Stmt → List String
  | .assign target value _ => insertBoundName target ++ value.conditionAssignmentNames
  | .expr e => e.conditionAssignmentNames
  | .ite .. | .whileLoop .. | .forLoop .. | .functionDef .. | .ret .. => []
termination_by structural s => s
def stmtConditionAssignmentNames : List Stmt → List String
  | [] => []
  | s :: ss => s.conditionAssignmentNames ++ stmtConditionAssignmentNames ss
termination_by structural l => l
end

def collectConditionAssignmentNames (e : Expr) : Finset String :=
  e.conditionAssignmentNames.toFinset

/-- An insert that keeps the old type keeps one that describes the same values. -/
theorem BindingState.ty_afterInsert (st : BindingState) (journaling : Bool) (ty : RType) :
    ∃ t, (st.afterInsert journaling ty).ty = some t ∧ ∀ v, t.describes v = ty.describes v := by
  unfold afterInsert
  split
  · rename_i hkeeps
    simp only [keepsType, Bool.and_eq_true] at hkeeps
    have heq := hkeeps.2.1.1.1.1.1
    cases hty : st.ty with
    | none => simp [hty] at heq
    | some old =>
      have hold : old.eq ty = true := by simpa [hty] using heq
      exact ⟨old, rfl, fun v => RType.describes_congr (RType.sameShape_of_eq hold) v⟩
  · exact ⟨ty, rfl, fun _ => rfl⟩

/-! ## The merge -/

namespace Scope

variable (order : IterOrder)

/-- Everything the merge does but the copying. -/
def mergeConditionEffects (s evaluated : Scope) : Scope :=
  let s := if evaluated.uncertainty.literalValues then s.invalidateLiteralValues else s
  let s := { s with uncertainty := { s.uncertainty with
    effects := s.uncertainty.effects || evaluated.uncertainty.effects
    unseenRebinds := s.uncertainty.unseenRebinds || evaluated.uncertainty.unseenRebinds } }
  let s := if evaluated.uncertainty.dynamicBindings && !s.uncertainty.dynamicBindings then
      s.invalidateScalarAssertions order
    else s
  -- a call allowed before an assertion drops facts without the flag
  s.retainScalarAssertions order (marked evaluated.scalarAssertedBindings)

def mergeConditionAssignments (s evaluated : Scope) (e : Expr) : Scope :=
  (order.list (collectConditionAssignmentNames e)).foldl
    (fun s name => (evaluated.get name).elim s (s.insert order name))
    (s.mergeConditionEffects order evaluated)

/-- The definitions a wipe replaced, and the adopted functions it bound in the clone. -/
def lostIdentities (adoptedFunctionNames : List String) (s evaluated : Scope) : List String :=
  order.list (s.lexicalDefinitions.keys.filter fun name =>
      evaluated.lexicalDefinitions.lookup name ≠ s.lexicalDefinitions.lookup name)
    ++ adoptedFunctionNames.filter fun name =>
      (evaluated.get name).isSome && (s.get name).isNone

/-- What the merge without the copying writes. -/
def withEffectsOf (s evaluated : Scope) : Scope :=
  { s with
    knownStrings := if evaluated.uncertainty.literalValues then ∅ else s.knownStrings
    uncertainty := { s.uncertainty with
      effects := s.uncertainty.effects || evaluated.uncertainty.effects
      dynamicBindings := s.uncertainty.dynamicBindings || evaluated.uncertainty.dynamicBindings
      literalValues := s.uncertainty.literalValues || evaluated.uncertainty.literalValues
      unseenRebinds := s.uncertainty.unseenRebinds || evaluated.uncertainty.unseenRebinds }
    scalarAssertedBindings :=
      if evaluated.uncertainty.dynamicBindings && !s.uncertainty.dynamicBindings then ∅
      else s.scalarAssertedBindings.filter (marked evaluated.scalarAssertedBindings ·) }

theorem visible_invalidateScalarAssertions (s : Scope) :
    (s.invalidateScalarAssertions order).visible =
      { s with
        uncertainty := { s.uncertainty with dynamicBindings := true }
        scalarAssertedBindings := ∅ }.visible := by
  rw [invalidateScalarAssertions, clearScalarAssertions, visible_retainScalarAssertions]
  simp

theorem visible_mergeConditionEffects (s evaluated : Scope) :
    (s.mergeConditionEffects order evaluated).visible = (s.withEffectsOf evaluated).visible := by
  have hliteral : (if evaluated.uncertainty.literalValues then s.invalidateLiteralValues else s).visible
      = { s with
          knownStrings := if evaluated.uncertainty.literalValues then ∅ else s.knownStrings
          uncertainty := { s.uncertainty with
            literalValues := s.uncertainty.literalValues || evaluated.uncertainty.literalValues }
        }.visible := by
    cases evaluated.uncertainty.literalValues with
    | true =>
      rw [Bool.or_true]
      exact congrArg
        (fun v : Scope => { v with uncertainty := { v.uncertainty with literalValues := true } })
        (visible_clearKnownStrings s)
    | false => rw [Bool.or_false]; rfl
  have hblind : Blind fun v => { v with uncertainty := { v.uncertainty with
      effects := v.uncertainty.effects || evaluated.uncertainty.effects
      unseenRebinds := v.uncertainty.unseenRebinds || evaluated.uncertainty.unseenRebinds } } :=
    fun _ _ => rfl
  have heffects := hblind.congr hliteral
  have hbindings : ∀ {a b : Scope}, a.visible = b.visible →
      (if evaluated.uncertainty.dynamicBindings && !a.uncertainty.dynamicBindings then
        a.invalidateScalarAssertions order else a).visible =
        (if evaluated.uncertainty.dynamicBindings && !b.uncertainty.dynamicBindings then
          { b with
            uncertainty := { b.uncertainty with dynamicBindings := true }
            scalarAssertedBindings := ∅ }
        else b).visible := by
    intro a b hab
    rw [read_of_visible (·.uncertainty.dynamicBindings) (fun _ => rfl) hab]
    split
    · rw [visible_invalidateScalarAssertions]
      exact congrArg (fun v : Scope => { v with
        uncertainty := { v.uncertainty with dynamicBindings := true }
        scalarAssertedBindings := ∅ }) hab
    · exact hab
  refine (visible_retainScalarAssertions_congr order order _ (hbindings heffects)).trans ?_
  rw [visible_retainScalarAssertions]
  cases hran : evaluated.uncertainty.dynamicBindings <;>
    cases hs : s.uncertainty.dynamicBindings <;>
    simp [withEffectsOf, visible, hran, hs]

/-- What `infer_binop` leaves of a scope: nothing about strings and operators. -/
def withoutOps (literalValues : Bool) (s : Scope) : Scope :=
  { s with
    knownStrings := ∅
    literalFunctions := ∅
    plainOpsVectors := ∅
    uncertainty := { s.uncertainty with opsEnvironment := true, literalValues := literalValues } }

theorem visible_invalidateOpsEnvironment (s : Scope) :
    s.invalidateOpsEnvironment.visible = (s.withoutOps s.uncertainty.literalValues).visible := by
  have hops := visible_clearOpsFacts s.clearKnownStrings
  have hstrings := congrArg (fun v : Scope => { v with literalFunctions := ∅, plainOpsVectors := ∅ })
    (visible_clearKnownStrings s)
  exact congrArg
    (fun v : Scope => { v with uncertainty := { v.uncertainty with opsEnvironment := true } })
    (hops.trans hstrings)

theorem visible_invalidateLiteralValuesForDispatch (s : Scope) (value : RType) :
    ∃ strings literalValues, (s.uncertainty.literalValues = true → literalValues = true) ∧
      (s.invalidateLiteralValuesForDispatch value).visible = { s with
        knownStrings := strings
        uncertainty := { s.uncertainty with literalValues := literalValues } }.visible := by
  unfold invalidateLiteralValuesForDispatch
  split
  · refine ⟨∅, true, fun _ => rfl, ?_⟩
    exact congrArg
      (fun v : Scope => { v with uncertainty := { v.uncertainty with literalValues := true } })
      (visible_clearKnownStrings s)
  · exact ⟨s.knownStrings, s.uncertainty.literalValues, id, rfl⟩

end Scope

/-- One `a && b` or `a || b`. -/
structure ShortCircuit where
  order : IterOrder
  op : BinOpKind
  shortCircuits : op = .andAnd ∨ op = .orOr
  lhs : Expr
  rhs : Expr
  /-- `infer` on each operand, and what it leaves of the scope. -/
  inferLhs : Scope → RType × Scope
  inferRhs : Scope → RType × Scope
  /-- What the left operand proves, read off the scope after it. -/
  extractBranchNarrowing : Scope → Narrowing
  /-- The pass keeps its diagnostics and the project has declared contracts. -/
  hasContracts : Bool
  adoptedFunctionNames : List String

namespace ShortCircuit

open Scope

variable (c : ShortCircuit) (start : Scope)

def branch : NarrowingBranch := if c.op = .andAnd then .thenBranch else .elseBranch

/-- The scope with the right operand skipped. -/
def skipped : Scope := (c.inferLhs start).2

/-- The right operand's type, and the clone after it. -/
def rhsRun : RType × Scope :=
  c.inferRhs (applyNarrowingBranch (c.extractBranchNarrowing (c.skipped start)) c.branch
    (c.skipped start)).1

/-- The scope in which the right operand ran. -/
def evaluated : Scope := (c.rhsRun start).2

def mergeConditionIdentities (s evaluated : Scope) : Scope :=
  if c.hasContracts then
    insertAll c.order (fun _ => RType.unknown)
      (lostIdentities c.order c.adoptedFunctionNames s evaluated) s
  else s

/-- The two merges. -/
def merged : Scope :=
  let s := mergeConditionAssignments c.order (c.skipped start) (c.evaluated start) c.rhs
  c.mergeConditionIdentities s (c.evaluated start)

/-- `infer_short_circuit_binop`; last what `infer_binop` forgets for these operators. -/
def after : Scope :=
  (((c.merged start).invalidateLiteralValuesForDispatch
    (c.inferLhs start).1).invalidateLiteralValuesForDispatch
      (c.rhsRun start).1).invalidateOpsEnvironment

/-- The names copied back. -/
def copied : List String :=
  (c.order.list (collectConditionAssignmentNames c.rhs)).filter fun name =>
    ((c.evaluated start).get name).isSome

theorem mem_copied {n : String} :
    n ∈ c.copied start ↔
      n ∈ collectConditionAssignmentNames c.rhs ∧ ((c.evaluated start).get n).isSome := by
  rw [copied, List.mem_filter, c.order.mem]

/-- The scope, the right operand's effects noted. -/
def noted : Scope := (c.skipped start).mergeConditionEffects c.order (c.evaluated start)

/-- The type a name had in the clone. -/
def clonedType (name : String) : RType := ((c.evaluated start).get name).getD RType.unknown

def assigned : Scope := insertAll c.order (c.clonedType start) (c.copied start) (c.noted start)

theorem assigned_eq :
    mergeConditionAssignments c.order (c.skipped start) (c.evaluated start) c.rhs =
      c.assigned start := by
  unfold mergeConditionAssignments assigned copied
  rw [show (c.skipped start).mergeConditionEffects c.order (c.evaluated start) = c.noted start
    from rfl]
  generalize c.noted start = s
  induction c.order.list (collectConditionAssignmentNames c.rhs) generalizing s with
  | nil => rfl
  | cons name names ih =>
    rw [List.foldl_cons, ih]
    cases hname : (c.evaluated start).get name with
    | none => rw [List.filter_cons_of_neg (by simp [hname]), Option.elim_none]
    | some ty =>
      have hty : c.clonedType start name = ty := by rw [clonedType, hname, Option.getD_some]
      rw [List.filter_cons_of_pos (by simp [hname]), Option.elim_some]
      simp only [insertAll, List.foldl_cons, hty]

theorem merged_eq :
    c.merged start = c.mergeConditionIdentities (c.assigned start) (c.evaluated start) := by
  rw [merged, assigned_eq]

/-! ## What each merge leaves -/

theorem visible_noted :
    (c.noted start).visible = ((c.skipped start).withEffectsOf (c.evaluated start)).visible :=
  visible_mergeConditionEffects c.order _ _

variable {n : String}

theorem get_noted : (c.noted start).get n = (c.skipped start).get n :=
  (read_of_visible (get · n) (fun _ => rfl) (c.visible_noted start)).trans rfl

theorem scalarAsserted_noted (h : marked (c.noted start).scalarAssertedBindings n = true) :
    marked (c.skipped start).scalarAssertedBindings n = true ∧
      marked (c.evaluated start).scalarAssertedBindings n = true := by
  rw [read_of_visible (fun s : Scope => marked s.scalarAssertedBindings n) (fun _ => rfl)
    (c.visible_noted start)] at h
  simp only [withEffectsOf] at h
  split at h
  · simp at h
  · simpa [marked] using h

/-- The effects leave every fact about a name but the assertion as it was. -/
theorem holds_of_noted {f : MustFact} (h : f.Holds ((c.noted start).capture n)) :
    f.Holds ((c.skipped start).capture n) := by
  have hassertion := c.scalarAsserted_noted start (n := n)
  rw [capture_of_visible (c.visible_noted start) n] at h
  cases f with
  | scalarAsserted =>
    have hnoted : marked (c.noted start).scalarAssertedBindings n = true :=
      (read_of_visible (fun s : Scope => marked s.scalarAssertedBindings n) (fun _ => rfl)
        (c.visible_noted start)).trans h
    exact (hassertion hnoted).1
  | _ => exact h

theorem capture_assigned_of_not_mem (hn : n ∉ c.copied start) :
    (c.assigned start).capture n = (c.noted start).capture n :=
  (capture_insertAll c.order _ _ _ n).1 hn

theorem capture_assigned_of_mem (hn : n ∈ c.copied start) : ∃ st journaling,
    (c.assigned start).capture n = BindingState.afterInsert journaling st (c.clonedType start n) :=
  (capture_insertAll c.order _ _ _ n).2 hn

theorem mem_lostIdentities :
    n ∈ lostIdentities c.order c.adoptedFunctionNames (c.assigned start) (c.evaluated start) ↔
      (((c.assigned start).lexicalDefinitions.lookup n).isSome ∧
        (c.evaluated start).lexicalDefinitions.lookup n ≠
          (c.assigned start).lexicalDefinitions.lookup n) ∨
      (n ∈ c.adoptedFunctionNames ∧ ((c.evaluated start).get n).isSome ∧
        ((c.assigned start).get n).isNone) := by
  rw [lostIdentities, List.mem_append, c.order.mem, Finset.mem_filter, Table.mem_keys_iff,
    List.mem_filter, Bool.and_eq_true]

/-- A name copied back has no definition left to lose, and is bound. -/
theorem not_mem_lostIdentities (hn : n ∈ c.copied start) :
    n ∉ lostIdentities c.order c.adoptedFunctionNames (c.assigned start) (c.evaluated start) := by
  obtain ⟨st, journaling, hcapture⟩ := c.capture_assigned_of_mem start hn
  intro hlost
  rcases (c.mem_lostIdentities start).mp hlost with ⟨hdefined, -⟩ | ⟨-, -, hunbound⟩
  · have hnone : (c.assigned start).lexicalDefinitions.lookup n = none :=
      congrArg BindingState.lexicalDefinition hcapture
    simp [hnone] at hdefined
  · obtain ⟨t, ht, -⟩ := BindingState.ty_afterInsert st journaling (c.clonedType start n)
    have hbound : (c.assigned start).get n = some t :=
      (congrArg BindingState.ty hcapture).trans ht
    simp [hbound] at hunbound

theorem capture_merged_of_mem (hn : n ∈ c.copied start) :
    (c.merged start).capture n = (c.assigned start).capture n := by
  rw [merged_eq, mergeConditionIdentities]
  split
  · exact (capture_insertAll c.order _ _ _ n).1 (c.not_mem_lostIdentities start hn)
  · rfl

/-- Otherwise the name is as the effects left it, or it lost its identity. -/
theorem capture_merged_of_not_mem (hn : n ∉ c.copied start) :
    ((c.merged start).capture n = (c.noted start).capture n ∧ (c.hasContracts = true →
        n ∉ lostIdentities c.order c.adoptedFunctionNames (c.assigned start) (c.evaluated start))) ∨
      ∃ st journaling,
        (c.merged start).capture n = BindingState.afterInsert journaling st RType.unknown := by
  have hassigned := c.capture_assigned_of_not_mem start hn
  rw [merged_eq, mergeConditionIdentities]
  split
  · by_cases hlost : n ∈ lostIdentities c.order c.adoptedFunctionNames (c.assigned start)
        (c.evaluated start)
    · exact .inr ((capture_insertAll c.order _ _ _ n).2 hlost)
    · exact .inl ⟨((capture_insertAll c.order _ _ _ n).1 hlost).trans hassigned, fun _ => hlost⟩
  · rename_i hcontracts
    exact .inl ⟨hassigned, fun h => absurd h hcontracts⟩

/-- `infer_binop` drops facts about strings and operators, and may note more uncertainty. -/
theorem visible_after : ∃ literalValues,
    ((c.merged start).uncertainty.literalValues = true → literalValues = true) ∧
    (c.after start).visible = (withoutOps literalValues (c.merged start)).visible := by
  obtain ⟨_, l₁, hmono₁, h₁⟩ := visible_invalidateLiteralValuesForDispatch (c.merged start)
    (c.inferLhs start).1
  obtain ⟨_, l₂, hmono₂, h₂⟩ := visible_invalidateLiteralValuesForDispatch
    ((c.merged start).invalidateLiteralValuesForDispatch (c.inferLhs start).1) (c.rhsRun start).1
  have hl : ((c.merged start).invalidateLiteralValuesForDispatch
      (c.inferLhs start).1).uncertainty.literalValues = l₁ :=
    (read_of_visible (·.uncertainty.literalValues) (fun _ => rfl) h₁).trans rfl
  refine ⟨l₂, fun h => hmono₂ (hl.trans (hmono₁ h)), ?_⟩
  have hblind : Blind (withoutOps l₂) := fun _ _ => rfl
  have hfirst := hblind.congr h₁
  have hsecond := hblind.congr h₂
  rw [after, visible_invalidateOpsEnvironment,
    (read_of_visible (·.uncertainty.literalValues) (fun _ => rfl) h₂).trans rfl]
  exact hsecond.trans hfirst

theorem capture_after : (c.after start).capture n = (c.merged start).capture n := by
  obtain ⟨_, -, hvisible⟩ := c.visible_after start
  exact capture_of_visible hvisible n

theorem capture_after_of_mem (hn : n ∈ c.copied start) : ∃ st journaling,
    (c.after start).capture n = BindingState.afterInsert journaling st (c.clonedType start n) := by
  rw [capture_after, c.capture_merged_of_mem start hn]
  exact c.capture_assigned_of_mem start hn

/-- A fact left after the operator was there before the right operand, about a name that
was not copied and kept its identity. -/
theorem noted_of_holds {f : MustFact} (h : f.Holds ((c.after start).capture n)) :
    n ∉ c.copied start ∧ (c.after start).capture n = (c.noted start).capture n ∧
      (c.hasContracts = true →
        n ∉ lostIdentities c.order c.adoptedFunctionNames (c.assigned start) (c.evaluated start))
    := by
  have hn : n ∉ c.copied start := by
    intro hn
    obtain ⟨st, journaling, hcapture⟩ := c.capture_after_of_mem start hn
    rw [hcapture] at h
    exact MustFact.not_holds_afterInsert journaling _ h
  rw [capture_after] at h ⊢
  rcases c.capture_merged_of_not_mem start hn with ⟨hsame, hkept⟩ | ⟨st, journaling, hlost⟩
  · exact ⟨hn, hsame, hkept⟩
  · rw [hlost] at h
    exact absurd h (MustFact.not_holds_afterInsert journaling _)

theorem flags_after : ∃ literalValues,
    ((c.noted start).uncertainty.literalValues = true → literalValues = true) ∧
    { (c.after start).uncertainty with escapedSlotNames := false } =
      { (c.noted start).uncertainty with
        opsEnvironment := true
        literalValues := literalValues
        escapedSlotNames := false } := by
  obtain ⟨literalValues, hmono, hvisible⟩ := c.visible_after start
  have hassigned := flags_insertAll c.order (c.clonedType start) (c.copied start) (c.noted start)
  have hmerged : { (c.merged start).uncertainty with escapedSlotNames := false } =
      { (c.noted start).uncertainty with escapedSlotNames := false } := by
    rw [merged_eq, mergeConditionIdentities]
    split
    · exact (flags_insertAll c.order _ _ (c.assigned start)).trans hassigned
    · exact hassigned
  have hliteral := congrArg Uncertainty.literalValues hmerged
  refine ⟨literalValues, fun h => hmono (hliteral.trans h), ?_⟩
  have hafter : (c.after start).uncertainty =
      { (c.merged start).uncertainty with opsEnvironment := true, literalValues := literalValues } :=
    (read_of_visible uncertainty (fun _ => rfl) hvisible).trans rfl
  rw [hafter]
  exact congrArg (fun u : Uncertainty =>
    { u with opsEnvironment := true, literalValues := literalValues }) hmerged

theorem conditionAliases_after {a : ConditionAlias}
    (h : (c.after start).conditionAliases.lookup n = some a) :
    (c.skipped start).conditionAliases.lookup n = some a ∧ ∀ name ∈ c.copied start,
      n ≠ semanticArgumentName name ∧ semanticArgumentName name ∉ a.reads := by
  obtain ⟨_, -, hvisible⟩ := c.visible_after start
  have hafter : (c.after start).conditionAliases = (c.merged start).conditionAliases :=
    (read_of_visible conditionAliases (fun _ => rfl) hvisible).trans rfl
  have hnoted : (c.noted start).conditionAliases = (c.skipped start).conditionAliases :=
    (read_of_visible conditionAliases (fun _ => rfl) (c.visible_noted start)).trans rfl
  rw [hafter, merged_eq, mergeConditionIdentities] at h
  have hassigned : (c.assigned start).conditionAliases.lookup n = some a := by
    split at h
    · exact (conditionAliases_insertAll c.order _ _ _ h).1
    · exact h
  obtain ⟨hlookup, hreads⟩ := conditionAliases_insertAll c.order _ _ _ hassigned
  exact ⟨hnoted ▸ hlookup, hreads⟩

/-! ## Both outcomes -/

/-- How the scope afterwards relates to the two outcomes.  A name that is copied back has
the type it had when the right operand ran in place of the one it had before. -/
structure Joined : Prop where
  copied : ∀ n ∈ collectConditionAssignmentNames c.rhs, ((c.evaluated start).get n).isSome →
    ∀ v, Covers ((c.after start).get n) v ↔ Covers ((c.evaluated start).get n) v
  kept : ∀ n, (n ∈ collectConditionAssignmentNames c.rhs → (c.evaluated start).get n = none) →
    ∀ v, Covers ((c.skipped start).get n) v → Covers ((c.after start).get n) v
  forgotten : ∀ n ∈ collectConditionAssignmentNames c.rhs, ((c.evaluated start).get n).isSome →
    ∀ f : MustFact, ¬ f.Holds ((c.after start).capture n)
  facts : ∀ n (f : MustFact), f.Holds ((c.after start).capture n) →
    f.Holds ((c.skipped start).capture n)
  assertions : ∀ n, marked (c.after start).scalarAssertedBindings n = true →
    marked (c.skipped start).scalarAssertedBindings n = true ∧
      marked (c.evaluated start).scalarAssertedBindings n = true
  definitions : c.hasContracts = true → ∀ n definition,
    (c.after start).lexicalDefinitions.lookup n = some definition →
      (c.skipped start).lexicalDefinitions.lookup n = some definition ∧
        (c.evaluated start).lexicalDefinitions.lookup n = some definition
  aliases : ∀ n a, (c.after start).conditionAliases.lookup n = some a →
    (c.skipped start).conditionAliases.lookup n = some a ∧
      ∀ name ∈ collectConditionAssignmentNames c.rhs, ((c.evaluated start).get name).isSome →
        n ≠ semanticArgumentName name ∧ semanticArgumentName name ∉ a.reads
  tables : (c.after start).knownStrings = ∅ ∧ (c.after start).literalFunctions = ∅ ∧
    (c.after start).plainOpsVectors = ∅
  effects : (c.after start).uncertainty.effects =
    ((c.skipped start).uncertainty.effects || (c.evaluated start).uncertainty.effects)
  unseenRebinds : (c.after start).uncertainty.unseenRebinds =
    ((c.skipped start).uncertainty.unseenRebinds || (c.evaluated start).uncertainty.unseenRebinds)
  dynamicBindings : (c.after start).uncertainty.dynamicBindings =
    ((c.skipped start).uncertainty.dynamicBindings ||
      (c.evaluated start).uncertainty.dynamicBindings)
  literalValues : (c.skipped start).uncertainty.literalValues = true ∨
    (c.evaluated start).uncertainty.literalValues = true →
      (c.after start).uncertainty.literalValues = true

theorem covers_copied (hn : n ∈ c.copied start) (v : RValue) :
    Covers ((c.after start).get n) v ↔ Covers ((c.evaluated start).get n) v := by
  obtain ⟨st, journaling, hcapture⟩ := c.capture_after_of_mem start hn
  obtain ⟨t, ht, hsame⟩ := BindingState.ty_afterInsert st journaling (c.clonedType start n)
  have hafter : (c.after start).get n = some t := (congrArg BindingState.ty hcapture).trans ht
  obtain ⟨ty, hty⟩ := Option.isSome_iff_exists.mp ((c.mem_copied start).mp hn).2
  have hcloned : c.clonedType start n = ty := by rw [clonedType, hty, Option.getD_some]
  rw [hafter, hty]
  refine ⟨fun h => covers_some ?_, fun h => covers_some ?_⟩
  · rw [← hcloned, ← hsame v]
    exact h.describes
  · rw [hsame v, hcloned]
    exact h.describes

theorem covers_kept (hn : n ∉ c.copied start) {v : RValue}
    (h : Covers ((c.skipped start).get n) v) : Covers ((c.after start).get n) v := by
  have hafter : (c.after start).get n = (c.merged start).get n :=
    congrArg BindingState.ty (c.capture_after start)
  rw [hafter]
  rcases c.capture_merged_of_not_mem start hn with ⟨hsame, -⟩ | ⟨st, journaling, hlost⟩
  · have hget : (c.merged start).get n = (c.noted start).get n := congrArg BindingState.ty hsame
    rw [hget, c.get_noted start]
    exact h
  · have hget : (c.merged start).get n =
        (BindingState.afterInsert journaling st RType.unknown).ty := congrArg BindingState.ty hlost
    rw [hget]
    exact BindingState.covers_afterInsert journaling (describes_unknown v)

theorem definition_of_after (hcontracts : c.hasContracts = true) {definition : Span}
    (h : (c.after start).lexicalDefinitions.lookup n = some definition) :
    (c.skipped start).lexicalDefinitions.lookup n = some definition ∧
      (c.evaluated start).lexicalDefinitions.lookup n = some definition := by
  obtain ⟨hn, hsame, hkept⟩ := c.noted_of_holds start (f := .lexicalDefinition definition) h
  have hnoted : (c.noted start).lexicalDefinitions.lookup n = some definition :=
    (congrArg BindingState.lexicalDefinition hsame).symm.trans h
  have hassigned : (c.assigned start).lexicalDefinitions.lookup n = some definition :=
    (congrArg BindingState.lexicalDefinition (c.capture_assigned_of_not_mem start hn)).trans hnoted
  refine ⟨c.holds_of_noted start (f := .lexicalDefinition definition) hnoted, ?_⟩
  by_contra hchanged
  refine hkept hcontracts ((c.mem_lostIdentities start).mpr (.inl ⟨by simp [hassigned], ?_⟩))
  rw [hassigned]
  exact hchanged

/-- In a chain the innermost operand that ran decides: its names are among the outer
operand's, and what the inner merge left of them is copied on. -/
theorem covers_nested (d : ShortCircuit) {span : Span}
    (hrhs : c.rhs = .binOp d.op d.lhs d.rhs span) {inner : Scope}
    (hinner : c.evaluated start = d.after inner) (hn : n ∈ d.copied inner) (v : RValue) :
    Covers ((c.after start).get n) v ↔ Covers ((d.evaluated inner).get n) v := by
  obtain ⟨st, journaling, hcapture⟩ := d.capture_after_of_mem inner hn
  obtain ⟨t, ht, -⟩ := BindingState.ty_afterInsert st journaling (d.clonedType inner n)
  have hbound : (c.evaluated start).get n = some t := by
    rw [hinner]
    exact (congrArg BindingState.ty hcapture).trans ht
  have hmem : n ∈ collectConditionAssignmentNames c.rhs := by
    have hlater := ((d.mem_copied inner).mp hn).1
    rw [collectConditionAssignmentNames, List.mem_toFinset] at hlater ⊢
    rw [hrhs, Expr.conditionAssignmentNames]
    exact List.mem_append_right _ hlater
  rw [c.covers_copied start ((c.mem_copied start).mpr ⟨hmem, by simp [hbound]⟩), hinner]
  exact d.covers_copied inner hn v

/-- Every name the right operand assigns has a type that covers both outcomes. -/
def CoversBoth : Prop :=
  ∀ n ∈ collectConditionAssignmentNames c.rhs, ∀ v,
    Covers ((c.evaluated start).get n) v ∨ Covers ((c.skipped start).get n) v →
      Covers ((c.after start).get n) v

/-- `flag && is.null(x <- "a")` -/
def rebinding : ShortCircuit where
  order := .sorted
  op := .andAnd
  shortCircuits := .inl rfl
  lhs := .ident "flag" ⟨0, 4, 1, 0⟩
  rhs := .call (.ident "is.null" ⟨8, 15, 1, 8⟩)
    [.mk none (.binOp .assign (.ident "x" ⟨16, 17, 1, 16⟩) (.string "a" ⟨21, 24, 1, 21⟩)
      ⟨16, 24, 1, 16⟩) ⟨16, 24, 1, 16⟩] ⟨8, 25, 1, 8⟩
  inferLhs s := (RType.scalar .logical, s)
  inferRhs s := (RType.scalar .logical, s.insert .sorted "x" (RType.scalar .character))
  extractBranchNarrowing _ := .none
  hasContracts := false
  adoptedFunctionNames := []

/-- `x` is an integer so far. -/
def integerScope : Scope :=
  { Scope.default with bindings := Bindings.empty.insert "x" (RType.scalar .integer) }

end ShortCircuit

end Ry
