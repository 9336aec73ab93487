import Ry.Supply.Regular
import Ry.Syntax.AnyIn

/-! # Code that neither branches nor assigns

Executions of straight code leave the frame as it is, and the walk leaves the point as it is where
the code does not read the formal.  With this the facts a condition is decoded into are exact: with
the formal omitted, an arm whose fact is not `supplied` can be entered.
-/

namespace Ry.FormalSupply

/-- What the point says of an execution that comes to it with the formal at its default. -/
structure Matches (tested : Finset String) (point : SupplyPoint) (f : Frame) : Prop where
  omitted : f.rebound = false
  cached : ∀ name negated, point.proxies name = some negated → f.held name = some !negated
  covered : ∀ name, (f.held name).isSome → name ∈ tested

variable (c : Checker) (formal : String) {tested : Finset String}

/-- Operators whose operands are both evaluated, in order, to a value of their own. -/
def isStrict : BinOpKind → Bool
  | .assign | .superAssign | .andAnd | .orOr => false
  | _ => true

theorem exprRuns_strict {op : BinOpKind} (h : isStrict op = true) (lhs rhs : Expr) (span : Span)
    (f : Frame) : exprRuns c formal (.binOp op lhs rhs span) f =
      Outcome.andThen (exprRuns c formal lhs f) fun _ f =>
        Outcome.andThen (exprRuns c formal rhs f) fun _ f => Outcome.either f := by
  cases op <;> first | rfl | cases h

/-- The truth value of the left side at which a junction stops. -/
def stopsAt : BinOpKind → Option Bool
  | .andAnd => some false
  | .orOr => some true
  | _ => none

theorem exprRuns_junction {op : BinOpKind} {stop : Bool} (h : stopsAt op = some stop)
    (lhs rhs : Expr) (span : Span) (f : Frame) : exprRuns c formal (.binOp op lhs rhs span) f =
      Outcome.andThen (exprRuns c formal lhs f) fun b f =>
        if b = stop then [.done stop f] else exprRuns c formal rhs f := by
  cases op with
  | andAnd =>
    obtain rfl := Option.some.inj h
    rw [exprRuns]
    refine congrArg _ (funext fun b => ?_)
    cases b <;> rfl
  | orOr =>
    obtain rfl := Option.some.inj h
    rw [exprRuns]
  | _ => cases h

theorem truthNames_junction {op : BinOpKind} {stop : Bool} (h : stopsAt op = some stop)
    (lhs rhs : Expr) (span : Span) : exprTruthNames (.binOp op lhs rhs span) =
      exprTruthNames lhs ++ exprTruthNames rhs := by
  cases op <;> first | rfl | cases h

theorem exprFlows_binOp {op : BinOpKind} (h : op ≠ .superAssign) (lhs rhs : Expr) (span : Span) :
    exprFlows c (.binOp op lhs rhs span) = (exprFlows c lhs && exprFlows c rhs) := by
  cases op <;> first | rfl | contradiction

theorem walkExpr_strict {op : BinOpKind} (h : op ≠ .assign) (h' : op ≠ .superAssign)
    (lhs rhs : Expr) (span : Span) (point : SupplyPoint) :
    walkExpr c formal (.binOp op lhs rhs span) point =
      (walkExpr c formal lhs point).bind (walkExpr c formal rhs) := by
  cases op <;> first | rfl | contradiction

/-! ## Executions -/

/-- Some truth value is possible, and every one where the names that decide it are free. -/
def Completes (free : Prop) (os : Runs) (f : Frame) : Prop :=
  ∃ b₀, ∀ b, b = b₀ ∨ free → .done b f ∈ os

theorem Completes.of_all {free : Prop} {os : Runs} {f : Frame} (h : ∀ b, .done b f ∈ os) :
    Completes free os f := ⟨true, fun b _ => h b⟩

theorem Completes.some {free : Prop} {os : Runs} {f : Frame} (h : Completes free os f) :
    ∃ b, .done b f ∈ os := by
  obtain ⟨b, hb⟩ := h
  exact ⟨b, hb b (.inl rfl)⟩

theorem Completes.mono {free free' : Prop} {os : Runs} {f : Frame} (h : Completes free os f)
    (hfree : free' → free) : Completes free' os f := by
  obtain ⟨b₀, hb⟩ := h
  exact ⟨b₀, fun b hb' => hb b (hb'.imp id hfree)⟩

theorem Free.mono {tests tests' : Bool} {names names' : List String}
    (h : Free tested tests names) (htests : tests' = true → tests = true)
    (hnames : ∀ name ∈ names', name ∈ names) : Free tested tests' names' := by
  refine ⟨?_, fun name hname => h.2 name (hnames name hname)⟩
  by_contra htest
  rw [Bool.not_eq_false] at htest
  rw [htests htest] at h
  exact absurd h.1 (by decide)

/-- The truth value of a conjunction or disjunction, from those of its operands: `stop` is the value
that decides it alone. -/
theorem Completes.junction {free freeL freeR : Prop} {lhs : Runs} {rhs : Frame → Runs} {f : Frame}
    (stop : Bool) (hlhs : Completes freeL lhs f) (hrhs : Completes freeR (rhs f) f)
    (hl : free → freeL) (hr : free → freeR) :
    Completes free
      (Outcome.andThen lhs fun b f => if b = stop then [.done stop f] else rhs f) f := by
  obtain ⟨b₁, hb₁⟩ := hlhs
  obtain ⟨b₂, hb₂⟩ := hrhs
  refine ⟨if b₁ = stop then stop else b₂, fun b hb => ?_⟩
  rcases hb with rfl | hfree
  · refine Outcome.mem_andThen (hb₁ b₁ (.inl rfl)) ?_
    by_cases h : b₁ = stop
    · simp [h]
    · simp only [if_neg h]
      exact hb₂ b₂ (.inl rfl)
  · by_cases h : b = stop
    · refine Outcome.mem_andThen (hb₁ stop (.inr (hl hfree))) ?_
      simp [h]
    · refine Outcome.mem_andThen (hb₁ b (.inr (hl hfree))) ?_
      simp only [if_neg h]
      exact hb₂ b (.inr (hr hfree))

variable {formal} in
theorem isMissingTestCall_self {func : Expr} (h : isMissingHead func = true) (name : Option String)
    (span span' : Span) :
    isMissingTestCall formal func [.mk name (.ident formal span) span'] = true := by
  simp [isMissingTestCall, h, referencesFormal, anyInExpr, namesFormal, Arg.value]

section Straight

variable {c formal} {f : Frame} (hf : ∀ name, (f.held name).isSome → name ∈ tested)

/-- The nodes below which a walk for straight code looks. -/
abbrev straightWalk : WalkPolicy := { fnBodies := false }

/-- The truth value of a test of the formal is not free. -/
theorem missing_runs {func : Expr} {args : List Arg} {span : Span}
    (hhead : isMissingHead func = true) (hargs : isNamed args = true) :
    Completes (Free tested (anyInExpr .all (testNode formal ∅) (.call func args span)) [])
      (missingRuns formal args f) f := by
  obtain ⟨name, e, argSpan, rfl⟩ : ∃ name e argSpan, args = [.mk name e argSpan] := by
    unfold isNamed at hargs
    split at hargs
    · exact ⟨_, _, _, rfl⟩
    · cases hargs
  cases e with
  | ident argument identSpan =>
    by_cases hname : argument = formal
    · subst hname
      refine ⟨!f.rebound, fun b hb => ?_⟩
      rcases hb with rfl | hfree
      · simp [missingRuns]
      · have htest : anyInExpr .all (testNode argument ∅)
            (.call func [.mk name (.ident argument identSpan) argSpan] span) = true := by
          refine anyInExpr_of_hit _ _ ?_
          simpa [testNode, supplyTestNode] using isMissingTestCall_self hhead name identSpan argSpan
        rw [htest] at hfree
        exact absurd hfree.1 (by decide)
    · refine .of_all fun b => ?_
      simp [missingRuns, hname]
  | _ => cases hargs

include hf

-- the linter does not see the hypothesis through the mutual recursion
set_option linter.unusedSectionVars false in
mutual
theorem straightExpr_runs : ∀ e, anyInExpr straightWalk stirs e = false → exprFlows c e = true →
    Completes (Free tested (anyInExpr .all (testNode formal ∅) e) (exprTruthNames e))
      (exprRuns c formal e f) f
  | .ident name span, _, _ => by
    unfold exprRuns
    split
    · exact .of_all fun b => List.mem_append_right _ (Outcome.done_mem_either b f)
    · cases hheld : f.held name with
      | none => exact .of_all fun b => Outcome.done_mem_either b f
      | some b₀ =>
        refine ⟨b₀, fun b hb => ?_⟩
        rcases hb with rfl | hfree
        · exact List.mem_singleton.mpr rfl
        · have hmem : name ∈ tested := hf name (by rw [hheld]; rfl)
          exact absurd hmem (hfree.2 name (List.mem_singleton.mpr rfl))
  | .call func args span, hstraight, hflows => by
    unfold exprRuns
    rw [exprFlows] at hflows
    split
    · rename_i hhead
      rw [if_pos hhead] at hflows
      exact missing_runs hhead hflows
    · rename_i hhead
      rw [if_neg hhead, Bool.and_eq_true, Bool.and_eq_true] at hflows
      simp only [anyInExpr, Bool.or_eq_false_iff] at hstraight
      obtain ⟨bfunc, hfunc⟩ := (straightExpr_runs func hstraight.2.1 hflows.1.1).some
      obtain ⟨bargs, hargs⟩ := straightArgs_runs args _ hstraight.2.2 hflows.1.2
      refine .of_all fun b => Outcome.mem_andThen hfunc (Outcome.mem_andThen hargs ?_)
      rw [Bool.not_eq_true'] at hflows
      rw [hflows.2]
      exact Outcome.done_mem_either b f
  | .binOp op lhs rhs span, hstraight, hflows => by
    simp only [anyInExpr, Bool.or_eq_false_iff, Bool.and_eq_false_iff] at hstraight
    have hassign : op ≠ .assign := by
      rintro rfl
      exact absurd hstraight.1 (by simp [stirs])
    have hsuper : op ≠ .superAssign := by
      rintro rfl
      exact absurd hstraight.1 (by simp [stirs])
    have hlhs : anyInExpr straightWalk stirs lhs = false := by
      refine hstraight.2.1.resolve_left ?_
      cases op <;> simp [WalkPolicy.entersLhs]
    rw [exprFlows_binOp c hsuper, Bool.and_eq_true] at hflows
    have hl := straightExpr_runs lhs hlhs hflows.1
    have hr := straightExpr_runs rhs hstraight.2.2 hflows.2
    cases hstop : stopsAt op with
    | none =>
      have hop : isStrict op = true := by
        cases op <;> first | rfl | contradiction
      obtain ⟨bl, hbl⟩ := hl.some
      obtain ⟨br, hbr⟩ := hr.some
      rw [exprRuns_strict c formal hop]
      exact .of_all fun b =>
        Outcome.mem_andThen hbl (Outcome.mem_andThen hbr (Outcome.done_mem_either b f))
    | some stop =>
      rw [exprRuns_junction c formal hstop, truthNames_junction hstop]
      refine hl.junction stop hr (fun h => h.mono ?_ ?_) (fun h => h.mono ?_ ?_)
      · intro ht
        have henters : WalkPolicy.all.entersLhs op = true := by
          cases op <;> rfl
        simp [anyInExpr, ht, henters]
      · intro name hname
        exact List.mem_append_left _ hname
      · intro ht
        simp [anyInExpr, ht]
      · intro name hname
        exact List.mem_append_right _ hname
  | .unaryOp op e span, hstraight, hflows => by
    simp only [anyInExpr, Bool.or_eq_false_iff] at hstraight
    rw [exprFlows] at hflows
    have he := straightExpr_runs e hstraight.2 hflows
    cases op with
    | neg =>
      obtain ⟨b₀, hb₀⟩ := he.some
      exact .of_all fun b => Outcome.mem_andThen hb₀ (Outcome.done_mem_either b f)
    | not =>
      obtain ⟨b₀, hb₀⟩ := he
      refine ⟨!b₀, fun b hb => Outcome.mem_andThen (hb₀ (!b) (hb.imp ?_ ?_)) ?_⟩
      · rintro rfl
        exact Bool.not_not b₀
      · intro h
        exact h.mono (fun ht => by simp [anyInExpr, ht]) fun name hname => hname
      · simp
  | .index base kind args span, hstraight, hflows => by
    simp only [anyInExpr, Bool.or_eq_false_iff] at hstraight
    rw [exprFlows, Bool.and_eq_true] at hflows
    obtain ⟨bbase, hbase⟩ := (straightExpr_runs base hstraight.2.1 hflows.1).some
    refine .of_all fun b => Outcome.mem_andThen hbase ?_
    by_cases hmember : kind.isMember = true
    · rw [if_pos hmember]
      exact Outcome.done_mem_either b f
    · rw [if_neg hmember]
      have hargsFlow : argsFlow c [] args = true := by simpa [hmember] using hflows.2
      have hargsStraight : anyInArgs straightWalk stirs args = false := by
        simpa using hstraight.2.2
      obtain ⟨bargs, hargs⟩ := straightArgs_runs args [] hargsStraight hargsFlow
      exact Outcome.mem_andThen hargs (Outcome.done_mem_either b f)
  | .block body span, hstraight, hflows => by
    simp only [anyInExpr, Bool.or_eq_false_iff] at hstraight
    rw [exprFlows] at hflows
    refine (straightStmts_runs body hstraight.2 hflows).mono fun h => ?_
    refine h.mono ?_ fun name hname => hname
    intro ht
    simp [anyInExpr, ht]
  | .ite cond thenBranch elseBranch span, hstraight, _ => by simp [anyInExpr, stirs] at hstraight
  | .function params body span, _, _ => .of_all fun b => Outcome.done_mem_either b f
  | .logical .., _, _ | .integer .., _, _ | .double .., _, _ | .string .., _, _ | .null _, _, _
  | .na .., _, _ | .unknown _, _, _ | .missing _, _, _ =>
    .of_all fun b => Outcome.done_mem_either b f
termination_by structural e => e
theorem straightStmt_runs : ∀ s, anyInStmt straightWalk stirs s = false → stmtFlows c s = true →
    Completes (Free tested (anyInStmt .all (testNode formal ∅) s) (stmtTruthNames s))
      (stmtRuns c formal s f) f
  | .assign .., hstraight, _ | .ite .., hstraight, _ => by simp [anyInStmt, stirs] at hstraight
  | .forLoop .., _, hflows | .whileLoop .., _, hflows | .ret .., _, hflows => by
    simp [stmtFlows] at hflows
  | .expr e, hstraight, hflows => by
    simp only [anyInStmt, Bool.or_eq_false_iff] at hstraight
    rw [stmtFlows] at hflows
    refine (straightExpr_runs e hstraight.2 hflows).mono fun h => h.mono ?_ fun name hname => hname
    intro ht
    simp [anyInStmt, ht]
  | .functionDef .., _, _ => .of_all fun b => Outcome.done_mem_either b f
termination_by structural s => s
theorem straightStmts_runs : ∀ ss, anyInStmts straightWalk stirs ss = false →
    stmtsFlow c ss = true →
    Completes (Free tested (anyInStmts .all (testNode formal ∅) ss) (stmtsTruthNames ss))
      (stmtsRuns c formal ss f) f
  | [], _, _ => .of_all fun b => Outcome.done_mem_either b f
  | s :: ss, hstraight, hflows => by
    simp only [anyInStmts, Bool.or_eq_false_iff] at hstraight
    rw [stmtsFlow, Bool.and_eq_true] at hflows
    have hs := straightStmt_runs s hstraight.1 hflows.1
    have hss := straightStmts_runs ss hstraight.2 hflows.2
    by_cases hlast : ss.isEmpty = true
    · obtain ⟨b₀, hb₀⟩ := hs
      refine ⟨b₀, fun b hb => Outcome.mem_andThen (hb₀ b (hb.imp id ?_)) ?_⟩
      · refine fun h => h.mono (fun ht => by simp [anyInStmts, ht]) fun name hname => ?_
        rw [stmtsTruthNames, if_pos hlast]
        exact hname
      · simp [hlast]
    · obtain ⟨b₁, hb₁⟩ := hs.some
      obtain ⟨b₀, hb₀⟩ := hss
      refine ⟨b₀, fun b hb => Outcome.mem_andThen hb₁ ?_⟩
      simp only [if_neg hlast]
      refine hb₀ b (hb.imp id fun h => ?_)
      refine h.mono (fun ht => by simp [anyInStmts, ht]) fun name hname => ?_
      rw [stmtsTruthNames, if_neg hlast]
      exact hname
termination_by structural ss => ss
theorem straightArgs_runs : ∀ args captured, anyInArgs straightWalk stirs args = false →
    argsFlow c captured args = true → ∃ b, .done b f ∈ argsRuns c formal captured args f
  | [], _, _, _ => ⟨true, Outcome.done_mem_either true f⟩
  | arg :: args, captured, hstraight, hflows => by
    simp only [anyInArgs, Bool.or_eq_false_iff] at hstraight
    rw [argsFlow, Bool.and_eq_true, Bool.or_eq_true] at hflows
    obtain ⟨b, hb⟩ := straightArgs_runs args captured.tail hstraight.2 hflows.2
    by_cases hcaptured : captured.head?.getD false = true
    · refine ⟨b, Outcome.mem_andThen (b := true) ?_ hb⟩
      rw [if_pos hcaptured]
      exact Outcome.done_mem_either true f
    · obtain ⟨b', hb'⟩ := straightArg_runs arg hstraight.1 (hflows.1.resolve_left hcaptured)
      refine ⟨b, Outcome.mem_andThen (b := b') ?_ hb⟩
      rw [if_neg hcaptured]
      exact hb'
termination_by structural args => args
theorem straightArg_runs : ∀ arg, anyInArg straightWalk stirs arg = false → argFlows c arg = true →
    ∃ b, .done b f ∈ argRuns c formal arg f
  | .mk _ value _, hstraight, hflows => (straightExpr_runs value hstraight hflows).some
termination_by structural arg => arg
end

theorem outward_runs : ∀ target, anyInExpr straightWalk stirs target = false →
    outwardFlows c target = true → ∃ b, .done b f ∈ outwardRuns c formal target f
  | .ident .., _, _ | .string .., _, _ => ⟨true, Outcome.done_mem_either true f⟩
  | .index base kind args span, hstraight, hflows => by
    simp only [anyInExpr, Bool.or_eq_false_iff] at hstraight
    rw [outwardFlows, Bool.and_eq_true] at hflows
    obtain ⟨b, hb⟩ := outward_runs base hstraight.2.1 hflows.1
    by_cases hmember : kind.isMember = true
    · refine ⟨true, Outcome.mem_andThen hb ?_⟩
      rw [if_pos hmember]
      exact Outcome.done_mem_either true f
    · have hargsFlow : argsFlow c [] args = true := by simpa [hmember] using hflows.2
      obtain ⟨b', hb'⟩ := straightArgs_runs hf args [] (by simpa using hstraight.2.2) hargsFlow
      refine ⟨b', Outcome.mem_andThen hb ?_⟩
      rw [if_neg hmember]
      exact hb'
  | .call func (.mk name value argSpan :: args) span, hstraight, hflows => by
    simp only [anyInExpr, anyInArgs, anyInArg, Bool.or_eq_false_iff] at hstraight
    rw [outwardFlows, Bool.and_eq_true] at hflows
    obtain ⟨b, hb⟩ := outward_runs value hstraight.2.2.1 hflows.1
    obtain ⟨b', hb'⟩ := straightArgs_runs hf args [] hstraight.2.2.2 hflows.2
    exact ⟨b', Outcome.mem_andThen hb hb'⟩
  | .call _ [] _, _, hflows | .logical .., _, hflows | .integer .., _, hflows
  | .double .., _, hflows | .null _, _, hflows | .na .., _, hflows | .binOp .., _, hflows
  | .unaryOp .., _, hflows | .function .., _, hflows | .block .., _, hflows | .ite .., _, hflows
  | .missing _, _, hflows | .unknown _, _, hflows => by simp [outwardFlows] at hflows
termination_by structural target => target

end Straight

/-! ## The walk -/

section Still

variable {c formal} (point : SupplyPoint)

mutual
/-- The walk of straight code that does not read the formal changes nothing. -/
theorem straightExpr_walk : ∀ e, anyInExpr straightWalk stirs e = false →
    anyInExpr .all (namesFormal formal) e = false → walkExpr c formal e point = .ok point
  | .ident name span, _, hname => by
    simp only [anyInExpr, Bool.or_false, namesFormal, decide_eq_false_iff_not] at hname
    rw [walkExpr, if_neg fun h => hname h.1]
  | .call func args span, hstraight, hname => by
    simp only [anyInExpr, Bool.or_eq_false_iff] at hstraight hname
    rw [walkExpr]
    split
    · rfl
    · rw [straightExpr_walk func hstraight.2.1 hname.2.1]
      exact straightArgs_walk args _ hstraight.2.2 hname.2.2
  | .binOp op lhs rhs span, hstraight, hname => by
    simp only [anyInExpr, Bool.or_eq_false_iff, Bool.and_eq_false_iff] at hstraight hname
    have hassign : op ≠ .assign := by
      rintro rfl
      exact absurd hstraight.1 (by simp [stirs])
    have hsuper : op ≠ .superAssign := by
      rintro rfl
      exact absurd hstraight.1 (by simp [stirs])
    have henters (policy : WalkPolicy) : policy.entersLhs op = true := by
      cases op <;> first | rfl | contradiction
    have hlhs := hstraight.2.1.resolve_left (by rw [henters]; decide)
    have hlhsName := hname.2.1.resolve_left (by rw [henters]; decide)
    rw [walkExpr_strict c formal hassign hsuper, straightExpr_walk lhs hlhs hlhsName]
    exact straightExpr_walk rhs hstraight.2.2 hname.2.2
  | .unaryOp op e span, hstraight, hname => by
    simp only [anyInExpr, Bool.or_eq_false_iff] at hstraight hname
    rw [walkExpr]
    exact straightExpr_walk e hstraight.2 hname.2
  | .index base kind args span, hstraight, hname => by
    simp only [anyInExpr, Bool.or_eq_false_iff, WalkPolicy.all, Bool.or_true, Bool.true_and]
      at hstraight hname
    rw [walkExpr, straightExpr_walk base hstraight.2.1 hname.2.1]
    exact straightArgs_walk args [] hstraight.2.2 hname.2.2
  | .block body span, hstraight, hname => by
    simp only [anyInExpr, Bool.or_eq_false_iff] at hstraight hname
    rw [walkExpr]
    exact straightStmts_walk body hstraight.2 hname.2
  | .ite .., hstraight, _ => by simp [anyInExpr, stirs] at hstraight
  | .function .., _, _ | .logical .., _, _ | .integer .., _, _ | .double .., _, _
  | .string .., _, _ | .null _, _, _ | .na .., _, _ | .unknown _, _, _ | .missing _, _, _ => by
    rw [walkExpr]
termination_by structural e => e
theorem straightStmt_walk : ∀ s, anyInStmt straightWalk stirs s = false →
    anyInStmt .all (namesFormal formal) s = false → walkStmt c formal s point = .ok point
  | .assign .., hstraight, _ | .ite .., hstraight, _ | .forLoop .., hstraight, _
  | .whileLoop .., hstraight, _ => by simp [anyInStmt, stirs] at hstraight
  | .expr e, hstraight, hname => by
    simp only [anyInStmt, Bool.or_eq_false_iff] at hstraight hname
    rw [walkStmt]
    exact straightExpr_walk e hstraight.2 hname.2
  | .functionDef .., _, _ => by rw [walkStmt]
  | .ret value span, hstraight, hname => by
    simp only [anyInStmt, Bool.or_eq_false_iff] at hstraight hname
    rw [walkStmt]
    exact straightOption_walk value hstraight.2 hname.2
termination_by structural s => s
theorem straightStmts_walk : ∀ ss, anyInStmts straightWalk stirs ss = false →
    anyInStmts .all (namesFormal formal) ss = false → walkStmts c formal ss point = .ok point
  | [], _, _ => rfl
  | s :: ss, hstraight, hname => by
    simp only [anyInStmts, Bool.or_eq_false_iff] at hstraight hname
    rw [walkStmts, straightStmt_walk s hstraight.1 hname.1]
    exact straightStmts_walk ss hstraight.2 hname.2
termination_by structural ss => ss
theorem straightOption_walk : ∀ o, anyInOption straightWalk stirs o = false →
    anyInOption .all (namesFormal formal) o = false → walkOption c formal o point = .ok point
  | none, _, _ => rfl
  | some e, hstraight, hname => straightExpr_walk e hstraight hname
termination_by structural o => o
theorem straightArgs_walk : ∀ args captured, anyInArgs straightWalk stirs args = false →
    anyInArgs .all (namesFormal formal) args = false →
    walkArgs c formal captured args point = .ok point
  | [], _, _, _ => rfl
  | arg :: args, captured, hstraight, hname => by
    simp only [anyInArgs, Bool.or_eq_false_iff] at hstraight hname
    have harg := straightArg_walk arg hstraight.1 hname.1
    have hargs := straightArgs_walk args captured.tail hstraight.2 hname.2
    rw [walkArgs, harg, ite_self]
    exact hargs
termination_by structural args => args
theorem straightArg_walk : ∀ arg, anyInArg straightWalk stirs arg = false →
    anyInArg .all (namesFormal formal) arg = false → walkArg c formal arg point = .ok point
  | .mk _ value _, hstraight, hname => straightExpr_walk value hstraight hname
termination_by structural arg => arg
end

end Still

/-! ## Conditions -/

section Names

variable {hit : AstNode → Bool} {name : String}
  (h : ∀ span, hit (.expr (.ident name span)) = true)

include h

-- the linter does not see the hypothesis through the mutual recursion
set_option linter.unusedSectionVars false in
mutual
/-- A name that decides a truth value occurs. -/
theorem anyInExpr_truthName : ∀ e, name ∈ exprTruthNames e → anyInExpr .all hit e = true
  | .ident _ span, hmem => by
    obtain rfl := List.mem_singleton.mp hmem
    exact anyInExpr_of_hit _ _ (h span)
  | .unaryOp op e _, hmem => by
    cases op with
    | neg => exact absurd hmem List.not_mem_nil
    | not => simp [anyInExpr, anyInExpr_truthName e hmem]
  | .binOp op lhs rhs _, hmem => by
    have hlhs := anyInExpr_truthName lhs
    have hrhs := anyInExpr_truthName rhs
    cases op <;> simp only [exprTruthNames, List.mem_append, List.not_mem_nil] at hmem
    · rcases hmem with hmem | hmem
      · simp [anyInExpr, WalkPolicy.entersLhs, hlhs hmem]
      · simp [anyInExpr, hrhs hmem]
    · rcases hmem with hmem | hmem
      · simp [anyInExpr, WalkPolicy.entersLhs, hlhs hmem]
      · simp [anyInExpr, hrhs hmem]
    · simp [anyInExpr, hrhs hmem]
    · simp [anyInExpr, hrhs hmem]
  | .block body _, hmem => by simp [anyInExpr, anyInStmts_truthName body hmem]
  | .ite cond thenBranch elseBranch _, hmem => by
    rcases List.mem_append.mp hmem with hmem | hmem
    · simp [anyInExpr, anyInExpr_truthName thenBranch hmem]
    · simp [anyInExpr, anyInOption_truthName elseBranch hmem]
  | .call .., hmem | .index .., hmem | .function .., hmem | .logical .., hmem | .integer .., hmem
  | .double .., hmem | .string .., hmem | .null _, hmem | .na .., hmem | .unknown _, hmem
  | .missing _, hmem => absurd hmem List.not_mem_nil
termination_by structural e => e
theorem anyInStmt_truthName : ∀ s, name ∈ stmtTruthNames s → anyInStmt .all hit s = true
  | .assign target value _, hmem => by simp [anyInStmt, anyInExpr_truthName value hmem]
  | .expr e, hmem => by simp [anyInStmt, anyInExpr_truthName e hmem]
  | .ite cond thenBranch elseBranch _, hmem => by
    rcases List.mem_append.mp hmem with hmem | hmem
    · simp [anyInStmt, anyInStmts_truthName thenBranch hmem]
    · simp [anyInStmt, anyInElse_truthName elseBranch hmem]
  | .forLoop .., hmem | .whileLoop .., hmem | .functionDef .., hmem | .ret .., hmem =>
    absurd hmem List.not_mem_nil
termination_by structural s => s
theorem anyInStmts_truthName : ∀ ss, name ∈ stmtsTruthNames ss → anyInStmts .all hit ss = true
  | [], hmem => absurd hmem List.not_mem_nil
  | s :: ss, hmem => by
    have hs := anyInStmt_truthName s
    have hss := anyInStmts_truthName ss
    rw [stmtsTruthNames] at hmem
    split at hmem
    · simp [anyInStmts, hs hmem]
    · simp [anyInStmts, hss hmem]
termination_by structural ss => ss
theorem anyInElse_truthName : ∀ o, name ∈ elseTruthNames o → anyInElseStmts .all hit o = true
  | none, hmem => absurd hmem List.not_mem_nil
  | some ss, hmem => anyInStmts_truthName ss hmem
termination_by structural o => o
theorem anyInOption_truthName : ∀ o, name ∈ optionTruthNames o → anyInOption .all hit o = true
  | none, hmem => absurd hmem List.not_mem_nil
  | some e, hmem => anyInExpr_truthName e hmem
termination_by structural o => o
end

end Names

theorem testNode_empty (proxies : String → Option Bool) {node : AstNode}
    (h : testNode formal ∅ node = true) : supplyTestNode formal proxies node = true := by
  cases node with
  | stmt s => cases h
  | expr e =>
    cases e with
    | ident name span => simp [testNode, supplyTestNode] at h
    | call func args span => exact h
    | _ => cases h

/-- A condition without information has no test. -/
theorem noTest_of_mentionAtom {e : Expr} {point : SupplyPoint}
    (h : mentionAtom formal e point = .noInfo) :
    mentionsSupplyTest formal e point = false ∧ anyInExpr .all (testNode formal ∅) e = false := by
  have hmention : mentionsSupplyTest formal e point = false := by
    by_contra htrue
    rw [Bool.not_eq_false] at htrue
    simp [mentionAtom, htrue] at h
  refine ⟨hmention, ?_⟩
  by_contra htest
  rw [Bool.not_eq_false] at htest
  have hsome := anyInExpr_mono (fun _ => testNode_empty formal point.proxies) e htest
  rw [mentionsSupplyTest, hsome] at hmention
  cases hmention

@[simp] theorem testNode_unaryOp (op : UnaryOpKind) (e : Expr) (span : Span) :
    testNode formal ∅ (.expr (.unaryOp op e span)) = false := rfl

@[simp] theorem testNode_binOp (op : BinOpKind) (lhs rhs : Expr) (span : Span) :
    testNode formal ∅ (.expr (.binOp op lhs rhs span)) = false := rfl

variable {formal} in
theorem noTest_of_noInfo {point : SupplyPoint} : ∀ (e : Expr) (polarity : Bool),
    atom formal e polarity point = .noInfo → anyInExpr .all (testNode formal ∅) e = false
  | .unaryOp op e _, polarity, h => by
    cases op with
    | not =>
      rw [atom] at h
      simp [anyInExpr, noTest_of_noInfo e _ h]
    | neg => exact (noTest_of_mentionAtom formal h).2
  | .call func args span, polarity, h => by
    rw [atom] at h
    split at h
    · cases h
    · exact (noTest_of_mentionAtom formal h).2
  | .ident name span, _, _ => by simp [anyInExpr, testNode, supplyTestNode]
  | .binOp op lhs rhs span, polarity, h => by
    have hl : atom formal lhs true point = .noInfo → _ := noTest_of_noInfo lhs true
    have hr : atom formal rhs true point = .noInfo → _ := noTest_of_noInfo rhs true
    cases op with
    | andAnd =>
      have hcombined :
          (atom formal lhs true point).combineAnd (atom formal rhs true point) = .noInfo := by
        cases polarity <;> simpa [atom] using h
      obtain ⟨hleft, hright⟩ := AtomOutcome.combineAnd_eq_noInfo hcombined
      simp [anyInExpr, hl hleft, hr hright]
    | orOr =>
      have hcombined :
          (atom formal lhs true point).combineOr (atom formal rhs true point) = .noInfo := by
        cases polarity <;> simpa [atom] using h
      obtain ⟨hleft, hright⟩ := AtomOutcome.combineOr_eq_noInfo hcombined
      simp [anyInExpr, hl hleft, hr hright]
    | _ => exact (noTest_of_mentionAtom formal h).2
  | .index .., _, h | .function .., _, h | .block .., _, h | .ite .., _, h | .logical .., _, h
  | .integer .., _, h | .double .., _, h | .string .., _, h | .null _, _, h | .na .., _, h
  | .unknown _, _, h | .missing _, _, h =>
    (noTest_of_mentionAtom formal h).2
termination_by structural e => e

/-- The truth value a fact belongs to can come about, unless the fact is `supplied`; and the two
facts are not both. -/
structure Realized (truth : Bool) (facts : Supply × Supply) (os : Runs) (f : Frame) : Prop where
  asserted : facts.1 ≠ .supplied → .done truth f ∈ os
  denied : facts.2 ≠ .supplied → .done (!truth) f ∈ os
  either : facts.1 ≠ .supplied ∨ facts.2 ≠ .supplied

theorem Realized.of_all {truth : Bool} {facts : Supply × Supply} {os : Runs} {f : Frame}
    (h : ∀ b, .done b f ∈ os) (hfacts : facts.1 ≠ .supplied ∨ facts.2 ≠ .supplied) :
    Realized truth facts os f := ⟨fun _ => h _, fun _ => h _, hfacts⟩

/-- A condition that asserts the opposite. -/
theorem Realized.swap {truth : Bool} {facts : Supply × Supply} {os : Runs} {f : Frame}
    (h : Realized truth facts os f) : Realized (!truth) (facts.2, facts.1) os f := by
  refine ⟨h.denied, ?_, h.either.symm⟩
  rw [Bool.not_not]
  exact h.asserted

/-- The facts of a junction that stops at `stop`, from those of its operands. -/
theorem Realized.junction {stop : Bool} {l r : Supply × Supply} {lhs : Runs} {rhs : Frame → Runs}
    {f : Frame} (hl : Realized (!stop) l lhs f) (hr : Realized (!stop) r (rhs f) f)
    (hcoherent : ¬ (l.1 = .defaulted ∧ r.1 = .supplied)) :
    Realized (!stop) (l.1.refine r.1, l.2.merge r.2)
      (Outcome.andThen lhs fun b f => if b = stop then [.done stop f] else rhs f) f := by
  have hgo {o : Outcome Frame Span} (hleft : .done (!stop) f ∈ lhs) (ho : o ∈ rhs f) :
      o ∈ Outcome.andThen lhs fun b f => if b = stop then [.done stop f] else rhs f := by
    refine Outcome.mem_andThen hleft ?_
    rwa [if_neg (by simp)]
  refine ⟨fun hne => ?_, fun hne => ?_, ?_⟩
  · -- both operands are asserted
    have hboth : l.1 ≠ .supplied ∧ r.1 ≠ .supplied := by
      obtain ⟨l₁, l₂⟩ := l
      obtain ⟨r₁, r₂⟩ := r
      cases l₁ <;> cases r₁ <;> simp_all [Supply.refine]
    exact hgo (hl.asserted hboth.1) (hr.asserted hboth.2)
  · -- one operand is denied, and the left one can be asserted where it cannot be denied
    rw [Ne, Supply.merge_eq_supplied, not_and_or] at hne
    by_cases hleft : l.2 = .supplied
    · exact hgo (hl.asserted (hl.either.resolve_right (not_not.mpr hleft)))
        (hr.denied (hne.resolve_left (not_not.mpr hleft)))
    · refine Outcome.mem_andThen (hl.denied hleft) ?_
      simp
  · by_cases hmerge : l.2.merge r.2 = .supplied
    · obtain ⟨hl₂, hr₂⟩ := Supply.merge_eq_supplied.mp hmerge
      have hl₁ := hl.either.resolve_right (not_not.mpr hl₂)
      have hr₁ := hr.either.resolve_right (not_not.mpr hr₂)
      refine .inl ?_
      simp only [Supply.refine]
      split
      · exact hr₁
      · exact hl₁
    · exact .inr hmerge

section Conditions

variable {c formal} {point : SupplyPoint} {f : Frame}

/-- The test itself: with the formal omitted it is true. -/
theorem realized_missing {os : Runs} {polarity : Bool} (h : .done true f ∈ os) :
    Realized polarity (missingAtom polarity).facts os f := by
  cases polarity with
  | false => exact ⟨fun hne => absurd rfl hne, fun _ => h, .inr (by decide)⟩
  | true => exact ⟨fun _ => h, fun hne => absurd rfl hne, .inl (by decide)⟩

/-- A name that holds the test or its negation. -/
theorem realized_cached {os : Runs} {polarity negated : Bool} (h : .done (!negated) f ∈ os) :
    Realized polarity (missingAtom (polarity != negated)).facts os f := by
  cases negated with
  | false =>
    rw [Bool.bne_false]
    exact realized_missing h
  | true =>
    rw [Bool.bne_true]
    cases polarity with
    | false => exact ⟨fun _ => h, fun hne => absurd rfl hne, .inl (by decide)⟩
    | true => exact ⟨fun hne => absurd rfl hne, fun _ => h, .inr (by decide)⟩

/-- A direct test completes with the truth: the argument is omitted. -/
theorem missingTest_runs {func : Expr} {args : List Arg} {span : Span} (hf : f.rebound = false)
    (htest : isMissingTestCall formal func args = true)
    (hflows : exprFlows c (.call func args span) = true) :
    exprRuns c formal (.call func args span) f = [.done true f] := by
  simp only [isMissingTestCall, Bool.and_eq_true] at htest
  obtain ⟨⟨-, hhead⟩, hformal⟩ := htest
  rw [exprFlows, if_pos hhead] at hflows
  unfold isNamed at hflows
  split at hflows
  · have hname := hformal
    simp only [List.head?_cons, Option.any_some, Arg.value, referencesFormal, anyInExpr,
      namesFormal, Bool.or_false, decide_eq_true_eq] at hname
    subst hname
    rw [exprRuns, if_pos hhead]
    simp [missingRuns, hf]
  · cases hflows

variable (hm : Matches tested point f)

include hm

/-- Code without information of the formal may have either truth value. -/
theorem realized_noInfo {e : Expr} {polarity : Bool}
    (hstraight : isStraight e = true) (hflows : exprFlows c e = true)
    (hnames : ∀ name ∈ exprTruthNames e, name ∈ tested → (point.proxies name).isSome)
    (h : mentionAtom formal e point ≠ .mention) :
    Realized polarity (mentionAtom formal e point).facts (exprRuns c formal e f) f := by
  have hnone : mentionAtom formal e point = .noInfo := by
    unfold mentionAtom at h ⊢
    split
    · rename_i hmention
      exact absurd (if_pos hmention) h
    · rfl
  obtain ⟨hmention, htest⟩ := noTest_of_mentionAtom formal hnone
  have hfree : Free tested (anyInExpr .all (testNode formal ∅) e) (exprTruthNames e) := by
    refine ⟨htest, fun name hname htested => ?_⟩
    have hproxy := hnames name hname htested
    have hoccurs : mentionsSupplyTest formal e point = true :=
      anyInExpr_truthName (fun _ => hproxy) e hname
    rw [hmention] at hoccurs
    cases hoccurs
  obtain ⟨b₀, hb⟩ := @straightExpr_runs c formal tested f hm.covered e
    (by simpa [isStraight] using hstraight) hflows
  rw [hnone]
  exact .of_all (fun b => hb b (.inr hfree)) (.inl (by decide))

/-- A decoded condition means what it is decoded into. -/
theorem atom_runs : ∀ (e : Expr) (polarity : Bool), isStraight e = true → exprFlows c e = true →
    isCoherent formal point e = true →
    (∀ name ∈ exprTruthNames e, name ∈ tested → (point.proxies name).isSome) →
    atom formal e polarity point ≠ .mention →
    Realized polarity (atom formal e polarity point).facts (exprRuns c formal e f) f
  | .unaryOp op e span, polarity, hstraight, hflows, hcoherent, hnames, h => by
    cases op with
    | not =>
      have hinner : isStraight e = true := by simpa [isStraight, anyInExpr, stirs] using hstraight
      have he := atom_runs e (!polarity) hinner hflows hcoherent hnames h
      refine ⟨fun hne => ?_, fun hne => ?_, he.either⟩
      · exact Outcome.mem_andThen (he.asserted hne) (by simp)
      · exact Outcome.mem_andThen (he.denied hne) (by simp)
    | neg => exact realized_noInfo hm hstraight hflows hnames h
  | .call func args span, polarity, hstraight, hflows, _, hnames, h => by
    by_cases htest : isMissingTestCall formal func args = true
    · have hatom : atom formal (.call func args span) polarity point = missingAtom polarity := by
        rw [atom, if_pos htest]
      rw [hatom, missingTest_runs hm.omitted htest hflows]
      exact realized_missing (List.mem_singleton.mpr rfl)
    · have hatom : atom formal (.call func args span) polarity point =
          mentionAtom formal (.call func args span) point := by
        rw [atom, if_neg htest]
      rw [hatom] at h ⊢
      exact realized_noInfo hm hstraight hflows hnames h
  | .ident name span, polarity, hstraight, hflows, _, hnames, h => by
    cases hproxy : point.proxies name with
    | none =>
      have hatom : atom formal (.ident name span) polarity point =
          mentionAtom formal (.ident name span) point := by
        simp [atom, hproxy, mentionAtom, mentionsSupplyTest, anyInExpr, supplyTestNode]
      rw [hatom] at h ⊢
      exact realized_noInfo hm hstraight hflows hnames h
    | some negated =>
      have hatom : atom formal (.ident name span) polarity point =
          missingAtom (polarity != negated) := by
        simp [atom, hproxy]
      rw [hatom]
      refine realized_cached ?_
      rw [exprRuns]
      split
      · exact List.mem_append_right _ (Outcome.done_mem_either _ _)
      · rw [hm.cached name negated hproxy]
        exact List.mem_singleton.mpr rfl
  | .binOp op lhs rhs span, polarity, hstraight, hflows, hcoherent, hnames, h => by
    cases hstop : stopsAt op with
    | none =>
      have hatom : atom formal (.binOp op lhs rhs span) polarity point =
          mentionAtom formal (.binOp op lhs rhs span) point := by
        cases op <;> first | rfl | cases hstop
      rw [hatom] at h ⊢
      exact realized_noInfo hm hstraight hflows hnames h
    | some stop =>
      have hsuper : op ≠ .superAssign := by
        rintro rfl
        cases hstop
      rw [exprFlows_binOp c hsuper, Bool.and_eq_true] at hflows
      rw [truthNames_junction hstop] at hnames
      have hparts : isStraight lhs = true ∧ isStraight rhs = true := by
        cases op with
        | andAnd => simpa [isStraight, anyInExpr, stirs, WalkPolicy.entersLhs] using hstraight
        | orOr => simpa [isStraight, anyInExpr, stirs, WalkPolicy.entersLhs] using hstraight
        | _ => cases hstop
      have hl := atom_runs lhs true hparts.1 hflows.1
      have hr := atom_runs rhs true hparts.2 hflows.2
      have hnamesL : ∀ name ∈ exprTruthNames lhs, name ∈ tested → (point.proxies name).isSome :=
        fun name hname => hnames name (List.mem_append_left _ hname)
      have hnamesR : ∀ name ∈ exprTruthNames rhs, name ∈ tested → (point.proxies name).isSome :=
        fun name hname => hnames name (List.mem_append_right _ hname)
      rw [exprRuns_junction c formal hstop]
      cases op with
      | andAnd =>
        obtain rfl := Option.some.inj hstop
        simp only [isCoherent, Bool.and_eq_true, Bool.not_eq_true', decide_eq_false_iff_not]
          at hcoherent
        have hcombined : (atom formal lhs true point).combineAnd (atom formal rhs true point) ≠
            .mention := by
          cases polarity <;> simpa [atom] using h
        obtain ⟨hl', hr'⟩ := AtomOutcome.combineAnd_ne_mention hcombined
        have hleft : Realized (!false) _ _ _ := hl hcoherent.1.1 hnamesL hl'
        have hboth := hleft.junction (hr hcoherent.1.2 hnamesR hr') hcoherent.2
        rw [← AtomOutcome.facts_combineAnd hcombined] at hboth
        cases polarity with
        | true => exact hboth
        | false =>
          have hswap := hboth.swap
          rw [← AtomOutcome.facts_swapped] at hswap
          exact hswap
      | orOr =>
        obtain rfl := Option.some.inj hstop
        simp only [isCoherent, Bool.and_eq_true, Bool.not_eq_true', decide_eq_false_iff_not]
          at hcoherent
        have hcombined : (atom formal lhs true point).combineOr (atom formal rhs true point) ≠
            .mention := by
          cases polarity <;> simpa [atom] using h
        obtain ⟨hl', hr'⟩ := AtomOutcome.combineOr_ne_mention hcombined
        -- a disjunction is the negation of the conjunction of the negations
        have hboth := (hl hcoherent.1.1 hnamesL hl').swap.junction
          (hr hcoherent.1.2 hnamesR hr').swap hcoherent.2
        have hfacts := AtomOutcome.facts_combineOr hcombined
        cases polarity with
        | true =>
          have hswap := hboth.swap
          rw [Bool.not_not] at hswap
          exact hfacts ▸ hswap
        | false =>
          have hswapped := AtomOutcome.facts_swapped
            ((atom formal lhs true point).combineOr (atom formal rhs true point))
          rw [hfacts] at hswapped
          exact hswapped ▸ hboth
      | _ => cases hstop
  | .index .., _, hstraight, hflows, _, hnames, h | .function .., _, hstraight, hflows, _, hnames, h
  | .block .., _, hstraight, hflows, _, hnames, h | .ite .., _, hstraight, hflows, _, hnames, h
  | .logical .., _, hstraight, hflows, _, hnames, h
  | .integer .., _, hstraight, hflows, _, hnames, h
  | .double .., _, hstraight, hflows, _, hnames, h
  | .string .., _, hstraight, hflows, _, hnames, h | .null _, _, hstraight, hflows, _, hnames, h
  | .na .., _, hstraight, hflows, _, hnames, h | .unknown _, _, hstraight, hflows, _, hnames, h
  | .missing _, _, hstraight, hflows, _, hnames, h =>
    realized_noInfo hm hstraight hflows hnames h
termination_by structural e => e

end Conditions

end Ry.FormalSupply
