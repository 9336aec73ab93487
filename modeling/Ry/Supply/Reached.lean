import Ry.Supply.Sound

/-! # Reports name reads that can be reached

Where every place the walk comes to is in order, the read it reports is one that some execution with
the formal omitted reaches while the formal still holds its default.
-/

namespace Ry.FormalSupply

variable {c : Checker} {formal : String} {tested : Finset String}

/-! ## Every form -/

/-- A value that is itself an outward assignment. -/
def isSuper : Expr → Bool
  | .binOp .superAssign _ _ _ => true
  | _ => false

section Plain

variable {target value : Expr} (h : isSuper value = false) (span : Span)

include h

theorem walkStmt_plain (point : SupplyPoint) : walkStmt c formal (.assign target value span) point =
    (walkExpr c formal value point).bind
      (assignTo formal target value (walkExpr c formal target)) := by
  cases value with
  | binOp op _ _ _ => cases op <;> first | rfl | cases h
  | _ => rfl

theorem stmtRuns_plain (f : Frame) : stmtRuns c formal (.assign target value span) f =
    Outcome.andThen (exprRuns c formal value f) fun b f =>
      assignRuns formal target value b (exprRuns c formal target) f := by
  have houtward : isOutward span value = false := by
    cases value with
    | binOp op _ _ _ => cases op <;> first | rfl | cases h
    | _ => rfl
  rw [stmtRuns]
  simp only [houtward]
  rfl

theorem stmtFlows_plain : stmtFlows c (.assign target value span) =
    (exprFlows c value && exprFlows c target) := by
  cases value with
  | binOp op _ _ _ => cases op <;> first | rfl | cases h
  | _ => rfl

theorem visitStmt_plain (point : SupplyPoint) :
    visitStmt c formal (.assign target value span) point =
    [(.stmt (.assign target value span), point)] ++ (visitExpr c formal value point ++
      after (walkExpr c formal value point)
        (visitTarget target (walkExpr c formal target) (visitExpr c formal target))) := by
  cases value with
  | binOp op _ _ _ => cases op <;> first | rfl | cases h
  | _ => rfl

theorem Ok.plain {point : SupplyPoint}
    (hok : Ok c formal tested (.stmt (.assign target value span)) point) (hopen : point.Open) :
    AssignOk c formal tested target value := by
  cases value with
  | binOp op _ _ _ => cases op <;> first | exact hok hopen | cases h
  | _ => exact hok hopen

end Plain

theorem plainArgs_walk (point : SupplyPoint) : ∀ (args : List Arg) (captured : List Bool),
    (args.all fun arg => isPlainName formal arg.value) = true →
    walkArgs c formal captured args point = .ok point
  | [], _, _ => rfl
  | .mk name value span :: args, captured, h => by
    rw [List.all_cons, Bool.and_eq_true] at h
    have harg : walkArg c formal (.mk name value span) point = .ok point := by
      cases value with
      | ident text textSpan =>
        have hne : text ≠ formal := by simpa [isPlainName, Arg.value] using h.1
        rw [walkArg, walkExpr, if_neg fun h => hne h.1]
      | string text textSpan => rfl
      | _ => exact absurd h.1 (by simp [isPlainName, Arg.value])
    rw [walkArgs, harg, ite_self]
    exact plainArgs_walk point args captured.tail h.2

theorem ok_own {site : Site} {point : SupplyPoint} (h : AllOk c formal tested [(site, point)]) :
    Ok c formal tested site point :=
  h (site, point) (List.mem_singleton.mpr rfl)

/-- An assignment to any target, from its parts. -/
theorem Sound.assign {target value : Expr}
    (hvalue : ExprSound c formal tested value)
    (htarget : ExprSound c formal tested target)
    (own : SupplyPoint → Visits)
    (hok : ∀ point, AllOk c formal tested (own point) → point.Open →
      AssignOk c formal tested target value) :
    AssignSound c formal tested target value (exprFlows c target) own := by
  cases target with
  | ident name span => exact hvalue.assignName hok
  | string name span => exact hvalue.assignString hok
  | _ => exact hvalue.assignComplex rfl htarget hok

theorem visitExpr_superAssign (lhs rhs : Expr) (span : Span) (point : SupplyPoint) :
    visitExpr c formal (.binOp .superAssign lhs rhs span) point =
      (.expr (.binOp .superAssign lhs rhs span), point) :: (visitExpr c formal rhs point ++
        after (walkExpr c formal rhs point) fun point =>
          match lhs with
          | .ident .. => []
          | lhs => visitExpr c formal lhs point) := by
  cases lhs <;> simp only [visitExpr]

/-- `x <<- value` inside an expression: the local promise survives. -/
theorem superAssign_sound {lhs rhs : Expr} {span : Span}
    (hl : ExprSound c formal tested lhs)
    (hr : ExprSound c formal tested rhs) :
    ExprSound c formal tested (.binOp .superAssign lhs rhs span) := by
  have hflows (h : exprFlows c (.binOp .superAssign lhs rhs span) = true) :
      exprFlows c rhs = true := by
    rw [exprFlows, Bool.and_eq_true] at h
    exact h.1
  have hfree (h : FreeExpr formal tested (.binOp .superAssign lhs rhs span)) :
      FreeExpr formal tested rhs :=
    h.mono (fun ht => by simp [anyInExpr, ht]) fun name hname => hname
  -- a target that is a plain name ends the walk
  have hplain (hwalk : ∀ point, walkExpr c formal (.binOp .superAssign lhs rhs span) point =
        walkExpr c formal rhs point)
      (hruns : ∀ f, outwardRuns c formal lhs f = Outcome.either f) :
      ExprSound c formal tested (.binOp .superAssign lhs rhs span) := by
    refine (hr.map hflows (fun point hok => ?_)
      fun _ b₀ => ⟨b₀, fun b hb => ⟨b, hb.imp id hfree, fun f => ?_⟩⟩).congr hwalk fun f => by
        rw [exprRuns]
    · rw [visitExpr_superAssign] at hok
      exact (allOk_append.mp (allOk_cons.mp hok).2).1
    · refine Outcome.mem_andThen (b := true) ?_ (List.mem_singleton.mpr rfl)
      rw [hruns]
      exact Outcome.done_mem_either true f
  have hother (hcomplex : isComplex lhs = true) :
      ExprSound c formal tested (.binOp .superAssign lhs rhs span) := by
    constructor
    · intro point f hok hopen _
      rw [visitExpr_superAssign] at hok
      have hat := (allOk_cons.mp hok).1 hopen
      cases lhs <;> first | exact absurd hat id | cases hcomplex
    · intro point hok hquiet
      rw [visitExpr_superAssign] at hok
      obtain ⟨hfirst, hsecond⟩ := allOk_append.mp (allOk_cons.mp hok).2
      obtain ⟨next, hnext, hnextQuiet⟩ := hr.quiet hfirst hquiet
      rw [hnext] at hsecond
      have hlhs : AllOk c formal tested (visitExpr c formal lhs next) := by
        cases lhs <;> first | exact hsecond | cases hcomplex
      obtain ⟨last, hlast, hlastQuiet⟩ := hl.quiet hlhs hnextQuiet
      refine ⟨last, ?_, hlastQuiet⟩
      rw [walkExpr, hnext, ← hlast]
      cases lhs <;> first | rfl | cases hcomplex
  cases lhs with
  | ident name nameSpan =>
    refine hplain (fun point => ?_) fun f => by rw [outwardRuns]
    rw [walkExpr]
    cases walkExpr c formal rhs point <;> rfl
  | string name nameSpan =>
    refine hplain (fun point => ?_) fun f => by rw [outwardRuns]
    rw [walkExpr]
    cases walkExpr c formal rhs point <;> rfl
  | _ => exact hother rfl

/-- The statement `x <<- value`. -/
theorem outwardStmt_sound {target lhs rhs : Expr} {operation span : Span}
    (hr : ExprSound c formal tested rhs) :
    Sound c formal tested
      (walkStmt c formal (.assign target (.binOp .superAssign lhs rhs operation) span))
      (stmtRuns c formal (.assign target (.binOp .superAssign lhs rhs operation) span))
      (stmtFlows c (.assign target (.binOp .superAssign lhs rhs operation) span))
      (Free tested (anyInStmt .all (testNode formal ∅)
        (.assign target (.binOp .superAssign lhs rhs operation) span))
        (stmtTruthNames (.assign target (.binOp .superAssign lhs rhs operation) span)))
      (visitStmt c formal (.assign target (.binOp .superAssign lhs rhs operation) span)) := by
  constructor
  · intro point f hok hopen hm
    obtain ⟨hat, hrest⟩ := allOk_cons.mp hok
    obtain ⟨houtward, hstraight⟩ := hat hopen
    have hhere := hr.reaches hrest hopen hm
    rw [walkStmt]
    cases hwalk : walkExpr c formal rhs point with
    | error place =>
      rw [hwalk] at hhere
      exact Outcome.reached_andThen (Outcome.reached_andThen hhere _) _
    | ok next =>
      rw [hwalk] at hhere
      intro hflows hnext
      rw [stmtFlows, exprFlows, Bool.and_eq_true, Bool.and_eq_true] at hflows
      obtain ⟨b₀, hb⟩ := hhere hflows.1.1 hnext
      refine ⟨b₀, fun b hb' => ?_⟩
      obtain ⟨f', hf', hm'⟩ := hb b (hb'.imp id fun h =>
        h.mono (fun ht => by simp [anyInStmt, anyInExpr, ht]) fun name hname => hname)
      obtain ⟨b', hb'⟩ := @outward_runs c formal tested f' hm'.covered lhs
        (by simpa [isStraight] using hstraight) hflows.1.2
      refine ⟨f', Outcome.mem_andThen (Outcome.mem_andThen hf'
        (Outcome.mem_andThen hb' (List.mem_singleton.mpr rfl))) ?_, hm'⟩
      rw [if_pos houtward]
      exact List.mem_singleton.mpr rfl
  · intro point hok hquiet
    exact hr.quiet (allOk_cons.mp hok).2 hquiet

/-- The test itself is not a read. -/
theorem testCall_sound {func : Expr} {args : List Arg} {span : Span}
    (htest : isMissingTestCall formal func args = true) :
    ExprSound c formal tested (.call func args span) := by
  have hwalk (point : SupplyPoint) :
      walkExpr c formal (.call func args span) point = .ok point := by
    rw [walkExpr, if_pos htest]
  refine ⟨fun {point f} _ _ hm => ?_, fun {point} _ hquiet => ⟨point, hwalk point, hquiet⟩⟩
  rw [hwalk]
  intro hflows _
  rw [missingTest_runs hm.omitted htest hflows]
  refine ⟨true, fun b hb => ⟨f, ?_, hm⟩⟩
  rcases hb with rfl | hfree
  · exact List.mem_singleton.mpr rfl
  · have hhit : anyInExpr .all (testNode formal ∅) (.call func args span) = true :=
      anyInExpr_of_hit _ _ htest
    rw [FreeExpr, hhit] at hfree
    exact absurd hfree.1 (by decide)

section Call

variable {func : Expr} {args : List Arg} {span : Span}
  (htest : ¬ isMissingTestCall formal func args = true)

include htest

theorem walkExpr_call (point : SupplyPoint) : walkExpr c formal (.call func args span) point =
    (walkExpr c formal func point).bind
      (walkArgs c formal (c.capturedArguments func args) args) := by
  rw [walkExpr, if_neg htest]
  rfl

theorem visitExpr_call (point : SupplyPoint) : visitExpr c formal (.call func args span) point =
    [(.expr (.call func args span), point)] ++ (visitExpr c formal func point ++
      after (walkExpr c formal func point)
        (visitArgs c formal (c.capturedArguments func args) args)) := by
  rw [visitExpr, if_neg htest]
  rfl

variable (hfunc : ExprSound c formal tested func)
  (hargs : ArgsSound c formal tested (c.capturedArguments func args) args)

include hfunc hargs

/-- `missing` of another name -/
theorem missingCall_sound (hhead : isMissingHead func = true) :
    ExprSound c formal tested (.call func args span) := by
  refine ⟨fun {point f} hok hopen hm => ?_, fun {point} hok hquiet => ?_⟩
  · -- `missing` of another name
    rw [visitExpr_call htest] at hok
    have hat := ok_own (allOk_append.mp hok).1
    simp only [Ok, if_pos hhead] at hat
    obtain ⟨hnamed, hne⟩ := hat hopen (by simpa using htest)
    obtain ⟨text, textSpan, rfl⟩ : ∃ text textSpan, func = .ident text textSpan := by
      cases func with
      | ident text textSpan => exact ⟨text, textSpan, rfl⟩
      | _ => cases hhead
    obtain ⟨tag, name, nameSpan, argSpan, rfl⟩ :
        ∃ tag name nameSpan argSpan, args = [.mk tag (.ident name nameSpan) argSpan] := by
      unfold isNamed at hnamed
      split at hnamed
      · exact ⟨_, _, _, _, rfl⟩
      · cases hnamed
    have hname : name ≠ formal := by
      rintro rfl
      exact htest (isMissingTestCall_self hhead tag nameSpan argSpan)
    have htext : text ≠ formal := fun heq => hne (congrArg some heq)
    have hsame : walkExpr c formal (.call (.ident text textSpan)
        [.mk tag (.ident name nameSpan) argSpan] span) point = .ok point := by
      rw [walkExpr_call htest, walkExpr, if_neg fun h => htext h.1]
      exact plainArgs_walk point _ _ (by simp [isPlainName, Arg.value, hname])
    rw [hsame, exprRuns, if_pos hhead]
    simp only [missingRuns, if_neg hname]
    exact .of_done fun b => ⟨f, Outcome.done_mem_either b f, hm⟩
  · rw [visitExpr_call htest] at hok
    obtain ⟨hfirst, hsecond⟩ := allOk_append.mp (allOk_append.mp hok).2
    obtain ⟨next, hnext, hnextQuiet⟩ := hfunc.quiet hfirst hquiet
    rw [hnext] at hsecond
    obtain ⟨last, hlast, hlastQuiet⟩ := hargs.quiet hsecond hnextQuiet
    refine ⟨last, ?_, hlastQuiet⟩
    rw [walkExpr_call htest, hnext]
    exact hlast

theorem otherCall_sound (hhead : ¬ isMissingHead func = true) :
    ExprSound c formal tested (.call func args span) := by
  have hleave : Sound c formal tested (walkArgs c formal (c.capturedArguments func args) args)
      (fun f => Outcome.andThen (argsRuns c formal (c.capturedArguments func args) args f)
        fun _ f => if callLeaves c func then [.left] else Outcome.either f)
      (exprFlows c (.call func args span))
      (FreeExpr formal tested (.call func args span))
      (visitArgs c formal (c.capturedArguments func args) args) := by
    have hparts (hflows : exprFlows c (.call func args span) = true) :
        argsFlow c (c.capturedArguments func args) args = true ∧ callLeaves c func = false := by
      rw [exprFlows, if_neg hhead, Bool.and_eq_true, Bool.and_eq_true] at hflows
      exact ⟨hflows.1.2, by simpa using hflows.2⟩
    refine hargs.map (fun h => (hparts h).1) (fun _ h => h) fun hflows b₀ => ⟨true, fun b _ => ?_⟩
    refine ⟨b₀, .inl rfl, fun f => ?_⟩
    rw [(hparts hflows).2]
    exact Outcome.done_mem_either b f
  have hseq := hfunc.seq hleave (fun point => [(.expr (.call func args span), point)])
    fun point hown hopen => by
      have hat := ok_own hown
      simp only [Ok, if_neg hhead] at hat
      exact hat hopen
  refine (hseq.congr (walkExpr_call htest) fun f => ?_).mono id id fun point hok => ?_
  · rw [exprRuns, if_neg hhead]
  · rw [visitExpr_call htest] at hok
    exact hok

end Call

theorem call_sound {func : Expr} {args : List Arg} {span : Span}
    (hfunc : ExprSound c formal tested func)
    (hargs : ArgsSound c formal tested (c.capturedArguments func args) args) :
    ExprSound c formal tested (.call func args span) := by
  by_cases htest : isMissingTestCall formal func args = true
  · exact testCall_sound htest
  by_cases hhead : isMissingHead func = true
  · exact missingCall_sound htest hfunc hargs hhead
  · exact otherCall_sound htest hfunc hargs hhead

theorem binOp_sound {op : BinOpKind} {lhs rhs : Expr} {span : Span}
    (hl : ExprSound c formal tested lhs) (hr : ExprSound c formal tested rhs) :
    ExprSound c formal tested (.binOp op lhs rhs span) := by
  have hat {point : SupplyPoint}
      (hown : AllOk c formal tested [(.expr (.binOp op lhs rhs span), point)]) :
      Ok c formal tested (.expr (.binOp op lhs rhs span)) point :=
    ok_own hown
  by_cases hassign : op = .assign
  · subst hassign
    have hsound := hr.assign hl (fun point => [(.expr (.binOp .assign lhs rhs span), point)])
      fun point hown => hat hown
    refine (hsound.congr (fun _ => rfl) fun _ => rfl).mono (fun h => ?_) (fun h => ?_) fun _ h => h
    · rw [Bool.and_comm]
      exact h
    · exact h.mono (fun ht => by simp [anyInExpr, ht]) fun name hname => hname
  by_cases hsuper : op = .superAssign
  · subst hsuper
    exact superAssign_sound hl hr
  have hvisits (point : SupplyPoint) : visitExpr c formal (.binOp op lhs rhs span) point =
      [(.expr (.binOp op lhs rhs span), point)] ++ (visitExpr c formal lhs point ++
        after (walkExpr c formal lhs point) (visitExpr c formal rhs)) := by
    cases op <;> first | rfl | contradiction
  rw [ExprSound, exprFlows_binOp c hsuper, funext hvisits,
    funext (walkExpr_strict c formal hassign hsuper lhs rhs span)]
  cases hstop : stopsAt op with
  | some stop =>
    refine Sound.junction hstop hl hr fun point hown => ?_
    have := hat hown
    cases op with
    | andAnd => exact this
    | orOr => exact this
    | _ => cases hstop
  | none =>
    have hstrict : isStrict op = true := by
      cases op <;> first | rfl | contradiction
    rw [funext (exprRuns_strict c formal hstrict lhs rhs span)]
    have hboth : Sound c formal tested (walkExpr c formal rhs)
        (fun f => Outcome.andThen (exprRuns c formal rhs f) fun _ f => Outcome.either f)
        (exprFlows c lhs && exprFlows c rhs)
        (FreeExpr formal tested (.binOp op lhs rhs span)) (visitExpr c formal rhs) :=
      hr.either (fun h => (Bool.and_eq_true _ _ ▸ h).2) fun _ h => h
    refine hl.seq hboth _ fun point hown hopen => ?_
    have hplace := hat hown
    cases op <;> first | exact hplace hopen | contradiction

theorem unaryOp_sound {op : UnaryOpKind} {e : Expr} {span : Span}
    (he : ExprSound c formal tested e) : ExprSound c formal tested (.unaryOp op e span) := by
  have hvisits (point : SupplyPoint) (hok : AllOk c formal tested
      (visitExpr c formal (.unaryOp op e span) point)) :
      AllOk c formal tested (visitExpr c formal e point) := (allOk_cons.mp hok).2
  cases op with
  | neg => exact he.either id hvisits
  | not =>
    refine he.map id hvisits fun _ b₀ => ⟨!b₀, fun b hb => ?_⟩
    refine ⟨!b, hb.imp ?_ fun h => ?_, fun f => ?_⟩
    · rintro rfl
      exact Bool.not_not b₀
    · exact h.mono (fun ht => by simp [anyInExpr, ht]) fun name hname => hname
    · simp

theorem index_sound {base : Expr} {kind : IndexKind} {args : List Arg} {span : Span}
    (hbase : ExprSound c formal tested base) (hargs : ArgsSound c formal tested [] args) :
    ExprSound c formal tested (.index base kind args span) := by
  have hplace {point : SupplyPoint} (hok : AllOk c formal tested
      (visitExpr c formal (.index base kind args span) point)) :
      Ok c formal tested (.expr (.index base kind args span)) point := (allOk_cons.mp hok).1
  by_cases hmember : kind.isMember = true
  · constructor
    · intro point f hok hopen hm
      obtain ⟨-, hplain⟩ := hplace hok hopen
      obtain ⟨hfirst, -⟩ := allOk_append.mp (allOk_cons.mp hok).2
      have hbaseOnly : walkExpr c formal (.index base kind args span) point =
          walkExpr c formal base point := by
        rw [walkExpr]
        cases walkExpr c formal base point with
        | error place => rfl
        | ok next => exact plainArgs_walk next args [] (hplain hmember)
      rw [hbaseOnly, exprRuns]
      simp only [if_pos hmember]
      have hflows (h : exprFlows c (.index base kind args span) = true) :
          exprFlows c base = true := by
        rw [exprFlows, Bool.and_eq_true] at h
        exact h.1
      refine ((hbase.reaches hfirst hopen hm).mono hflows id).map fun _ b₀ => ⟨true, fun b _ => ?_⟩
      exact ⟨b₀, .inl rfl, fun f => Outcome.done_mem_either b f⟩
    · intro point hok hquiet
      obtain ⟨hfirst, hsecond⟩ := allOk_append.mp (allOk_cons.mp hok).2
      obtain ⟨next, hnext, hnextQuiet⟩ := hbase.quiet hfirst hquiet
      rw [hnext] at hsecond
      obtain ⟨last, hlast, hlastQuiet⟩ := hargs.quiet hsecond hnextQuiet
      refine ⟨last, ?_, hlastQuiet⟩
      rw [walkExpr, hnext]
      exact hlast
  · have hflows (h : exprFlows c (.index base kind args span) = true) :
        argsFlow c [] args = true := by
      rw [exprFlows, Bool.and_eq_true, Bool.or_eq_true] at h
      exact h.2.resolve_left hmember
    have hend : Sound c formal tested (walkArgs c formal [] args)
        (fun f => Outcome.andThen (argsRuns c formal [] args f) fun _ f => Outcome.either f)
        (exprFlows c (.index base kind args span))
        (FreeExpr formal tested (.index base kind args span)) (visitArgs c formal [] args) :=
      hargs.either hflows fun _ h => h
    have hseq := hbase.seq hend (fun point => [(.expr (.index base kind args span), point)])
      fun point hown hopen =>
        (ok_own hown hopen).1
    refine hseq.congr (fun _ => rfl) fun f => ?_
    rw [exprRuns]
    simp only [if_neg hmember]

mutual
theorem expr_sound : ∀ e, ExprSound c formal tested e
  | .ident name span => by
    refine ⟨fun {point f} _ hopen hm => ?_, fun {point} _ hquiet => ⟨point, ?_, hquiet⟩⟩
    · by_cases hname : name = formal
      · rw [walkExpr, if_pos ⟨hname, hopen⟩]
        change Outcome.reached span ∈ exprRuns c formal (.ident name span) f
        rw [exprRuns, if_pos hname, hm.omitted]
        exact List.mem_append_left _ (List.mem_singleton.mpr rfl)
      · rw [walkExpr, if_neg fun h => hname h.1, exprRuns, if_neg hname]
        intro _ _
        cases hheld : f.held name with
        | none => exact ⟨true, fun b _ => ⟨f, Outcome.done_mem_either b f, hm⟩⟩
        | some b₀ =>
          refine ⟨b₀, fun b hb => ⟨f, ?_, hm⟩⟩
          rcases hb with rfl | hfree
          · exact List.mem_singleton.mpr rfl
          · have hmem : name ∈ tested := hm.covered name (by rw [hheld]; rfl)
            exact absurd hmem (hfree.2 name (List.mem_singleton.mpr rfl))
    · rw [walkExpr, if_neg fun h => hquiet h.2]
  | .call func args span => call_sound (expr_sound func) (args_sound args _)
  | .binOp op lhs rhs span => binOp_sound (expr_sound lhs) (expr_sound rhs)
  | .unaryOp op e span => unaryOp_sound (expr_sound e)
  | .index base kind args span => index_sound (expr_sound base) (args_sound args [])
  | .block body span => by
    have hbody := stmts_sound body
    refine (hbody.congr (fun _ => rfl) fun _ => rfl).mono id (fun h => ?_) fun _ hok =>
      (allOk_cons.mp hok).2
    exact h.mono (fun ht => by simp [anyInExpr, ht]) fun name hname => hname
  | .ite cond thenBranch elseBranch span => by
    have hcond := expr_sound cond
    have hthen := expr_sound thenBranch
    have helse := option_sound elseBranch
    refine (Sound.arms hthen helse hcond
      (fun point => [(.expr (.ite cond thenBranch elseBranch span), point)])
      (fun point hown => ?_) (fun h => ?_) fun h => ?_).congr (fun _ => rfl) fun _ => rfl
    · exact ok_own hown
    · rw [exprFlows, Bool.and_eq_true, Bool.and_eq_true, Bool.or_eq_true, Bool.or_eq_true] at h
      exact ⟨h.1.2, h.2⟩
    · constructor
      · exact h.mono (fun ht => by simp [anyInExpr, ht]) fun name => List.mem_append_left _
      · exact h.mono (fun ht => by simp [anyInExpr, ht]) fun name => List.mem_append_right _
  | .function .. | .logical .. | .integer .. | .double .. | .string .. | .null _ | .na ..
  | .unknown _ | .missing _ => .still (fun _ => by rw [walkExpr]) (fun _ => by rw [exprRuns])
termination_by structural e => e
theorem stmt_sound : ∀ s, Sound c formal tested (walkStmt c formal s) (stmtRuns c formal s)
    (stmtFlows c s) (Free tested (anyInStmt .all (testNode formal ∅) s) (stmtTruthNames s))
    (visitStmt c formal s)
  | .assign target value span => by
    by_cases hsuper : isSuper value = true
    · cases value with
      | binOp op lhs rhs operation =>
        have hr := expr_sound rhs
        cases op with
        | superAssign => exact outwardStmt_sound hr
        | _ => cases hsuper
      | _ => cases hsuper
    · have hplain : isSuper value = false := by simpa using hsuper
      have hsound := Sound.assign (expr_sound value) (expr_sound target)
        (fun point => [(.stmt (.assign target value span), point)]) fun point hown hopen =>
          Ok.plain hplain span (ok_own hown) hopen
      rw [stmtFlows_plain hplain, funext (visitStmt_plain hplain span)]
      refine (hsound.congr (walkStmt_plain hplain span) (stmtRuns_plain hplain span)).mono id
        (fun h => ?_) fun _ hok => hok
      exact h.mono (fun ht => by simp [anyInStmt, ht]) fun name hname => hname
  | .expr e => by
    have he := expr_sound e
    refine (he.congr (fun _ => rfl) fun _ => rfl).mono id (fun h => ?_) fun _ hok =>
      (allOk_cons.mp hok).2
    exact h.mono (fun ht => by simp [anyInStmt, ht]) fun name hname => hname
  | .ite cond thenBranch elseBranch span => by
    have hcond := expr_sound cond
    have hthen := stmts_sound thenBranch
    have helse := else_sound elseBranch
    refine (Sound.arms hthen helse hcond
      (fun point => [(.stmt (.ite cond thenBranch elseBranch span), point)])
      (fun point hown => ?_) (fun h => ?_) fun h => ?_).congr (fun _ => rfl) fun _ => rfl
    · exact ok_own hown
    · rw [stmtFlows, Bool.and_eq_true, Bool.and_eq_true, Bool.or_eq_true, Bool.or_eq_true] at h
      exact ⟨h.1.2, h.2⟩
    · constructor
      · exact h.mono (fun ht => by simp [anyInStmt, ht]) fun name => List.mem_append_left _
      · exact h.mono (fun ht => by simp [anyInStmt, ht]) fun name => List.mem_append_right _
  | .forLoop name nameSpan iter body span =>
    ⟨fun hok _ _ => absurd (allOk_cons.mp hok).1 id, fun hok _ => absurd (allOk_cons.mp hok).1 id⟩
  | .whileLoop cond body span =>
    ⟨fun hok _ _ => absurd (allOk_cons.mp hok).1 id, fun hok _ => absurd (allOk_cons.mp hok).1 id⟩
  | .functionDef .. => .still (fun _ => by rw [walkStmt]) (fun _ => by rw [stmtRuns])
  | .ret value span => by
    have hvalue := option_sound value
    refine (hvalue.map (fun h => ?_) (fun _ hok => (allOk_cons.mp hok).2) fun h => ?_).congr
      (fun _ => rfl) fun _ => rfl
    · cases h
    · cases h
termination_by structural s => s
theorem stmts_sound : ∀ ss, Sound c formal tested (walkStmts c formal ss) (stmtsRuns c formal ss)
    (stmtsFlow c ss) (Free tested (anyInStmts .all (testNode formal ∅) ss) (stmtsTruthNames ss))
    (visitStmts c formal ss)
  | [] => .still (fun _ => by rw [walkStmts]) (fun _ => by rw [stmtsRuns])
  | s :: ss => by
    have hs := stmt_sound s
    have hss := stmts_sound ss
    cases ss with
    | nil =>
      refine (hs.map (fun h => ?_) (fun _ hok => ?_) fun _ b₀ => ?_).congr (fun point => ?_)
        fun _ => rfl
      · simpa [stmtsFlow] using h
      · exact (allOk_append.mp (allOk_cons.mp hok).2).1
      · refine ⟨b₀, fun b hb => ⟨b, hb.imp id fun h => ?_, fun f => List.mem_singleton.mpr rfl⟩⟩
        exact h.mono (fun ht => by simp [anyInStmts, ht]) fun name hname => hname
      · rw [walkStmts]
        cases walkStmt c formal s point <;> rfl
    | cons s' ss =>
      have hseq := hs.seq hss (fun point => [(.stmts (s :: s' :: ss), point)])
        fun point hown hopen => ok_own hown hopen
      refine (hseq.congr (fun _ => rfl) fun _ => rfl).mono (fun h => ?_) (fun h => ?_)
        fun _ hok => hok
      · rw [stmtsFlow, Bool.and_eq_true] at h
        exact h.2
      · exact h.mono (fun ht => by simp [anyInStmts] at ht ⊢; exact .inr ht) fun name hname => hname
termination_by structural ss => ss
theorem else_sound : ∀ o, Sound c formal tested (walkElseStmts c formal o) (elseRuns c formal o)
    (elseFlows c o) (Free tested (anyInElseStmts .all (testNode formal ∅) o) (elseTruthNames o))
    (visitElse c formal o)
  | none => .still (fun _ => by rw [walkElseStmts]) (fun _ => by rw [elseRuns])
  | some ss => stmts_sound ss
termination_by structural o => o
theorem option_sound : ∀ o, Sound c formal tested (walkOption c formal o) (optionRuns c formal o)
    (optionFlows c o) (Free tested (anyInOption .all (testNode formal ∅) o) (optionTruthNames o))
    (visitOption c formal o)
  | none => .still (fun _ => by rw [walkOption]) (fun _ => by rw [optionRuns])
  | some e => expr_sound e
termination_by structural o => o
theorem args_sound : ∀ args captured, ArgsSound c formal tested captured args
  | [], _ => .still (fun _ => by rw [walkArgs]) (fun _ => by rw [argsRuns])
  | arg :: args, captured => by
    have harg := arg_sound arg
    have hargs := args_sound args captured.tail
    have hhere : Sound c formal tested
        (fun point => if captured.head?.getD false then .ok point else walkArg c formal arg point)
        (fun f => if captured.head?.getD false then Outcome.either f else argRuns c formal arg f)
        (captured.head?.getD false || argFlows c arg) False
        (fun point => if captured.head?.getD false then [] else visitArg c formal arg point) := by
      by_cases hcaptured : captured.head?.getD false = true
      · simp only [hcaptured, if_true]
        exact .still (fun _ => rfl) fun _ => rfl
      · simp only [hcaptured]
        exact harg.mono id False.elim fun _ hok => hok
    cases args with
    | nil =>
      refine (hhere.either (fun h => ?_) fun _ hok => ?_).congr (fun point => ?_) fun f => ?_
      · simpa [argsFlow] using h
      · exact (allOk_append.mp (allOk_cons.mp hok).2).1
      · rw [walkArgs]
        split
        · rfl
        · cases walkArg c formal arg point <;> rfl
      · rw [argsRuns]
        rfl
    | cons arg' args =>
      have hseq := hhere.seq hargs (fun point => [(.args captured (arg :: arg' :: args), point)])
        fun point hown hopen => by
          have hat := ok_own hown hopen
          rw [Bool.or_eq_true]
          exact hat
      refine (hseq.congr (fun point => ?_) fun f => ?_).mono (fun h => ?_) id fun point hok => ?_
      · rw [walkArgs]
        cases captured.head?.getD false <;> rfl
      · rw [argsRuns]
      · rw [argsFlow, Bool.and_eq_true] at h
        exact h.2
      · rw [visitArgs] at hok
        exact hok
termination_by structural args => args
theorem arg_sound : ∀ arg, Sound c formal tested (walkArg c formal arg) (argRuns c formal arg)
    (argFlows c arg)
    (Free tested (anyInArg .all (testNode formal ∅) arg) (exprTruthNames arg.value))
    (visitArg c formal arg)
  | .mk _ value _ => expr_sound value
termination_by structural arg => arg
end

section Examples

/-- The place of the `n`-th token. -/
def token (n : Nat) : Span := ⟨n, n + 1, 0, n⟩

/-- No function is known not to return, and every argument is evaluated. -/
def plainChecker : Checker := ⟨⟨fun _ => false, ∅⟩, fun _ _ => []⟩

def missingCall (n : Nat) : Expr :=
  .call (.ident "missing" (token n)) [.mk none (.ident "p" (token (n + 1))) (token (n + 1))]
    (token n)

/-- `if (missing(p)) return(0)`, then `if (missing(p)) x <- 1`, then `p`. -/
def testedTwice : List Stmt :=
  [.ite (missingCall 1) [.expr (.call (.ident "return" (token 3))
      [.mk none (.integer 0 (token 4)) (token 4)] (token 3))] none (token 0),
    .ite (missingCall 6) [.assign (.ident "x" (token 8)) (.integer 1 (token 9)) (token 8)] none
      (token 5),
    .expr (.ident "p" (token 10))]

/-- `if (missing(p)) p` -/
def testedOnce : List Stmt :=
  [.ite (missingCall 1) [.expr (.ident "p" (token 3))] none (token 0)]

end Examples

end Ry.FormalSupply
