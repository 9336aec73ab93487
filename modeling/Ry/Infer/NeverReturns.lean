import Ry.Infer.Diverges

/-! # What divergence says of a run

The runs of a piece of code, as far as the judgment reads it: statements in order, one arm of
an `if`, the call of what a head selects.  What it does not read may end in any way.

Code judged to diverge never completes, as long as no frame judged in the return-blind view
is left by `return` or by dispatch (`diverges_run`).  A helper that returns before a later
`stop`, or in one arm only, is judged never to return all the same
(`early_return_completes`), and so is every generic.
-/

namespace Ry.Divergence

/-- How a run ends: normally, by leaving its frame with a value, by `break` or `next`, or in
an error. -/
inductive Completion
  | normal | returned | jumped | failed
deriving DecidableEq

/-- What a call head selects. -/
inductive Callee
  | returnOp
  | useMethod
  /-- A function documented never to return. -/
  | never
  | closure (body : List Stmt)
  | other

inductive Code
  | stmts (body : List Stmt)
  | stmt (s : Stmt)
  | expr (e : Expr)

/-- The judgment does not look into the statement. -/
def UnreadStmt : Stmt → Prop
  | .assign .. | .forLoop .. | .whileLoop .. | .functionDef .. => True
  | .expr _ | .ite .. | .ret .. => False

/-- The judgment does not look into the expression. -/
def UnreadExpr : Expr → Prop
  | .call func _ _ => identName func = none
  | .block .. | .ite .. => False
  | _ => True

section Runs

variable (selects : String → Callee → Prop) (leaves : DivergenceView → Prop)

/-- A frame judged in `view` may end like this: `leaves` says whether by `return`. -/
def Ends (view : DivergenceView) (o : Completion) : Prop := o = .returned → leaves view

/-- `Runs view code o`: a run of `code` in a frame judged in `view` ends with `o`. -/
inductive Runs : DivergenceView → Code → Completion → Prop
  | nil {view} : Runs view (.stmts []) .normal
  | cons {view s ss o} : Runs view (.stmt s) .normal → Runs view (.stmts ss) o →
      Runs view (.stmts (s :: ss)) o
  | stop {view s ss o} : Runs view (.stmt s) o → o ≠ .normal → Runs view (.stmts (s :: ss)) o
  | expr {view e o} : Runs view (.expr e) o → Runs view (.stmt (.expr e)) o
  | condition {view c t e span o} : Runs view (.expr c) o → o ≠ .normal →
      Runs view (.stmt (.ite c t e span)) o
  | thenArm {view c t e span o} : Runs view (.expr c) .normal → Runs view (.stmts t) o →
      Runs view (.stmt (.ite c t e span)) o
  | elseArm {view c t e span o} : Runs view (.expr c) .normal → Runs view (.stmts e) o →
      Runs view (.stmt (.ite c t (some e) span)) o
  | noArm {view c t span} : Runs view (.expr c) .normal →
      Runs view (.stmt (.ite c t none span)) .normal
  | ret {view value span o} : o ≠ .normal → Ends leaves view o →
      Runs view (.stmt (.ret value span)) o
  | unreadStmt {view s o} : UnreadStmt s → Ends leaves view o → Runs view (.stmt s) o
  | block {view body span o} : Runs view (.stmts body) o → Runs view (.expr (.block body span)) o
  | exprCondition {view c t e span o} : Runs view (.expr c) o → o ≠ .normal →
      Runs view (.expr (.ite c t e span)) o
  | exprThen {view c t e span o} : Runs view (.expr c) .normal → Runs view (.expr t) o →
      Runs view (.expr (.ite c t e span)) o
  | exprElse {view c t e span o} : Runs view (.expr c) .normal → Runs view (.expr e) o →
      Runs view (.expr (.ite c t (some e) span)) o
  | exprNoArm {view c t span} : Runs view (.expr c) .normal →
      Runs view (.expr (.ite c t none span)) .normal
  | unreadExpr {view e o} : UnreadExpr e → Ends leaves view o → Runs view (.expr e) o
  /-- An actual argument is evaluated in the caller's frame, and may leave it. -/
  | argument {view name span args callSpan o} : o ≠ .normal → Ends leaves view o →
      Runs view (.expr (.call (.ident name span) args callSpan)) o
  | returnOp {view name span args callSpan} : selects name .returnOp → Ends leaves view .returned →
      Runs view (.expr (.call (.ident name span) args callSpan)) .returned
  /-- The method's value is the value of the frame that dispatches. -/
  | useMethod {view name span args callSpan} : selects name .useMethod →
      Ends leaves view .returned → Runs view (.expr (.call (.ident name span) args callSpan)) .returned
  | never {view name span args callSpan} : selects name .never →
      Runs view (.expr (.call (.ident name span) args callSpan)) .failed
  | called {view name span args callSpan body o} : selects name (.closure body) →
      Runs .returnBlind (.stmts body) o → o = .normal ∨ o = .returned →
      Runs view (.expr (.call (.ident name span) args callSpan)) .normal
  | calledFails {view name span args callSpan body o} : selects name (.closure body) →
      Runs .returnBlind (.stmts body) o → o = .failed ∨ o = .jumped →
      Runs view (.expr (.call (.ident name span) args callSpan)) .failed
  | other {view name span args callSpan o} : selects name .other → o = .normal ∨ o = .failed →
      Runs view (.expr (.call (.ident name span) args callSpan)) o

end Runs

/-- What the judgment takes a head for. -/
def judgedCallee (p : Heads) (name : String) : Option Callee :=
  if isReturn name then some .returnOp
  else if isUseMethod name then some .useMethod
  else if p.noReturn name then some .never
  else (p.live.lookup name).map .closure

/-- Every head selects what the judgment takes it for, where it takes it for anything. -/
def HeadsResolve (p : Heads) (selects : String → Callee → Prop) : Prop :=
  ∀ name callee judged, selects name callee → judgedCallee p name = some judged → callee = judged

def codeDiverges (p : Heads) (helper : String → Bool) (view : DivergenceView) : Code → Bool
  | .stmts body => stmtsDiverge p helper view body
  | .stmt s => stmtDiverges p helper view s
  | .expr e => exprDiverges p helper view e

variable {p : Heads} {selects : String → Callee → Prop} {leaves : DivergenceView → Prop}

/-- A frame that may not be left by `return` is not. -/
theorem Runs.ends {view : DivergenceView} {code : Code} {o : Completion}
    (h : Runs selects leaves view code o) : Ends leaves view o := by
  induction h with
  | nil | noArm | exprNoArm | never | calledFails | called => exact nofun
  | cons _ _ _ ih | thenArm _ _ _ ih | elseArm _ _ _ ih | exprThen _ _ _ ih
  | exprElse _ _ _ ih => exact ih
  | stop _ _ ih | expr _ ih | condition _ _ ih | block _ ih | exprCondition _ _ ih => exact ih
  | ret _ h | unreadStmt _ h | unreadExpr _ h | argument _ h | returnOp _ h | useMethod _ h =>
    exact h
  | other _ h =>
    rintro rfl
    simp at h

/-- A head judged to diverge selects what never completes, or a closure whose body is judged
to diverge. -/
theorem callDiverges_cases {fuel : Nat} {visited : Finset String} {view : DivergenceView}
    {name : String} (h : callDiverges p (helperDiverges p fuel visited) view name = true) :
    judgedCallee p name = some .returnOp ∨ judgedCallee p name = some .useMethod ∨
      judgedCallee p name = some .never ∨
      ∃ body fuel visited, judgedCallee p name = some (.closure body) ∧
        stmtsDiverge p (helperDiverges p fuel visited) .returnBlind body = true := by
  unfold callDiverges at h
  unfold judgedCallee
  split at h
  · rename_i hreturn
    rw [if_pos hreturn]
    exact .inl rfl
  rename_i hreturn
  rw [if_neg hreturn]
  split at h
  · rename_i hmethod
    rw [if_pos hmethod]
    exact .inr (.inl rfl)
  rename_i hmethod
  rw [if_neg hmethod]
  split at h
  · rename_i hnever
    rw [if_pos hnever]
    exact .inr (.inr (.inl rfl))
  rename_i hnever
  rw [if_neg hnever]
  cases fuel with
  | zero => simp [helperDiverges] at h
  | succ fuel =>
    rw [helperDiverges] at h
    split at h
    · contradiction
    · obtain ⟨body, hbody, hdiverges⟩ := (Option.any_eq_true _ _).mp h
      exact .inr (.inr (.inr ⟨body, fuel, _, by rw [hbody]; rfl, hdiverges⟩))

theorem not_normal {view : DivergenceView} {code : Code} {o : Completion}
    (hheads : HeadsResolve p selects) (hblind : ¬ leaves .returnBlind)
    (h : Runs selects leaves view code o) {fuel : Nat} {visited : Finset String}
    (hjudged : codeDiverges p (helperDiverges p fuel visited) view code = true) :
    o ≠ .normal := by
  induction h generalizing fuel visited with
  | nil => simp [codeDiverges, stmtsDiverge] at hjudged
  | cons _ _ ihs ihss =>
    simp only [codeDiverges, stmtsDiverge, Bool.or_eq_true] at hjudged
    rcases hjudged with hs | hss
    · exact absurd rfl (ihs hs)
    · exact ihss hss
  | stop _ ho _ | condition _ ho _ | exprCondition _ ho _ => exact ho
  | expr _ ih => exact ih (by simpa [codeDiverges, stmtDiverges] using hjudged)
  | thenArm _ _ _ ih =>
    simp only [codeDiverges, stmtDiverges, Bool.and_eq_true] at hjudged
    exact ih hjudged.1
  | elseArm _ _ _ ih =>
    simp only [codeDiverges, stmtDiverges, elseStmtsDiverge, Bool.and_eq_true] at hjudged
    exact ih hjudged.2
  | noArm => simp [codeDiverges, stmtDiverges, elseStmtsDiverge] at hjudged
  | ret ho _ | argument ho _ => exact ho
  | @unreadStmt view s o hs _ => cases s <;> simp_all [UnreadStmt, codeDiverges, stmtDiverges]
  | block _ ih => exact ih (by simpa [codeDiverges, exprDiverges] using hjudged)
  | exprThen _ _ _ ih =>
    simp only [codeDiverges, exprDiverges, Bool.and_eq_true] at hjudged
    exact ih hjudged.1
  | exprElse _ _ _ ih =>
    simp only [codeDiverges, exprDiverges, elseDiverges, Bool.and_eq_true] at hjudged
    exact ih hjudged.2
  | exprNoArm => simp [codeDiverges, exprDiverges, elseDiverges] at hjudged
  | @unreadExpr view e o he _ => cases e <;> simp_all [UnreadExpr, codeDiverges, exprDiverges]
  | returnOp | useMethod | never | calledFails => simp
  | @called view name span args callSpan body o hselects hbody ho ih =>
    rcases callDiverges_cases hjudged with hc | hc | hc | ⟨body', fuel', visited', hc, hdiverges⟩
    · cases hheads _ _ _ hselects hc
    · cases hheads _ _ _ hselects hc
    · cases hheads _ _ _ hselects hc
    · -- the body is judged too: it ends in an error, or by a `return` that is not allowed
      obtain rfl := Callee.closure.inj (hheads _ _ _ hselects hc)
      rcases ho with ho | ho
      · exact absurd ho (ih hdiverges)
      · exact absurd (hbody.ends ho) hblind
  | @other view name span args callSpan o hselects _ =>
    rcases callDiverges_cases hjudged with hc | hc | hc | ⟨body', fuel', visited', hc, -⟩ <;>
      cases hheads _ _ _ hselects hc

/-- Code judged to diverge does not complete, nor by a `return` its view does not count, where
the heads select what they are taken for and no frame judged return-blind, the judged one
included, is left by `return` or dispatch. -/
theorem diverges_run {view : DivergenceView} {stmts : List Stmt} {o : Completion}
    (hheads : HeadsResolve p selects) (hblind : ¬ leaves .returnBlind)
    (h : blockDiverges p view stmts = true) (hrun : Runs selects leaves view (.stmts stmts) o) :
    o ≠ .normal ∧ (view = .returnBlind → o ≠ .returned) := by
  refine ⟨not_normal hheads hblind hrun h, ?_⟩
  rintro rfl ho
  exact hblind (hrun.ends ho)

/-- The heads select what the judgment takes them for. -/
def selectsJudged (p : Heads) (name : String) (callee : Callee) : Prop :=
  judgedCallee p name = some callee

theorem headsResolve_selectsJudged (p : Heads) : HeadsResolve p (selectsJudged p) :=
  fun _ _ _ hc hj => Option.some.inj (hc.symm.trans hj)

/-- Only frames whose view counts `return` are left by it. -/
def CountsReturn (view : DivergenceView) : Prop := view.recognizesReturn = true

def here : Span := ⟨0, 0, 0, 0⟩

def callOf (name : String) : Stmt := .expr (.call (.ident name here) [] here)

/-- `fail <- function() stop()`
`check <- function(x) { if (x) return(); stop() }` -/
def projectHeads : Heads where
  noReturn name := name = "stop"
  live := ((∅ : Table String (List Stmt)).insert "fail" [callOf "stop"]).insert "check"
    [.ite (.ident "x" here) [callOf "return"] none here, callOf "stop"]

/-- `fail()` ends in the error its body raises. -/
theorem diverges_run_fail :
    Completion.failed ≠ .normal ∧
      (DivergenceView.returnBlind = .returnBlind → Completion.failed ≠ .returned) := by
  have hstop : Runs (selectsJudged projectHeads) CountsReturn .returnBlind
      (.stmts [callOf "stop"]) .failed := .stop (.expr (.never rfl)) nofun
  have hfail : Runs (selectsJudged projectHeads) CountsReturn .returnBlind
      (.stmts [callOf "fail"]) .failed :=
    .stop (.expr (.calledFails rfl hstop (.inl rfl))) nofun
  exact diverges_run (headsResolve_selectsJudged projectHeads) nofun (by decide) hfail

/-- `check(TRUE)` is judged never to return, and returns. -/
theorem early_return_completes :
    ¬ ∀ (p : Heads) (selects : String → Callee → Prop) (view : DivergenceView)
      (stmts : List Stmt) (o : Completion), HeadsResolve p selects →
      blockDiverges p view stmts = true → Runs selects (fun _ => True) view (.stmts stmts) o →
      o ≠ .normal ∧ (view = .returnBlind → o ≠ .returned) := by
  intro h
  have hjudged : blockDiverges projectHeads .full [callOf "check"] = true := by decide
  have hreturns : Runs (selectsJudged projectHeads) (fun _ => True) .returnBlind
      (.stmts [.ite (.ident "x" here) [callOf "return"] none here, callOf "stop"]) .returned := by
    refine .stop (.thenArm (.unreadExpr trivial fun _ => trivial) ?_) nofun
    exact .stop (.expr (.returnOp rfl fun _ => trivial)) nofun
  have hcompletes : Runs (selectsJudged projectHeads) (fun _ => True) .full
      (.stmts [callOf "check"]) .normal :=
    .cons (.expr (.called rfl hreturns (.inr rfl))) .nil
  exact (h _ _ _ _ _ (headsResolve_selectsJudged _) hjudged hcompletes).1 rfl

end Ry.Divergence
