import Ry.Syntax.Walk

/-! # What the shared walk breaks at

A walk that breaks at fewer nodes breaks nowhere else.
-/

namespace Ry

section Mono

variable {policy : WalkPolicy} {hit hit' : AstNode → Bool}
  (h : ∀ n, hit n = true → hit' n = true)

include h

-- the linter does not see the hypothesis through the mutual recursion
set_option linter.unusedSectionVars false in
mutual
theorem anyInStmt_mono : ∀ s, anyInStmt policy hit s = true → anyInStmt policy hit' s = true
  | .assign target value _ => by
    have htarget := anyInExpr_mono target
    have hvalue := anyInExpr_mono value
    simp only [anyInStmt, Bool.or_eq_true, Bool.and_eq_true]
    exact Or.imp (h _) (Or.imp (And.imp id htarget) hvalue)
  | .expr e => by
    have he := anyInExpr_mono e
    simp only [anyInStmt, Bool.or_eq_true]
    exact Or.imp (h _) he
  | .ite cond thenBranch elseBranch _ => by
    have hcond := anyInExpr_mono cond
    have hthen := anyInStmts_mono thenBranch
    have helse := anyInElseStmts_mono elseBranch
    simp only [anyInStmt, Bool.or_eq_true, Bool.and_eq_true]
    exact Or.imp (h _) (Or.imp (Or.imp (And.imp id hcond) hthen) helse)
  | .forLoop _ _ iter body _ => by
    have hiter := anyInExpr_mono iter
    have hbody := anyInStmts_mono body
    simp only [anyInStmt, Bool.or_eq_true, Bool.and_eq_true]
    exact Or.imp (h _) (Or.imp (And.imp id hiter) hbody)
  | .whileLoop cond body _ => by
    have hcond := anyInExpr_mono cond
    have hbody := anyInStmts_mono body
    simp only [anyInStmt, Bool.or_eq_true, Bool.and_eq_true]
    exact Or.imp (h _) (Or.imp (And.imp id hcond) hbody)
  | .functionDef params body _ => by
    have hparams := anyInParams_mono params
    have hbody := anyInStmts_mono body
    simp only [anyInStmt, Bool.or_eq_true, Bool.and_eq_true]
    exact Or.imp (h _) (Or.imp (And.imp id hparams) (And.imp id hbody))
  | .ret value _ => by
    have hvalue := anyInOption_mono value
    simp only [anyInStmt, Bool.or_eq_true]
    exact Or.imp (h _) hvalue
termination_by structural s => s
theorem anyInExpr_mono : ∀ e, anyInExpr policy hit e = true → anyInExpr policy hit' e = true
  | .call func args _ => by
    have hfunc := anyInExpr_mono func
    have hargs := anyInArgs_mono args
    simp only [anyInExpr, Bool.or_eq_true]
    exact Or.imp (h _) (Or.imp hfunc hargs)
  | .binOp op lhs rhs _ => by
    have hlhs := anyInExpr_mono lhs
    have hrhs := anyInExpr_mono rhs
    simp only [anyInExpr, Bool.or_eq_true, Bool.and_eq_true]
    exact Or.imp (h _) (Or.imp (And.imp id hlhs) hrhs)
  | .unaryOp _ e _ => by
    have he := anyInExpr_mono e
    simp only [anyInExpr, Bool.or_eq_true]
    exact Or.imp (h _) he
  | .index base kind args _ => by
    have hbase := anyInExpr_mono base
    have hargs := anyInArgs_mono args
    simp only [anyInExpr, Bool.or_eq_true, Bool.and_eq_true]
    exact Or.imp (h _) (Or.imp hbase (And.imp id hargs))
  | .function params body _ => by
    have hparams := anyInParams_mono params
    have hbody := anyInStmts_mono body
    simp only [anyInExpr, Bool.or_eq_true, Bool.and_eq_true]
    exact Or.imp (h _) (Or.imp (And.imp id hparams) (And.imp id hbody))
  | .block body _ => by
    have hbody := anyInStmts_mono body
    simp only [anyInExpr, Bool.or_eq_true]
    exact Or.imp (h _) hbody
  | .ite cond thenBranch elseBranch _ => by
    have hcond := anyInExpr_mono cond
    have hthen := anyInExpr_mono thenBranch
    have helse := anyInOption_mono elseBranch
    simp only [anyInExpr, Bool.or_eq_true, Bool.and_eq_true]
    exact Or.imp (h _) (Or.imp (Or.imp (And.imp id hcond) hthen) helse)
  | .logical .. | .integer .. | .double .. | .string .. | .null _ | .na .. | .ident ..
  | .unknown _ | .missing _ => by
    simp only [anyInExpr, Bool.or_false]
    exact h _
termination_by structural e => e
theorem anyInStmts_mono :
    ∀ ss, anyInStmts policy hit ss = true → anyInStmts policy hit' ss = true
  | [] => id
  | s :: ss => by
    have hs := anyInStmt_mono s
    have hss := anyInStmts_mono ss
    simp only [anyInStmts, Bool.or_eq_true]
    exact Or.imp hs hss
termination_by structural ss => ss
theorem anyInElseStmts_mono :
    ∀ o, anyInElseStmts policy hit o = true → anyInElseStmts policy hit' o = true
  | none => id
  | some ss => anyInStmts_mono ss
termination_by structural o => o
theorem anyInOption_mono :
    ∀ o, anyInOption policy hit o = true → anyInOption policy hit' o = true
  | none => id
  | some e => anyInExpr_mono e
termination_by structural o => o
theorem anyInArgs_mono :
    ∀ args, anyInArgs policy hit args = true → anyInArgs policy hit' args = true
  | [] => id
  | arg :: args => by
    have harg := anyInArg_mono arg
    have hargs := anyInArgs_mono args
    simp only [anyInArgs, Bool.or_eq_true]
    exact Or.imp harg hargs
termination_by structural args => args
theorem anyInArg_mono : ∀ arg, anyInArg policy hit arg = true → anyInArg policy hit' arg = true
  | .mk _ value _ => anyInExpr_mono value
termination_by structural arg => arg
theorem anyInParams_mono :
    ∀ params, anyInParams policy hit params = true → anyInParams policy hit' params = true
  | [] => id
  | param :: params => by
    have hparam := anyInParam_mono param
    have hparams := anyInParams_mono params
    simp only [anyInParams, Bool.or_eq_true]
    exact Or.imp hparam hparams
termination_by structural params => params
theorem anyInParam_mono :
    ∀ param, anyInParam policy hit param = true → anyInParam policy hit' param = true
  | .mk _ default _ => anyInOption_mono default
termination_by structural param => param
end

end Mono

end Ry
