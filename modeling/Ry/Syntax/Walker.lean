import Ry.Lib.Preorder
import Ry.Syntax.Walk
import Ry.Contract.Derive

/-! # The shared walker

`walk_stmts` of `walk.rs` with a callback that keeps a state: which nodes it is called with, in which
order, against the tree in source order.
-/

namespace Ry

/-! ## The walker -/

section Walker

variable {S B : Type} (policy : WalkPolicy) (visit : S → AstNode → Nat → S × Answer B)

def stepIf (enters : Bool) (step : S → S × Option B) (st : S) : S × Option B :=
  if enters then step st else (st, none)

mutual
def stmtStep (fnDepth : Nat) (s : Stmt) (st : S) : S × Option B :=
  answered (visit st (.stmt s) fnDepth) fun st =>
    match s with
    | .assign target value _ =>
      andThen (stepIf policy.assignTargets (exprStep fnDepth target) st) (exprStep fnDepth value)
    | .expr e => exprStep fnDepth e st
    | .ite cond thenBranch elseBranch _ =>
      andThen (stepIf policy.controlTests (exprStep fnDepth cond) st) fun st =>
        andThen (stmtsStep fnDepth thenBranch st) (elseStep fnDepth elseBranch)
    | .forLoop _ _ iter body _ =>
      andThen (stepIf policy.controlTests (exprStep fnDepth iter) st) (stmtsStep fnDepth body)
    | .whileLoop cond body _ =>
      andThen (stepIf policy.controlTests (exprStep fnDepth cond) st) (stmtsStep fnDepth body)
    | .functionDef _ body _ => stepIf policy.fnBodies (stmtsStep (fnDepth + 1) body) st
    | .ret value _ => optionStep fnDepth value st
termination_by structural s
def exprStep (fnDepth : Nat) (e : Expr) (st : S) : S × Option B :=
  answered (visit st (.expr e) fnDepth) fun st =>
    match e with
    | .call func args _ => andThen (exprStep fnDepth func st) (argsStep fnDepth args)
    | .binOp op lhs rhs _ =>
      andThen (stepIf (policy.entersLhs op) (exprStep fnDepth lhs) st) (exprStep fnDepth rhs)
    | .unaryOp _ e _ => exprStep fnDepth e st
    | .index base kind args _ =>
      andThen (exprStep fnDepth base st)
        (stepIf (!kind.isMember || policy.dollarArgs) (argsStep fnDepth args))
    | .function _ body _ => stepIf policy.fnBodies (stmtsStep (fnDepth + 1) body) st
    | .block body _ => stmtsStep fnDepth body st
    | .ite cond thenBranch elseBranch _ =>
      andThen (stepIf policy.controlTests (exprStep fnDepth cond) st) fun st =>
        andThen (exprStep fnDepth thenBranch st) (optionStep fnDepth elseBranch)
    | .logical .. | .integer .. | .double .. | .string .. | .null _ | .na .. | .ident ..
    | .unknown _ | .missing _ => (st, none)
termination_by structural e
def stmtsStep (fnDepth : Nat) : List Stmt → S → S × Option B
  | [], st => (st, none)
  | s :: ss, st => andThen (stmtStep fnDepth s st) (stmtsStep fnDepth ss)
termination_by structural l => l
def elseStep (fnDepth : Nat) : Option (List Stmt) → S → S × Option B
  | none, st => (st, none)
  | some ss, st => stmtsStep fnDepth ss st
termination_by structural o => o
def optionStep (fnDepth : Nat) : Option Expr → S → S × Option B
  | none, st => (st, none)
  | some e, st => exprStep fnDepth e st
termination_by structural o => o
def argsStep (fnDepth : Nat) : List Arg → S → S × Option B
  | [], st => (st, none)
  | arg :: args, st => andThen (argStep fnDepth arg st) (argsStep fnDepth args)
termination_by structural l => l
def argStep (fnDepth : Nat) : Arg → S → S × Option B
  | .mk _ value _, st => exprStep fnDepth value st
termination_by structural a => a
end

/-- The callback at the nodes of a program. -/
def walkStmts (stmts : List Stmt) (st : S) : S × Option B := stmtsStep policy visit 0 stmts st

end Walker

/-! ## The tree -/

/-- What a child is to its parent. -/
inductive Edge
  | plain
  | assignTarget
  | assignOperand
  | dollarArg
  | fnBody
  | paramDefault
  | controlTest
deriving DecidableEq, Repr

/-- Whether the child is inside a function literal. -/
def Edge.entersFunction : Edge → Bool
  | fnBody | paramDefault => true
  | _ => false

/-- The subtrees that a policy documents it leaves out. -/
def WalkPolicy.keeps (policy : WalkPolicy) : Edge → Bool
  | .assignTarget => policy.assignTargets
  | .assignOperand => policy.assignOperands
  | .dollarArg => policy.dollarArgs
  | .fnBody => policy.fnBodies
  | .controlTest => policy.controlTests
  | .plain | .paramDefault => true

def Param.default : Param → Option Expr
  | .mk _ default _ => default

def stmtKids (edge : Edge) (stmts : List Stmt) : List (Edge × AstNode) :=
  stmts.map fun s => (edge, .stmt s)

def argKids (edge : Edge) (args : List Arg) : List (Edge × AstNode) :=
  args.map fun arg => (edge, .expr arg.value)

def defaultKids (params : List Param) : List (Edge × AstNode) :=
  params.filterMap fun param => param.default.map fun e => (.paramDefault, .expr e)

def BinOpKind.lhsEdge : BinOpKind → Edge
  | .assign | .superAssign => .assignOperand
  | _ => .plain

def IndexKind.argEdge (kind : IndexKind) : Edge := if kind.isMember then .dollarArg else .plain

def AstNode.kids : AstNode → List (Edge × AstNode)
  | .stmt (.assign target value _) => [(.assignTarget, .expr target), (.plain, .expr value)]
  | .stmt (.expr e) => [(.plain, .expr e)]
  | .stmt (.ite cond thenBranch elseBranch _) =>
    (.controlTest, .expr cond) ::
      (stmtKids .plain thenBranch ++ stmtKids .plain (elseBranch.getD []))
  | .stmt (.forLoop _ _ iter body _) => (.controlTest, .expr iter) :: stmtKids .plain body
  | .stmt (.whileLoop cond body _) => (.controlTest, .expr cond) :: stmtKids .plain body
  | .stmt (.functionDef params body _) => defaultKids params ++ stmtKids .fnBody body
  | .stmt (.ret value _) => value.toList.map fun e => (.plain, .expr e)
  | .expr (.call func args _) => (.plain, .expr func) :: argKids .plain args
  | .expr (.binOp op lhs rhs _) => [(op.lhsEdge, .expr lhs), (.plain, .expr rhs)]
  | .expr (.unaryOp _ e _) => [(.plain, .expr e)]
  | .expr (.index base kind args _) => (.plain, .expr base) :: argKids kind.argEdge args
  | .expr (.function params body _) => defaultKids params ++ stmtKids .fnBody body
  | .expr (.block body _) => stmtKids .plain body
  | .expr (.ite cond thenBranch elseBranch _) =>
    (.controlTest, .expr cond) :: (.plain, .expr thenBranch) ::
      elseBranch.toList.map fun e => (.plain, .expr e)
  | .expr (.logical ..) | .expr (.integer ..) | .expr (.double ..) | .expr (.string ..)
  | .expr (.null _) | .expr (.na ..) | .expr (.ident ..) | .expr (.unknown _)
  | .expr (.missing _) => []

noncomputable def AstNode.size : AstNode → Nat
  | .stmt s => sizeOf s
  | .expr e => sizeOf e

@[simp] theorem AstNode.size_stmt (s : Stmt) : (AstNode.stmt s).size = sizeOf s := rfl

@[simp] theorem AstNode.size_expr (e : Expr) : (AstNode.expr e).size = sizeOf e := rfl

theorem sizeOf_stmt_lt {edge e : Edge} {stmts : List Stmt} {k : AstNode}
    (h : (e, k) ∈ stmtKids edge stmts) : k.size < sizeOf stmts := by
  obtain ⟨s, hs, heq⟩ := List.mem_map.mp h
  cases heq
  exact List.sizeOf_lt_of_mem hs

theorem sizeOf_arg_lt {edge e : Edge} {args : List Arg} {k : AstNode}
    (h : (e, k) ∈ argKids edge args) : k.size < sizeOf args := by
  obtain ⟨arg, harg, heq⟩ := List.mem_map.mp h
  cases heq
  have hlt := List.sizeOf_lt_of_mem harg
  have hvalue : sizeOf arg.value < sizeOf arg := by
    cases arg
    simp [Arg.value]
    omega
  exact Nat.lt_trans hvalue hlt

theorem sizeOf_default_lt {e : Edge} {params : List Param} {k : AstNode}
    (h : (e, k) ∈ defaultKids params) : k.size < sizeOf params := by
  obtain ⟨param, hparam, heq⟩ := List.mem_filterMap.mp h
  have hlt := List.sizeOf_lt_of_mem hparam
  cases param with
  | mk name default span =>
    cases default with
    | none => exact absurd heq (by simp [Param.default])
    | some d =>
      cases heq
      simp only [Param.mk.sizeOf_spec, Option.some.sizeOf_spec] at hlt
      simp only [AstNode.size]
      omega

theorem sizeOf_option_lt {e : Edge} {value : Option Expr} {k : AstNode}
    (h : (e, k) ∈ value.toList.map fun e => (Edge.plain, AstNode.expr e)) :
    k.size < sizeOf value := by
  cases value with
  | none => exact absurd h (by simp)
  | some d =>
    obtain ⟨-, rfl⟩ := Prod.ext_iff.mp (List.mem_singleton.mp h)
    simp [AstNode.size]

theorem sizeOf_else_lt {e : Edge} {elseBranch : Option (List Stmt)} {k : AstNode}
    (h : (e, k) ∈ stmtKids .plain (elseBranch.getD [])) : k.size < sizeOf elseBranch := by
  cases elseBranch with
  | none => exact absurd h (by simp [stmtKids])
  | some ss =>
    have hlt := sizeOf_stmt_lt h
    simp only [Option.getD_some] at hlt
    rw [Option.some.sizeOf_spec]
    omega

theorem AstNode.smaller {n k : AstNode} {e : Edge} (h : (e, k) ∈ n.kids) : k.size < n.size := by
  cases n with
  | stmt s =>
    cases s with
    | assign target value span =>
      simp only [kids, List.mem_cons, List.not_mem_nil, or_false, Prod.mk.injEq] at h
      rcases h with ⟨-, rfl⟩ | ⟨-, rfl⟩ <;> simp only [size_stmt, size_expr, Stmt.assign.sizeOf_spec] <;> omega
    | expr e =>
      simp only [kids, List.mem_singleton, Prod.mk.injEq] at h
      obtain ⟨-, rfl⟩ := h
      simp only [size_stmt, size_expr, Stmt.expr.sizeOf_spec]
      omega
    | ite cond thenBranch elseBranch span =>
      simp only [kids, List.mem_cons, List.mem_append, Prod.mk.injEq] at h
      simp only [size_stmt, Stmt.ite.sizeOf_spec]
      rcases h with ⟨-, rfl⟩ | h | h
      · rw [size_expr]
        omega
      · have hlt := sizeOf_stmt_lt h
        omega
      · have hlt := sizeOf_else_lt h
        omega
    | forLoop name nameSpan iter body span =>
      simp only [kids, List.mem_cons, Prod.mk.injEq] at h
      simp only [size_stmt, Stmt.forLoop.sizeOf_spec]
      rcases h with ⟨-, rfl⟩ | h
      · rw [size_expr]
        omega
      · have hlt := sizeOf_stmt_lt h
        omega
    | whileLoop cond body span =>
      simp only [kids, List.mem_cons, Prod.mk.injEq] at h
      simp only [size_stmt, Stmt.whileLoop.sizeOf_spec]
      rcases h with ⟨-, rfl⟩ | h
      · rw [size_expr]
        omega
      · have hlt := sizeOf_stmt_lt h
        omega
    | functionDef params body span =>
      simp only [kids, List.mem_append] at h
      simp only [size_stmt, Stmt.functionDef.sizeOf_spec]
      rcases h with h | h
      · have hlt := sizeOf_default_lt h
        omega
      · have hlt := sizeOf_stmt_lt h
        omega
    | ret value span =>
      have hlt := sizeOf_option_lt h
      simp only [size_stmt, Stmt.ret.sizeOf_spec]
      omega
  | expr e =>
    cases e with
    | call func args span =>
      simp only [kids, List.mem_cons, Prod.mk.injEq] at h
      simp only [size_expr, Expr.call.sizeOf_spec]
      rcases h with ⟨-, rfl⟩ | h
      · rw [size_expr]
        omega
      · have hlt := sizeOf_arg_lt h
        omega
    | binOp op lhs rhs span =>
      simp only [kids, List.mem_cons, List.not_mem_nil, or_false, Prod.mk.injEq] at h
      rcases h with ⟨-, rfl⟩ | ⟨-, rfl⟩ <;> simp only [size_expr, Expr.binOp.sizeOf_spec] <;> omega
    | unaryOp op e span =>
      simp only [kids, List.mem_singleton, Prod.mk.injEq] at h
      obtain ⟨-, rfl⟩ := h
      simp only [size_expr, Expr.unaryOp.sizeOf_spec]
      omega
    | index base kind args span =>
      simp only [kids, List.mem_cons, Prod.mk.injEq] at h
      simp only [size_expr, Expr.index.sizeOf_spec]
      rcases h with ⟨-, rfl⟩ | h
      · rw [size_expr]
        omega
      · have hlt := sizeOf_arg_lt h
        omega
    | function params body span =>
      simp only [kids, List.mem_append] at h
      simp only [size_expr, Expr.function.sizeOf_spec]
      rcases h with h | h
      · have hlt := sizeOf_default_lt h
        omega
      · have hlt := sizeOf_stmt_lt h
        omega
    | block body span =>
      have hlt := sizeOf_stmt_lt h
      simp only [size_expr, Expr.block.sizeOf_spec]
      omega
    | ite cond thenBranch elseBranch span =>
      simp only [kids, List.mem_cons, Prod.mk.injEq] at h
      simp only [size_expr, Expr.ite.sizeOf_spec]
      rcases h with ⟨-, rfl⟩ | ⟨-, rfl⟩ | h
      · rw [size_expr]
        omega
      · rw [size_expr]
        omega
      · have hlt := sizeOf_option_lt h
        omega
    | _ => exact absurd h List.not_mem_nil

/-- The syntax tree with its edges. -/
noncomputable def astTree : Branching AstNode Edge := ⟨AstNode.kids, AstNode.size, AstNode.smaller⟩

def AstNode.start : AstNode → Nat
  | .expr e => e.span.start
  | .stmt (.expr e) => e.span.start
  | .stmt (.assign _ _ span) | .stmt (.ite _ _ _ span) | .stmt (.forLoop _ _ _ _ span)
  | .stmt (.whileLoop _ _ span) | .stmt (.functionDef _ _ span) | .stmt (.ret _ span) => span.start

/-- Function literals on the way. -/
def functionDepth (edges : List Edge) : Nat := edges.countP Edge.entersFunction

/-- What the walker enters: what the policy keeps, but no parameter default. -/
def WalkPolicy.enters (policy : WalkPolicy) (edge : Edge) : Bool :=
  policy.keeps edge && edge != .paramDefault

section Walks

variable {S B : Type} (policy : WalkPolicy) (visit : S → AstNode → Nat → S × Answer B)

def nodeStep (n : AstNode) (edges : List Edge) (st : S) : S × Option B :=
  match n with
  | .stmt s => stmtStep policy visit (functionDepth edges) s st
  | .expr e => exprStep policy visit (functionDepth edges) e st

theorem functionDepth_snoc (edges : List Edge) (edge : Edge) :
    functionDepth (edges ++ [edge]) =
      functionDepth edges + if edge.entersFunction then 1 else 0 := by
  rw [functionDepth, functionDepth, List.countP_append, List.countP_singleton]

theorem enters_of_keeps {edge : Edge} (h : edge ≠ .paramDefault) :
    policy.enters edge = policy.keeps edge := by
  rw [WalkPolicy.enters, bne_iff_ne.mpr h, Bool.and_true]

variable {policy visit}

/-- Statements behind one kind of edge. -/
theorem walkKids_stmts (edges : List Edge) {edge : Edge} (hedge : edge ≠ .paramDefault)
    (stmts : List Stmt) (st : S) :
    Branching.walkKids policy.enters (nodeStep policy visit) edges (stmtKids edge stmts) st =
      stepIf (policy.keeps edge)
        (stmtsStep policy visit (functionDepth (edges ++ [edge])) stmts) st := by
  induction stmts generalizing st with
  | nil =>
    rw [stepIf]
    split <;> rfl
  | cons s ss ih =>
    rw [stmtKids, List.map_cons, Branching.walkKids, enters_of_keeps policy hedge]
    rw [stmtKids] at ih
    by_cases hkeep : policy.keeps edge
    · rw [if_pos hkeep, stepIf, if_pos hkeep, stmtsStep]
      simp only [stepIf, hkeep, if_true] at ih
      exact congrArg _ (funext ih)
    · rw [if_neg hkeep, ih, stepIf, stepIf, if_neg hkeep, if_neg hkeep]

theorem walkKids_args (edges : List Edge) {edge : Edge} (hedge : edge ≠ .paramDefault)
    (args : List Arg) (st : S) :
    Branching.walkKids policy.enters (nodeStep policy visit) edges (argKids edge args) st =
      stepIf (policy.keeps edge)
        (argsStep policy visit (functionDepth (edges ++ [edge])) args) st := by
  induction args generalizing st with
  | nil =>
    rw [stepIf]
    split <;> rfl
  | cons arg args ih =>
    rw [argKids, List.map_cons, Branching.walkKids, enters_of_keeps policy hedge]
    rw [argKids] at ih
    by_cases hkeep : policy.keeps edge
    · rw [if_pos hkeep, stepIf, if_pos hkeep, argsStep]
      simp only [stepIf, hkeep, if_true] at ih
      cases arg with
      | mk name value span => exact congrArg _ (funext ih)
    · rw [if_neg hkeep, ih, stepIf, stepIf, if_neg hkeep, if_neg hkeep]

/-- Parameter defaults are passed over. -/
theorem walkKids_defaults (edges : List Edge) (params : List Param) (st : S) :
    Branching.walkKids policy.enters (nodeStep policy visit) edges (defaultKids params) st =
      (st, none) := by
  refine Branching.walkKids_none ?_ st
  intro k hk
  obtain ⟨param, -, heq⟩ := List.mem_filterMap.mp hk
  obtain ⟨e, -, rfl⟩ := Option.map_eq_some_iff.mp heq
  simp [WalkPolicy.enters]

/-- One child. -/
theorem walkKids_cons (edges : List Edge) {edge : Edge} (hedge : edge ≠ .paramDefault)
    (hin : edge.entersFunction = false) (e : Expr) (ks : List (Edge × AstNode)) (st : S) :
    Branching.walkKids policy.enters (nodeStep policy visit) edges ((edge, .expr e) :: ks) st =
      andThen (stepIf (policy.keeps edge) (exprStep policy visit (functionDepth edges) e) st)
        (Branching.walkKids policy.enters (nodeStep policy visit) edges ks) := by
  have hdepth : functionDepth (edges ++ [edge]) = functionDepth edges := by
    rw [functionDepth_snoc, hin]
    rfl
  rw [Branching.walkKids, enters_of_keeps policy hedge, stepIf, nodeStep, hdepth]
  split <;> rfl

theorem walkKids_else (edges : List Edge) (elseBranch : Option (List Stmt)) (st : S) :
    Branching.walkKids policy.enters (nodeStep policy visit) edges
        (stmtKids .plain (elseBranch.getD [])) st =
      elseStep policy visit (functionDepth edges) elseBranch st := by
  cases elseBranch with
  | none => rfl
  | some ss =>
    rw [Option.getD_some, walkKids_stmts edges (by decide), functionDepth_snoc]
    rfl

theorem walkKids_option (edges : List Edge) (value : Option Expr) (st : S) :
    Branching.walkKids policy.enters (nodeStep policy visit) edges
        (value.toList.map fun e => (Edge.plain, AstNode.expr e)) st =
      optionStep policy visit (functionDepth edges) value st := by
  cases value with
  | none => rfl
  | some e =>
    rw [Option.toList_some, List.map_singleton, walkKids_cons edges (by decide) rfl]
    exact andThen_none _

/-- A function body, behind the defaults. -/
theorem walkKids_function (edges : List Edge) (params : List Param) (body : List Stmt) (st : S) :
    Branching.walkKids policy.enters (nodeStep policy visit) edges
        (defaultKids params ++ stmtKids .fnBody body) st =
      stepIf policy.fnBodies (stmtsStep policy visit (functionDepth edges + 1) body) st := by
  rw [Branching.walkKids_append, walkKids_defaults, andThen, walkKids_stmts edges (by decide),
    functionDepth_snoc]
  rfl

theorem keeps_lhsEdge (op : BinOpKind) : policy.keeps op.lhsEdge = policy.entersLhs op := by
  cases op <;> rfl

theorem keeps_argEdge (kind : IndexKind) :
    policy.keeps kind.argEdge = (!kind.isMember || policy.dollarArgs) := by
  cases kind <;> rfl

/-- Statements in place. -/
theorem walkKids_plain (edges : List Edge) (stmts : List Stmt) (st : S) :
    Branching.walkKids policy.enters (nodeStep policy visit) edges (stmtKids .plain stmts) st =
      stmtsStep policy visit (functionDepth edges) stmts st := by
  rw [walkKids_stmts edges (by decide), functionDepth_snoc]
  rfl

/-- The walker calls back at a node and goes through the children it enters. -/
theorem nodeStep_walks : astTree.Walks (fun st n edges => visit st n (functionDepth edges))
    policy.enters (nodeStep policy visit) := by
  intro n edges st
  cases n with
  | stmt s =>
    rw [nodeStep, stmtStep]
    refine congrArg (answered _) (funext fun st => ?_)
    cases s with
    | assign target value span =>
      simp only [astTree, AstNode.kids]
      rw [walkKids_cons edges (by decide) rfl]
      refine congrArg (andThen _) (funext fun st => ?_)
      rw [walkKids_cons edges (by decide) rfl]
      exact (andThen_none _).symm
    | expr e =>
      simp only [astTree, AstNode.kids]
      rw [walkKids_cons edges (by decide) rfl]
      exact (andThen_none _).symm
    | ite cond thenBranch elseBranch span =>
      simp only [astTree, AstNode.kids]
      rw [walkKids_cons edges (by decide) rfl]
      refine congrArg (andThen _) (funext fun st => ?_)
      rw [Branching.walkKids_append, walkKids_plain]
      exact congrArg (andThen _) (funext fun st => (walkKids_else edges elseBranch st).symm)
    | forLoop name nameSpan iter body span =>
      simp only [astTree, AstNode.kids]
      rw [walkKids_cons edges (by decide) rfl]
      exact congrArg (andThen _) (funext fun st => (walkKids_plain edges body st).symm)
    | whileLoop cond body span =>
      simp only [astTree, AstNode.kids]
      rw [walkKids_cons edges (by decide) rfl]
      exact congrArg (andThen _) (funext fun st => (walkKids_plain edges body st).symm)
    | functionDef params body span => exact (walkKids_function edges params body st).symm
    | ret value span => exact (walkKids_option edges value st).symm
  | expr e =>
    rw [nodeStep, exprStep]
    refine congrArg (answered _) (funext fun st => ?_)
    cases e with
    | call func args span =>
      simp only [astTree, AstNode.kids]
      rw [walkKids_cons edges (by decide) rfl]
      refine congrArg (andThen _) (funext fun st => ?_)
      rw [walkKids_args edges (by decide), functionDepth_snoc]
      rfl
    | binOp op lhs rhs span =>
      simp only [astTree, AstNode.kids]
      rw [walkKids_cons edges (by cases op <;> decide) (by cases op <;> rfl), keeps_lhsEdge]
      refine congrArg (andThen _) (funext fun st => ?_)
      rw [walkKids_cons edges (by decide) rfl]
      exact (andThen_none _).symm
    | unaryOp op e span =>
      simp only [astTree, AstNode.kids]
      rw [walkKids_cons edges (by decide) rfl]
      exact (andThen_none _).symm
    | index base kind args span =>
      simp only [astTree, AstNode.kids]
      rw [walkKids_cons edges (by decide) rfl]
      refine congrArg (andThen _) (funext fun st => ?_)
      rw [walkKids_args edges (by cases kind <;> decide), keeps_argEdge, functionDepth_snoc]
      cases kind <;> rfl
    | function params body span => exact (walkKids_function edges params body st).symm
    | block body span => exact (walkKids_plain edges body st).symm
    | ite cond thenBranch elseBranch span =>
      simp only [astTree, AstNode.kids]
      rw [walkKids_cons edges (by decide) rfl]
      refine congrArg (andThen _) (funext fun st => ?_)
      rw [walkKids_cons edges (by decide) rfl]
      exact congrArg (andThen _) (funext fun st => (walkKids_option edges elseBranch st).symm)
    | _ => rfl

end Walks

/-! ## Source order -/

section

variable {S B : Type} (policy : WalkPolicy) (visit : S → AstNode → Nat → S × Answer B)

/-- Every node of the program, parents first and siblings in source order. -/
noncomputable def sourceOrder (stmts : List Stmt) : List (Placed AstNode Edge) :=
  (astTree.sortedBy AstNode.start).forest [] [] 0
    (Branching.sortKids AstNode.start (stmtKids .plain stmts))

/-- No node comes twice, and none before its parent. -/
theorem sourceOrder_pairwise (stmts : List Stmt) :
    (sourceOrder stmts).Pairwise fun p q => ¬ q.path <+: p.path :=
  Branching.forest_pairwise _ _ _ _ _

/-- Under every policy the walk calls back at exactly the nodes in source order that the policy
keeps, at their depth, without those below a skipped one, and until it is stopped. -/
def WalksInOrder (stmts : List Stmt) : Prop :=
  ∀ (S B : Type) (policy : WalkPolicy) (visit : S → AstNode → Nat → S × Answer B) (st : S),
    walkStmts policy visit stmts st =
      calls (fun st n edges => visit st n (functionDepth edges)) st
        ((sourceOrder stmts).filter (Branching.kept policy.keeps))

/-- Nothing is a parameter default, and children stand in source order. -/
def NoDefaultInOrder (stmts : List Stmt) : Prop :=
  astTree.AllBelow (Branching.Orderly (· != .paramDefault) AstNode.start) (stmtKids .plain stmts)

theorem walkStmts_eq_calls (stmts : List Stmt) (st : S) :
    walkStmts policy visit stmts st =
      calls (fun st n edges => visit st n (functionDepth edges)) st
        ((astTree.forest [] [] 0 (stmtKids .plain stmts)).filter (Branching.kept policy.enters)) := by
  rw [← Branching.walkKids_eq_calls nodeStep_walks rfl, walkKids_plain]
  rfl

end

theorem walksInOrder_of_noDefault {stmts : List Stmt} (h : NoDefaultInOrder stmts) :
    WalksInOrder stmts := by
  intro S B policy visit st
  rw [walkStmts_eq_calls, sourceOrder, ← Branching.forest_of_orderly h]
  rfl

theorem noDefault_of_walksInOrder {stmts : List Stmt} (h : WalksInOrder stmts) :
    NoDefaultInOrder stmts := by
  have henters : WalkPolicy.all.enters = (· != .paramDefault) := by
    funext edge
    cases edge <;> rfl
  have hkeeps : Branching.kept WalkPolicy.all.keeps = fun _ : Placed AstNode Edge => true := by
    funext p
    refine List.all_eq_true.mpr fun edge _ => ?_
    cases edge <;> rfl
  -- a callback that writes down the nodes it is called with, and goes on
  have hlog := h (List AstNode) Empty WalkPolicy.all (fun st n _ => (st ++ [n], .into)) []
  rw [walkStmts_eq_calls, Branching.calls_log, Branching.calls_log, henters, hkeeps,
    List.filter_true] at hlog
  refine Branching.orderly_of_labels ?_
  rw [← Branching.labels_of_forest]
  exact (Prod.mk.inj hlog).1

/-- The walk visits the whole tree in source order exactly if the program has no parameter default,
and lists the children of each node as they stand in the source. -/
theorem walkStmts_exact (stmts : List Stmt) : WalksInOrder stmts ↔ NoDefaultInOrder stmts :=
  ⟨noDefault_of_walksInOrder, walksInOrder_of_noDefault⟩

/-- `function(x = y) x` -/
def defaultProgram : List Stmt :=
  [.expr (.function [.mk "x" (some (.ident "y" ⟨13, 14, 0, 13⟩)) ⟨9, 14, 0, 9⟩]
    [.expr (.ident "x" ⟨16, 17, 0, 16⟩)] ⟨0, 17, 0, 0⟩)]

/-- The default is not visited. -/
theorem walkStmts_misses_default : ¬ ∀ stmts, WalksInOrder stmts := by
  intro hall
  have horderly := noDefault_of_walksInOrder (hall defaultProgram)
  have hfunction := (horderly.kids _ List.mem_cons_self).kids _ List.mem_cons_self
  exact absurd (hfunction.here.keeps _ List.mem_cons_self) (by decide)

end Ry
