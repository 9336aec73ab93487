import Ry.Syntax.Lower
import Mathlib.Algebra.GroupWithZero.Nat

/-! # Lowering the parser's nodes

The tree as tree-sitter gives it for a file without errors: every form has the fields that its
grammar gives it, and comments may stand between the expressions of a block, in parentheses, and
among arguments and parameters.  Commas are children of an argument list, since slots may be
omitted.  `Node.lowerExpr` and `Node.lowerStmt` follow `parser.rs` with its `?`: what cannot be
lowered drops what is around it.  The left operands of a chain of operators are peeled off and
folded from the inside.
-/

namespace Ry.Syntax

mutual
/-- A named child of an argument list. -/
inductive Item
  | comma (span : Span)
  | comment (span : Span)
  | argument (name : Option String) (value : Option Node) (span : Span)
  | other (span : Span)
/-- A named child of a parameter list. -/
inductive ParamItem
  | parameter (name : String) (default : Option Node) (span : Span)
  | other (span : Span)
inductive Node
  | comment (span : Span)
  | logical (value : Bool) (span : Span)
  | number (token : NumberToken) (span : Span)
  | string (value : String) (span : Span)
  | null (span : Span)
  | na (raw : String) (span : Span)
  | identifier (text : String) (span : Span)
  /-- `close` is the span of the bracket that ends the arguments. -/
  | call (function : Node) (arguments : List Item) (close : Span) (span : Span)
  | binary (operator : String) (operatorSpan : Span) (lhs rhs : Node) (span : Span)
  | extract (operator : String) (lhs : Node) (rhs : String) (span : Span)
  | namespaced (package operator name : String) (span : Span)
  | unary (operator : String) (operand : Node) (span : Span)
  | subset (double : Bool) (function : Node) (arguments : List Item) (close : Span) (span : Span)
  | functionDefinition (parameters : List ParamItem) (body : Node) (span : Span)
  | parenthesized (children : List Node) (span : Span)
  | braced (doubled : Bool) (children : List Node) (span : Span)
  | ifStatement (condition consequence : Node) (alternative : Option Node) (span : Span)
  | forStatement (name : String) (nameSpan : Span) (sequence body : Node) (span : Span)
  | whileStatement (condition body : Node) (span : Span)
  | repeatStatement (body : Node) (span : Span)
  | jump (kind : Jump) (span : Span)
  | other (span : Span)
end

/-- An operator that was peeled off, with its right operand. -/
structure Link where
  operator : String
  operatorSpan : Span
  rhs : Node
  span : Span

namespace Node

def isComment : Node → Bool
  | comment _ => true
  | _ => false

def isBinary : Node → Bool
  | binary .. => true
  | _ => false

def isIdentifier : Node → Bool
  | identifier .. => true
  | _ => false

/-- Peel the left spine: the operators from the innermost on, and its first operand. -/
def peel : Node → List Link → List Link × Node
  | binary operator operatorSpan lhs rhs span, links =>
    let links := ⟨operator, operatorSpan, rhs, span⟩ :: links
    if lhs.isBinary then peel lhs links else (links, lhs)
  | node, links => (links, node)

/-- How much the right operands hold: what lowering a spine goes down on. -/
noncomputable def weight (links : List Link) : Nat :=
  (links.map fun link => sizeOf link.rhs + 1).sum

theorem weight_cons (link : Link) (links : List Link) :
    weight (link :: links) = sizeOf link.rhs + 1 + weight links := by
  rw [weight, List.map_cons, List.sum_cons]
  rfl

theorem sizeOf_binary (operator : String) (operatorSpan : Span) (lhs rhs : Node) (span : Span) :
    sizeOf lhs + sizeOf rhs + 1 < sizeOf (binary operator operatorSpan lhs rhs span) := by
  have hsize : sizeOf (binary operator operatorSpan lhs rhs span) =
      1 + sizeOf operator + sizeOf operatorSpan + sizeOf lhs + sizeOf rhs + sizeOf span := rfl
  have hpos : ∀ span : Span, 0 < sizeOf span := fun span => by
    cases span
    simp only [Span.mk.sizeOf_spec]
    omega
  have hspan := hpos span
  have hoperator := hpos operatorSpan
  omega

theorem weight_peel (node : Node) (links : List Link) :
    weight (peel node links).1 + sizeOf (peel node links).2 ≤ sizeOf node + weight links := by
  fun_induction peel node links with
  | case1 operator operatorSpan lhs rhs span links links' hbinary ih =>
    have hcons : weight links' = sizeOf rhs + 1 + weight links := weight_cons _ _
    have hsize := sizeOf_binary operator operatorSpan lhs rhs span
    omega
  | case2 operator operatorSpan lhs rhs span links links' hbinary =>
    have hcons : weight links' = sizeOf rhs + 1 + weight links := weight_cons _ _
    have hsize := sizeOf_binary operator operatorSpan lhs rhs span
    dsimp only
    omega
  | case3 => dsimp only; omega

theorem sizeOf_pos (node : Node) : 0 < sizeOf node := by
  cases node <;> simp only [comment.sizeOf_spec, logical.sizeOf_spec, number.sizeOf_spec,
    string.sizeOf_spec, null.sizeOf_spec, na.sizeOf_spec, identifier.sizeOf_spec, call.sizeOf_spec,
    binary.sizeOf_spec, extract.sizeOf_spec, namespaced.sizeOf_spec, unary.sizeOf_spec,
    subset.sizeOf_spec, functionDefinition.sizeOf_spec, parenthesized.sizeOf_spec,
    braced.sizeOf_spec, ifStatement.sizeOf_spec, forStatement.sizeOf_spec,
    whileStatement.sizeOf_spec, repeatStatement.sizeOf_spec, jump.sizeOf_spec,
    other.sizeOf_spec] <;> omega

/-- What is peeled off a chain is smaller than the chain. -/
theorem peel_lt {node : Node} (h : node.isBinary) :
    weight (peel node []).1 < sizeOf node ∧ sizeOf (peel node []).2 < sizeOf node := by
  have hle := weight_peel node []
  have hnil : weight [] = 0 := rfl
  have hpos := sizeOf_pos (peel node []).2
  have hlinks : 0 < weight (peel node []).1 := by
    have hmore : ∀ (node : Node) (links : List Link), node.isBinary ∨ links ≠ [] →
        0 < weight (peel node links).1 := by
      intro node links
      fun_induction peel node links with
      | case1 _ _ _ _ _ _ _ _ ih => exact fun _ => ih (Or.inr (List.cons_ne_nil _ _))
      | case2 =>
        intro _
        rw [weight_cons]
        omega
      | case3 node links hnot =>
        rintro (hbinary | hlinks)
        · cases node <;> first | exact absurd rfl (hnot _ _ _ _ _) | cases hbinary
        · cases links with
          | nil => exact absurd rfl hlinks
          | cons link links =>
            rw [weight_cons]
            omega
    exact hmore node [] (Or.inl h)
  omega

/-! ## The lowering -/

mutual
def lowerExpr : Node → Option Expr
  | comment _ => none
  | logical value span => some (.logical value span)
  | number token span => some (lowerNumber span token)
  | string value span => some (.string value span)
  | null span => some (.null span)
  | na raw span => some (.na (naType raw) span)
  | identifier text span => some (.ident text span)
  | call function arguments close span => do
    let func ← lowerExpr function
    some (.call func (lowerArguments arguments [] none false close) span)
  | binary operator operatorSpan lhs rhs span =>
    if lhs.isBinary then
      -- a chain: its first operand, then one operator after the other
      have _hpeel := @peel_lt (binary operator operatorSpan lhs rhs span) rfl
      do
        let expr ← lowerExpr (peel (binary operator operatorSpan lhs rhs span) []).2
        lowerSpine (peel (binary operator operatorSpan lhs rhs span) []).1 expr
    else do
      let left ← lowerExpr lhs
      let right ← lowerExpr rhs
      some (binaryExpression operator left right span operatorSpan)
  | extract operator lhs rhs span => do
    let base ← lowerExpr lhs
    some (lowerExtract operator base rhs span)
  | namespaced package operator name span => some (.ident (package ++ operator ++ name) span)
  | unary operator operand span => do
    let expr ← lowerExpr operand
    some (lowerUnary operator expr span)
  | subset double function arguments close span => do
    let base ← lowerExpr function
    some (.index base (if double then .double else .single)
      (lowerArguments arguments [] none false close) span)
  | functionDefinition parameters body span =>
    some (.function (lowerParams parameters) (lowerBlock body) span)
  | parenthesized children _ => lowerFirst children
  | braced doubled children span =>
    if doubled then some (.block [.expr (.block (lowerStmts children) span)] span)
    else some (.block (lowerStmts children) span)
  | ifStatement condition consequence alternative span => do
    let cond ← lowerExpr condition
    let thenBranch ← lowerExpr consequence
    some (.ite cond thenBranch (lowerDefault alternative) span)
  | forStatement _ _ _ _ span | whileStatement _ _ span | repeatStatement _ span
  | jump _ span | other span => some (.unknown span)
termination_by node => (sizeOf node, 0)
decreasing_by
  all_goals first
    | exact .left _ _ _hpeel.1
    | exact .left _ _ _hpeel.2
    | decreasing_tactic
def lowerSpine : List Link → Expr → Option Expr
  | [], expr => some expr
  | link :: links, expr => do
    let rhs ← lowerExpr link.rhs
    lowerSpine links (binaryExpression link.operator expr rhs link.span link.operatorSpan)
termination_by links => (weight links, 0)
decreasing_by
  · refine .left _ _ ?_
    rw [weight_cons]
    omega
  · refine .left _ _ ?_
    rw [weight_cons]
    omega
/-- The expression in parentheses. -/
def lowerFirst : List Node → Option Expr
  | [] => none
  | node :: nodes => if node.isComment then lowerFirst nodes else lowerExpr node
termination_by nodes => (sizeOf nodes, 0)
def tryLowerAssign (operator : String) (lhs rhs : Node) (span : Span) : Option Stmt := do
  let left ← lowerExpr lhs
  let right ← lowerExpr rhs
  Ry.tryLowerAssign operator lhs.isIdentifier left right span
termination_by (sizeOf lhs + sizeOf rhs, 1)
decreasing_by
  · have hpos := sizeOf_pos rhs
    exact .left _ _ (by omega)
  · have hpos := sizeOf_pos lhs
    exact .left _ _ (by omega)
def lowerStmt : Node → Option Stmt
  | binary operator operatorSpan lhs rhs span =>
    match tryLowerAssign operator lhs rhs span with
    | some assign => some assign
    | none => do
      let expr ← lowerExpr (binary operator operatorSpan lhs rhs span)
      some (.expr expr)
  | jump .break_ span => some (.expr (.ident "break" span))
  | jump .next_ span => some (.expr (.ident "next" span))
  | ifStatement condition consequence alternative span => do
    let cond ← lowerExpr condition
    some (.ite cond (lowerBlock consequence) (lowerAlternative alternative) span)
  | forStatement name nameSpan sequence body span => do
    let iter ← lowerExpr sequence
    some (.forLoop name nameSpan iter (lowerBlock body) span)
  | whileStatement condition body span =>
    some (.whileLoop ((lowerExpr condition).getD (.unknown span)) (lowerBlock body) span)
  | repeatStatement body span => some (.whileLoop (.logical true span) (lowerBlock body) span)
  | braced _ children span => some (.expr (.block (lowerStmts children) span))
  | functionDefinition parameters body span =>
    some (.functionDef (lowerParams parameters) (lowerBlock body) span)
  | node => do
    let expr ← lowerExpr node
    some (.expr expr)
termination_by node => (sizeOf node, 1)
def lowerBlock : Node → List Stmt
  | braced _ children _ => lowerStmts children
  | node => (lowerStmt node).toList
termination_by node => (sizeOf node, 2)
def lowerStmts : List Node → List Stmt
  | [] => []
  | node :: nodes => (lowerStmt node).toList ++ lowerStmts nodes
termination_by nodes => (sizeOf nodes, 0)
def lowerAlternative : Option Node → Option (List Stmt)
  | none => none
  | some node => some (lowerBlock node)
termination_by node => (sizeOf node, 0)
def lowerDefault : Option Node → Option Expr
  | none => none
  | some node => lowerExpr node
termination_by node => (sizeOf node, 0)
/-- The loop over an argument list: the slots so far, and the one that is open. -/
def lowerArguments : List Item → List Arg → Option Arg → Bool → Span → List Arg
  | [], out, some argument, _, _ => out ++ [argument]
  | [], out, none, sawComma, close => if sawComma then out ++ [missingAt close] else out
  | .argument name value span :: items, out, _, sawComma, close =>
    lowerArguments items out (some (.mk name (lowerValue value span) span)) sawComma close
  | .comma span :: items, out, pending, _, close =>
    lowerArguments items (out ++ [pending.getD (missingAt span)]) none true close
  | .comment _ :: items, out, pending, sawComma, close =>
    lowerArguments items out pending sawComma close
  | .other span :: items, out, _, sawComma, close =>
    lowerArguments items out (some (.mk none (.unknown span) span)) sawComma close
termination_by items => (sizeOf items, 0)
/-- The value of an argument (`lower_arg`). -/
def lowerValue : Option Node → Span → Expr
  | none, span => .missing span
  | some node, span => (lowerExpr node).getD (.unknown span)
termination_by node => (sizeOf node, 0)
def lowerParams : List ParamItem → List Param
  | [] => []
  | .parameter name default span :: items => .mk name (lowerDefault default) span :: lowerParams items
  | .other _ :: items => lowerParams items
termination_by items => (sizeOf items, 0)
end

section

-- Lean derives the equations of these functions here, once for the modules that rewrite by them
attribute [local simp] lowerExpr lowerSpine lowerFirst tryLowerAssign lowerStmt lowerBlock lowerStmts
  lowerAlternative lowerDefault lowerArguments lowerValue lowerParams

end

/-! ## The tree without its comments -/

mutual
/-- The tree without comments and commas, its slots as R's parser has them. -/
def strip : Node → Cst
  | logical value span => .logical value span
  | number token span => .number token span
  | string value span => .string value span
  | null span => .null span
  | na raw span => .na raw span
  | identifier text span => .identifier text span
  | call function arguments close span =>
    .call (strip function) (stripItems arguments none false close) span
  | binary operator operatorSpan lhs rhs span =>
    .binary operator operatorSpan (strip lhs) (strip rhs) span
  | extract operator lhs rhs span => .extract operator (strip lhs) rhs span
  | namespaced package operator name span => .namespaced package operator name span
  | unary operator operand span => .unary operator (strip operand) span
  | subset double function arguments close span =>
    .subset double (strip function) (stripItems arguments none false close) span
  | functionDefinition parameters body span =>
    .functionDefinition (stripParams parameters) (strip body) span
  | parenthesized children span => stripFirst children span
  | braced doubled children span => .braced doubled (stripNodes children) span
  | ifStatement condition consequence alternative span =>
    .ifStatement (strip condition) (strip consequence) (stripOption alternative) span
  | forStatement name nameSpan sequence body span =>
    .forStatement name nameSpan (strip sequence) (strip body) span
  | whileStatement condition body span => .whileStatement (strip condition) (strip body) span
  | repeatStatement body span => .repeatStatement (strip body) span
  | jump kind span => .jump kind span
  | comment span | other span => .other span
def stripNodes : List Node → List Cst
  | [] => []
  | node :: nodes => if node.isComment then stripNodes nodes else strip node :: stripNodes nodes
def stripFirst : List Node → Span → Cst
  | [], span => .other span
  | node :: nodes, span =>
    if node.isComment then stripFirst nodes span else .parenthesized (strip node) span
def stripOption : Option Node → Option Cst
  | none => none
  | some node => some (strip node)
def stripItems : List Item → Option CstArg → Bool → Span → List CstArg
  | [], some slot, _, _ => [slot]
  | [], none, sawComma, close => if sawComma then [.omitted close] else []
  | .argument name value span :: items, _, sawComma, close =>
    stripItems items (some (.argument name (stripOption value) span)) sawComma close
  | .comma span :: items, pending, _, close =>
    pending.getD (.omitted span) :: stripItems items none true close
  | .comment _ :: items, pending, sawComma, close => stripItems items pending sawComma close
  | .other span :: items, _, sawComma, close =>
    stripItems items (some (.argument none (some (.other span)) span)) sawComma close
def stripParams : List ParamItem → List CstParam
  | [] => []
  | .parameter name default span :: items => .mk name (stripOption default) span :: stripParams items
  | .other _ :: items => stripParams items
end

end Node

end Ry.Syntax
