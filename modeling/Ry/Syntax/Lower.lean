import Ry.Core.Ast
import Ry.Core.Join

/-! # Lowering

The parser's concrete tree and what `parser.rs` makes of it.  A `Cst` is a tree of a file that
parses: every field a form has is there, and comments, which are no expressions, are left out.
The tokens that carry a value hold the decoded one.
-/

namespace Ry

/-- A number as its digits parse. -/
inductive NumberToken
  | integer (value : Int)
  | double (bits : UInt64)
  | unsupported

inductive Jump
  | break_
  | next_

mutual
/-- What stands between two commas. -/
inductive CstArg
  | argument (name : Option String) (value : Option Cst) (span : Span)
  | omitted (span : Span)
inductive CstParam
  | mk (name : String) (default : Option Cst) (span : Span)
inductive Cst
  | logical (value : Bool) (span : Span)
  | number (token : NumberToken) (span : Span)
  | string (value : String) (span : Span)
  | null (span : Span)
  | na (raw : String) (span : Span)
  /-- The dots too. -/
  | identifier (text : String) (span : Span)
  | call (function : Cst) (arguments : List CstArg) (span : Span)
  | binary (operator : String) (operatorSpan : Span) (lhs rhs : Cst) (span : Span)
  /-- `$` or `@` and the text on its right. -/
  | extract (operator : String) (lhs : Cst) (rhs : String) (span : Span)
  | namespaced (package operator name : String) (span : Span)
  | unary (operator : String) (operand : Cst) (span : Span)
  | subset (double : Bool) (function : Cst) (arguments : List CstArg) (span : Span)
  | functionDefinition (parameters : List CstParam) (body : Cst) (span : Span)
  | parenthesized (inner : Cst) (span : Span)
  /-- `doubled` when the text begins with two braces and ends with two. -/
  | braced (doubled : Bool) (body : List Cst) (span : Span)
  | ifStatement (condition consequence : Cst) (alternative : Option Cst) (span : Span)
  | forStatement (name : String) (nameSpan : Span) (sequence body : Cst) (span : Span)
  | whileStatement (condition body : Cst) (span : Span)
  | repeatStatement (body : Cst) (span : Span)
  | jump (kind : Jump) (span : Span)
  /-- A form the lowering has no case for, such as `..1`. -/
  | other (span : Span)
end

namespace Cst

def span : Cst → Span
  | logical _ s | number _ s | string _ s | null s | na _ s | identifier _ s | call _ _ s
  | binary _ _ _ _ s | extract _ _ _ s | namespaced _ _ _ s | unary _ _ s | subset _ _ _ s
  | functionDefinition _ _ s | parenthesized _ s | braced _ _ s | ifStatement _ _ _ s
  | forStatement _ _ _ _ s | whileStatement _ _ s | repeatStatement _ s | jump _ s
  | other s => s

end Cst

def CstArg.values : CstArg → List Cst
  | .argument _ value _ => value.toList
  | .omitted _ => []

def CstParam.defaults : CstParam → List Cst
  | .mk _ default _ => default.toList

namespace Cst

def children : Cst → List Cst
  | call function arguments _ | subset _ function arguments _ =>
    function :: arguments.flatMap CstArg.values
  | binary _ _ lhs rhs _ => [lhs, rhs]
  | extract _ inner _ _ | unary _ inner _ | parenthesized inner _ | repeatStatement inner _ => [inner]
  | functionDefinition parameters body _ => parameters.flatMap CstParam.defaults ++ [body]
  | braced _ body _ => body
  | ifStatement condition consequence alternative _ =>
    condition :: consequence :: alternative.toList
  | forStatement _ _ sequence body _ => [sequence, body]
  | whileStatement condition body _ => [condition, body]
  | logical .. | number .. | string .. | null _ | na .. | identifier .. | namespaced .. | jump ..
  | other _ => []

theorem induction {P : Cst → Prop} (h : ∀ node : Cst, (∀ child ∈ node.children, P child) → P node)
    (node : Cst) : P node := by
  apply @Cst.rec (fun slot => ∀ child ∈ slot.values, P child)
    (fun parameter => ∀ child ∈ parameter.defaults, P child) P
    (fun node => ∀ child ∈ node.toList, P child)
    (fun slots => ∀ slot ∈ slots, ∀ child ∈ slot.values, P child)
    (fun parameters => ∀ parameter ∈ parameters, ∀ child ∈ parameter.defaults, P child)
    (fun nodes => ∀ child ∈ nodes, P child)
  case call =>
    intro function arguments span hfunction harguments
    refine h _ fun child hchild => ?_
    rcases List.mem_cons.mp hchild with rfl | hchild
    · exact hfunction
    · obtain ⟨slot, hslot, hchild⟩ := List.mem_flatMap.mp hchild
      exact harguments slot hslot child hchild
  case subset =>
    intro double function arguments span hfunction harguments
    refine h _ fun child hchild => ?_
    rcases List.mem_cons.mp hchild with rfl | hchild
    · exact hfunction
    · obtain ⟨slot, hslot, hchild⟩ := List.mem_flatMap.mp hchild
      exact harguments slot hslot child hchild
  case functionDefinition =>
    intro parameters body span hparameters hbody
    refine h _ fun child hchild => ?_
    rcases List.mem_append.mp hchild with hchild | hchild
    · obtain ⟨parameter, hparameter, hchild⟩ := List.mem_flatMap.mp hchild
      exact hparameters parameter hparameter child hchild
    · exact List.mem_singleton.mp hchild ▸ hbody
  case argument => exact fun _ value _ hvalue => hvalue
  case omitted => exact fun _ child hchild => absurd hchild List.not_mem_nil
  case mk => exact fun _ default _ hdefault => hdefault
  case binary =>
    intro operator operatorSpan lhs rhs span hlhs hrhs
    exact h _ (List.forall_mem_cons.mpr ⟨hlhs, List.forall_mem_singleton.mpr hrhs⟩)
  case whileStatement =>
    intro condition body span hcondition hbody
    exact h _ (List.forall_mem_cons.mpr ⟨hcondition, List.forall_mem_singleton.mpr hbody⟩)
  case forStatement =>
    intro name nameSpan sequence body span hsequence hbody
    exact h _ (List.forall_mem_cons.mpr ⟨hsequence, List.forall_mem_singleton.mpr hbody⟩)
  case ifStatement =>
    intro condition consequence alternative span hcondition hconsequence halternative
    exact h _ (List.forall_mem_cons.mpr ⟨hcondition, List.forall_mem_cons.mpr
      ⟨hconsequence, halternative⟩⟩)
  case extract => exact fun operator lhs rhs span hlhs => h _ (List.forall_mem_singleton.mpr hlhs)
  case unary => exact fun operator operand span hin => h _ (List.forall_mem_singleton.mpr hin)
  case parenthesized => exact fun inner span hinner => h _ (List.forall_mem_singleton.mpr hinner)
  case repeatStatement => exact fun body span hbody => h _ (List.forall_mem_singleton.mpr hbody)
  case braced => exact fun doubled body span hbody => h _ hbody
  case none => exact fun child hchild => absurd hchild List.not_mem_nil
  case some => exact fun node hnode => List.forall_mem_singleton.mpr hnode
  case nil | nil | nil => exact fun child hchild => absurd hchild List.not_mem_nil
  case cons | cons | cons => exact fun _ _ hhead htail => List.forall_mem_cons.mpr ⟨hhead, htail⟩
  all_goals
    intros
    exact h _ fun child hchild => absurd hchild List.not_mem_nil

/-- The tree is `node` or below it. -/
inductive Part (part : Cst) : Cst → Prop
  | refl : Part part part
  | child {child node : Cst} (h : child ∈ node.children) (hpart : Part part child) : Part part node

theorem Part.cases {part node : Cst} (h : Part part node) :
    part = node ∨ ∃ child ∈ node.children, Part part child := by
  cases h with
  | refl => exact .inl rfl
  | child hchild hpart => exact .inr ⟨_, hchild, hpart⟩

end Cst

/-! ## The forms -/

def lowerNumber (span : Span) : NumberToken → Expr
  | .integer value => .integer value span
  | .double bits => .double bits span
  -- an unsupported spelling must not drop the statement around it
  | .unsupported => .unknown span

def naType (raw : String) : RType :=
  if raw = "NA" then .scalar .logical
  else if raw = "NA_integer_" then .scalar .integer
  else if raw = "NA_real_" then .scalar .double
  else if raw = "NA_complex_" then .scalar .complex
  else if raw = "NA_character_" then .scalar .character
  else .unknown

def binOpKind : String → Option BinOpKind
  | "+" => some .add
  | "-" => some .sub
  | "*" => some .mul
  | "**" => some .pow
  | "/" => some .div
  | "^" => some .pow
  | "%%" => some .mod
  | "%/%" => some .idiv
  | ":" => some .colon
  | "<" => some .lt
  | "<=" => some .le
  | ">" => some .gt
  | ">=" => some .ge
  | "==" => some .eq
  | "!=" => some .ne
  | "&" => some .and
  | "&&" => some .andAnd
  | "|" => some .or
  | "||" => some .orOr
  | "%in%" => some .elemOf
  | "|>" => some .pipeNative
  | "%>%" => some .pipeForward
  | "%T>%" => some .pipeTee
  | "%<>%" => some .pipeAssign
  | "<-" | "=" => some .assign
  | "<<-" => some .superAssign
  | _ => none

/-- Right assignments swap their operands; an operator without a kind is a call of it. -/
def binaryExpression (operator : String) (lhs rhs : Expr) (span operatorSpan : Span) : Expr :=
  if operator = "->>" then .binOp .superAssign rhs lhs span
  else if operator = "->" then .binOp .assign rhs lhs span
  else
    match binOpKind operator with
    | some op => .binOp op lhs rhs span
    | none => .call (.ident operator operatorSpan) [.mk none lhs span, .mk none rhs span] span

def lowerUnary (operator : String) (expr : Expr) (span : Span) : Expr :=
  if operator = "-" then .unaryOp .neg expr span
  else if operator = "+" then expr
  else if operator = "!" then .unaryOp .not expr span
  else .unknown span

/-- `$` and `@` keep the field's name as an argument. -/
def lowerExtract (operator : String) (base : Expr) (name : String) (span : Span) : Expr :=
  .index base (if operator = "@" then .slot else .dollar) [.mk (some name) (.ident name span) span] span

def assignOperators : List String := ["<-", "<<-", "=", "->", "->>", ":="]

/-- An assignment in statement position; `lhsIsIdentifier` is about the left operand. -/
def tryLowerAssign (operator : String) (lhsIsIdentifier : Bool) (lhs rhs : Expr) (span : Span) :
    Option Stmt :=
  if operator ∉ assignOperators then none
  else if operator = ":=" ∧ lhsIsIdentifier = false then none
  else
    let (target, value) := if operator = "->" ∨ operator = "->>" then (rhs, lhs) else (lhs, rhs)
    -- the operator of a super-assignment survives in the value
    let value := if operator = "<<-" ∨ operator = "->>" then .binOp .superAssign target value span
      else value
    some (.assign target value span)

def missingAt (span : Span) : Arg :=
  let span := { span with stop := span.start }
  .mk none (.missing span) span

def Cst.isIdentifier : Cst → Bool
  | .identifier .. => true
  | _ => false

/-! ## The tree -/

mutual
def lowerExpr : Cst → Expr
  | .logical value span => .logical value span
  | .number token span => lowerNumber span token
  | .string value span => .string value span
  | .null span => .null span
  | .na raw span => .na (naType raw) span
  | .identifier text span => .ident text span
  | .call function arguments span => .call (lowerExpr function) (lowerArguments arguments) span
  -- the source folds a chain of left operands with a loop
  | .binary operator operatorSpan lhs rhs span =>
    binaryExpression operator (lowerExpr lhs) (lowerExpr rhs) span operatorSpan
  | .extract operator lhs rhs span => lowerExtract operator (lowerExpr lhs) rhs span
  | .namespaced package operator name span => .ident (package ++ operator ++ name) span
  | .unary operator operand span => lowerUnary operator (lowerExpr operand) span
  | .subset double function arguments span =>
    .index (lowerExpr function) (if double then .double else .single) (lowerArguments arguments) span
  | .functionDefinition parameters body span =>
    .function (lowerParams parameters) (lowerBlock body) span
  | .parenthesized inner _ => lowerExpr inner
  | .braced doubled body span =>
    if doubled then .block [.expr (.block (lowerStmts body) span)] span
    else .block (lowerStmts body) span
  | .ifStatement condition consequence alternative span =>
    .ite (lowerExpr condition) (lowerExpr consequence) (lowerAlternative alternative) span
  | .forStatement _ _ _ _ span | .whileStatement _ _ span | .repeatStatement _ span
  | .jump _ span | .other span => .unknown span
termination_by node => (sizeOf node, 0)
def lowerStmt : Cst → Stmt
  | .binary operator operatorSpan lhs rhs span =>
    match tryLowerAssign operator lhs.isIdentifier (lowerExpr lhs) (lowerExpr rhs) span with
    | some assign => assign
    | none => .expr (binaryExpression operator (lowerExpr lhs) (lowerExpr rhs) span operatorSpan)
  -- flow analyses look for the keywords
  | .jump .break_ span => .expr (.ident "break" span)
  | .jump .next_ span => .expr (.ident "next" span)
  | .ifStatement condition consequence alternative span =>
    .ite (lowerExpr condition) (lowerBlock consequence) (lowerAlternativeBlock alternative) span
  | .forStatement name nameSpan sequence body span =>
    .forLoop name nameSpan (lowerExpr sequence) (lowerBlock body) span
  | .whileStatement condition body span => .whileLoop (lowerExpr condition) (lowerBlock body) span
  | .repeatStatement body span => .whileLoop (.logical true span) (lowerBlock body) span
  | .braced _ body span => .expr (.block (lowerStmts body) span)
  | .functionDefinition parameters body span =>
    .functionDef (lowerParams parameters) (lowerBlock body) span
  | node => .expr (lowerExpr node)
termination_by node => (sizeOf node, 1)
def lowerBlock : Cst → List Stmt
  | .braced _ body _ => lowerStmts body
  | node => [lowerStmt node]
termination_by node => (sizeOf node, 2)
def lowerStmts : List Cst → List Stmt
  | [] => []
  | node :: nodes => lowerStmt node :: lowerStmts nodes
termination_by nodes => (sizeOf nodes, 0)
def lowerAlternative : Option Cst → Option Expr
  | none => none
  | some node => some (lowerExpr node)
termination_by node => (sizeOf node, 0)
def lowerAlternativeBlock : Option Cst → Option (List Stmt)
  | none => none
  | some node => some (lowerBlock node)
termination_by node => (sizeOf node, 0)
def lowerArguments : List CstArg → List Arg
  | [] => []
  | slot :: slots => lowerArg slot :: lowerArguments slots
termination_by slots => (sizeOf slots, 0)
def lowerArg : CstArg → Arg
  | .omitted span => missingAt span
  | .argument name none span => .mk name (.missing span) span
  | .argument name (some value) span => .mk name (lowerExpr value) span
termination_by slot => (sizeOf slot, 0)
def lowerParams : List CstParam → List Param
  | [] => []
  | parameter :: parameters => lowerParam parameter :: lowerParams parameters
termination_by parameters => (sizeOf parameters, 0)
def lowerParam : CstParam → Param
  | .mk name default span => .mk name (lowerAlternative default) span
termination_by parameter => (sizeOf parameter, 0)
end

section

-- Lean derives the equations of these functions here, once for the modules that rewrite by them
attribute [local simp] lowerExpr lowerStmt lowerBlock lowerStmts lowerAlternative
  lowerAlternativeBlock lowerArguments lowerArg lowerParams lowerParam

end

end Ry
