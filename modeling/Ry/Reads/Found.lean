import Ry.Reads.Scan

/-! # What the scan finds

On the parser's tree, a walk collects the names lowering and the scan keep and the function
literals they meet.  What a function or a loop binds stays inside it.  `scan_lowered` says that
the scan of a lowered tree adds to its frames and to its map exactly what the walk finds.

The walk takes what to make of a name and of an opaque form as parameters, so that the same walk
also collects what opaque forms hide.
-/

namespace Ry.Reads

/-- A function literal of the file. -/
structure Literal where
  parameters : List CstParam
  body : Cst
  span : Span

structure Found where
  names : List String
  literals : List Literal

namespace Found

def empty : Found := ⟨[], []⟩

def append (f g : Found) : Found := ⟨f.names ++ g.names, f.literals ++ g.literals⟩

/-- Names bound by the formals stay inside. -/
def hide (f : Found) (formals : Finset String) : Found :=
  { f with names := f.names.filter (· ∉ formals) }

def literal (f : Found) (literal : Literal) : Found :=
  { f with literals := f.literals ++ [literal] }

end Found

def cstFormalNames (parameters : List CstParam) : Finset String :=
  formalNames (lowerParams parameters)

/-! ## The walk -/

section Walk

variable (leaf : String → List String) (form : Cst → List String)

def foundName (name : String) : Found := ⟨leaf (semanticArgumentName name), []⟩

/-- The operands in the order of the lowered node. -/
def foundBinary (operator : String) (lhs rhs : Found) : Found :=
  if operator = "->>" ∨ operator = "->" then rhs.append lhs
  else if (binOpKind operator).isSome then lhs.append rhs
  else (foundName leaf operator).append (lhs.append rhs)

/-- Only these operators are kept. -/
def isUnaryKept (operator : String) : Bool := operator = "-" ∨ operator = "+" ∨ operator = "!"

mutual
def foundExpr : Cst → Found
  | .logical .. | .number .. | .string .. | .null _ | .na .. => .empty
  | .identifier text _ => foundName leaf text
  | .call function arguments _ => (foundExpr function).append (foundArgs arguments)
  | .binary operator _ lhs rhs _ => foundBinary leaf operator (foundExpr lhs) (foundExpr rhs)
  -- the field's name is kept as an identifier
  | .extract _ lhs rhs _ => (foundExpr lhs).append (foundName leaf rhs)
  | .namespaced package operator name _ => foundName leaf (package ++ operator ++ name)
  | .unary operator operand span =>
    if isUnaryKept operator then foundExpr operand
    else ⟨form (.unary operator operand span), []⟩
  | .subset _ function arguments _ => (foundExpr function).append (foundArgs arguments)
  | .functionDefinition parameters body span =>
    (((foundParams parameters).append (foundBlock body)).hide (cstFormalNames parameters)).literal
      ⟨parameters, body, span⟩
  | .parenthesized inner _ => foundExpr inner
  | .braced _ body _ => foundStmts body
  | .ifStatement condition consequence alternative _ =>
    ((foundExpr condition).append (foundExpr consequence)).append (foundAlternative alternative)
  | .forStatement name nameSpan sequence body span =>
    ⟨form (.forStatement name nameSpan sequence body span), []⟩
  | .whileStatement condition body span => ⟨form (.whileStatement condition body span), []⟩
  | .repeatStatement body span => ⟨form (.repeatStatement body span), []⟩
  | .jump kind span => ⟨form (.jump kind span), []⟩
  | .other span => ⟨form (.other span), []⟩
termination_by node => (sizeOf node, 0)
def foundTarget : Cst → Found
  | .identifier .. | .namespaced .. => .empty
  | .extract _ lhs rhs _ => (foundTarget lhs).append (foundName leaf rhs)
  | .subset _ function arguments _ => (foundTarget function).append (foundArgs arguments)
  | .parenthesized inner _ => foundTarget inner
  | .unary operator operand span =>
    if operator = "+" then foundTarget operand else foundExpr (.unary operator operand span)
  | node => foundExpr node
termination_by node => (sizeOf node, 1)
def foundStmt : Cst → Found
  | .binary operator operatorSpan lhs rhs span =>
    if operator ∉ assignOperators ∨ (operator = ":=" ∧ lhs.isIdentifier = false) then
      foundExpr (.binary operator operatorSpan lhs rhs span)
    else if operator = "<<-" then
      (foundTarget lhs).append ((foundExpr lhs).append (foundExpr rhs))
    else if operator = "->>" then
      (foundTarget rhs).append ((foundExpr rhs).append (foundExpr lhs))
    else if operator = "->" then (foundTarget rhs).append (foundExpr lhs)
    else (foundTarget lhs).append (foundExpr rhs)
  | .jump .break_ _ => foundName leaf "break"
  | .jump .next_ _ => foundName leaf "next"
  | .ifStatement condition consequence alternative _ =>
    ((foundExpr condition).append (foundBlock consequence)).append
      (foundAlternativeBlock alternative)
  | .forStatement name _ sequence body _ =>
    (foundExpr sequence).append ((foundBlock body).hide {semanticArgumentName name})
  | .whileStatement condition body _ => (foundExpr condition).append (foundBlock body)
  | .repeatStatement body _ => foundBlock body
  | node => foundExpr node
termination_by node => (sizeOf node, 1)
def foundBlock : Cst → Found
  | .braced _ body _ => foundStmts body
  | node => foundStmt node
termination_by node => (sizeOf node, 2)
def foundStmts : List Cst → Found
  | [] => .empty
  | node :: nodes => (foundStmt node).append (foundStmts nodes)
termination_by nodes => (sizeOf nodes, 0)
def foundAlternative : Option Cst → Found
  | none => .empty
  | some node => foundExpr node
termination_by node => (sizeOf node, 0)
def foundAlternativeBlock : Option Cst → Found
  | none => .empty
  | some node => foundBlock node
termination_by node => (sizeOf node, 0)
def foundArgs : List CstArg → Found
  | [] => .empty
  | slot :: slots => (foundArg slot).append (foundArgs slots)
termination_by slots => (sizeOf slots, 0)
def foundArg : CstArg → Found
  | .omitted _ => .empty
  | .argument _ value _ => foundAlternative value
termination_by slot => (sizeOf slot, 0)
def foundParams : List CstParam → Found
  | [] => .empty
  | parameter :: parameters => (foundParam parameter).append (foundParams parameters)
termination_by parameters => (sizeOf parameters, 0)
def foundParam : CstParam → Found
  | .mk _ default _ => foundAlternative default
termination_by parameter => (sizeOf parameter, 0)
end

end Walk

/-! ## What the scan keeps -/

def keptName (name : String) : List String := [name]

def nothing (_ : Cst) : List String := []

/-- Everything found in the defaults and the body of a literal. -/
def Literal.found (l : Literal) : Found :=
  (foundParams keptName nothing l.parameters).append (foundBlock keptName nothing l.body)

def Literal.formals (l : Literal) : Finset String := cstFormalNames l.parameters

/-- The reads the map has for a literal. -/
def Literal.reads (l : Literal) : Finset String := l.found.names.toFinset ∩ l.formals

namespace Scan

def record (s : Scan) (l : Literal) : Scan := { s with map := s.map.insert l.span l.reads }

/-- Read every name and enter every literal. -/
def add (s : Scan) (f : Found) : Scan :=
  ⟨f.names.foldl (fun frames name => attributeRead name frames) s.frames,
    f.literals.foldl (fun map l => map.insert l.span l.reads) s.map⟩

@[simp] theorem add_empty (s : Scan) : s.add .empty = s := rfl

theorem add_append (s : Scan) (f g : Found) : s.add (f.append g) = (s.add f).add g := by
  simp [add, Found.append]

theorem add_name (s : Scan) (name : String) : s.add (foundName keptName name) = s.read name := rfl

end Scan

/-! ## One frame more -/

theorem foldl_attributeRead (names : List String) (frame : ReadFrame) (frames : List ReadFrame) :
    names.foldl (fun frames name => attributeRead name frames) (frame :: frames) =
      { frame with reads := frame.reads ∪ names.toFinset ∩ frame.formals } ::
        (names.filter (· ∉ frame.formals)).foldl (fun frames name => attributeRead name frames)
          frames := by
  induction names generalizing frame frames with
  | nil => simp
  | cons name names ih =>
    rw [List.foldl_cons, attributeRead]
    split
    · rename_i hmem
      rw [ih, List.filter_cons_of_neg (by simpa using hmem)]
      congr 2
      ext x
      simp only [Finset.mem_union, Finset.mem_insert, Finset.mem_inter, List.mem_toFinset,
        List.mem_cons]
      constructor
      · rintro ((rfl | h) | h)
        · exact .inr ⟨.inl rfl, hmem⟩
        · exact .inl h
        · exact .inr ⟨.inr h.1, h.2⟩
      · rintro (h | ⟨rfl | h, hformal⟩)
        · exact .inl (.inr h)
        · exact .inl (.inl rfl)
        · exact .inr ⟨h, hformal⟩
    · rename_i hmem
      rw [ih, List.filter_cons_of_pos (by simpa using hmem), List.foldl_cons]
      congr 2
      rw [List.toFinset_cons, Finset.insert_inter_of_notMem hmem]

theorem leave_enter (s : Scan) (l : Literal) :
    ((s.enter l.span l.formals).add l.found).leave =
      s.add ((l.found.hide l.formals).literal l) := by
  simp only [Scan.leave, Scan.add, Scan.enter, foldl_attributeRead, Finset.empty_union,
    Found.literal, Found.hide, List.foldl_append, List.foldl_cons, List.foldl_nil, Literal.reads]

theorem leaveLoop_enter (s : Scan) (span : Span) (formals : Finset String) (f : Found) :
    ((s.enter span formals).add f).leaveLoop = s.add (f.hide formals) := by
  simp only [Scan.leaveLoop, Scan.add, Scan.enter, foldl_attributeRead, List.tail_cons, Found.hide]

/-! ## The scan of a lowered tree -/

/-- The scans of a node as an expression, as a target, as a statement and as a body. -/
structure Scanned (node : Cst) : Prop where
  expr : ∀ s, scanExpr (lowerExpr node) s = s.add (foundExpr keptName nothing node)
  target : ∀ s, scanTarget (lowerExpr node) s = s.add (foundTarget keptName nothing node)
  stmt : ∀ s, scanStmt (lowerStmt node) s = s.add (foundStmt keptName nothing node)
  block : ∀ s, scanStmts (lowerBlock node) s = s.add (foundBlock keptName nothing node)

theorem scan_args {slots : List CstArg} (h : ∀ slot ∈ slots, ∀ value ∈ slot.values, Scanned value)
    (s : Scan) : scanArgs (lowerArguments slots) s = s.add (foundArgs keptName nothing slots) := by
  induction slots generalizing s with
  | nil => simp [lowerArguments, scanArgs, foundArgs]
  | cons slot slots ih =>
    rw [lowerArguments, scanArgs, ih (fun slot hslot => h slot (List.mem_cons_of_mem _ hslot)),
      foundArgs, Scan.add_append]
    have hslot := h slot List.mem_cons_self
    cases slot with
    | omitted span => simp [lowerArg, missingAt, scanArg, scanExpr, foundArg]
    | argument name value span =>
      cases value with
      | none => simp [lowerArg, scanArg, scanExpr, foundArg, foundAlternative]
      | some value =>
        rw [lowerArg, scanArg, foundArg, foundAlternative, (hslot value (by simp [CstArg.values])).expr]

theorem scan_alternative {node : Option Cst} (h : ∀ child ∈ node.toList, Scanned child) (s : Scan) :
    scanOption (lowerAlternative node) s = s.add (foundAlternative keptName nothing node) := by
  cases node with
  | none => simp [lowerAlternative, scanOption, foundAlternative]
  | some node =>
    rw [lowerAlternative, scanOption, foundAlternative, (h node (by simp)).expr]

theorem scan_alternativeBlock {node : Option Cst} (h : ∀ child ∈ node.toList, Scanned child)
    (s : Scan) : scanOptionStmts (lowerAlternativeBlock node) s =
      s.add (foundAlternativeBlock keptName nothing node) := by
  cases node with
  | none => simp [lowerAlternativeBlock, scanOptionStmts, foundAlternativeBlock]
  | some node =>
    rw [lowerAlternativeBlock, scanOptionStmts, foundAlternativeBlock, (h node (by simp)).block]

theorem scan_params {parameters : List CstParam}
    (h : ∀ parameter ∈ parameters, ∀ default ∈ parameter.defaults, Scanned default) (s : Scan) :
    scanDefaults (lowerParams parameters) s = s.add (foundParams keptName nothing parameters) := by
  induction parameters generalizing s with
  | nil => simp [lowerParams, scanDefaults, foundParams]
  | cons parameter parameters ih =>
    rw [lowerParams, scanDefaults,
      ih (fun parameter hparameter => h parameter (List.mem_cons_of_mem _ hparameter)), foundParams,
      Scan.add_append]
    have hparameter := h parameter List.mem_cons_self
    obtain ⟨name, default, span⟩ := parameter
    rw [lowerParam, scanDefault, foundParam, scan_alternative hparameter]

theorem scan_stmts {nodes : List Cst} (h : ∀ node ∈ nodes, Scanned node) (s : Scan) :
    scanStmts (lowerStmts nodes) s = s.add (foundStmts keptName nothing nodes) := by
  induction nodes generalizing s with
  | nil => simp [lowerStmts, scanStmts, foundStmts]
  | cons node nodes ih =>
    rw [lowerStmts, scanStmts, ih (fun node hnode => h node (List.mem_cons_of_mem _ hnode)),
      foundStmts, Scan.add_append, (h node List.mem_cons_self).stmt]

theorem scan_function {l : Literal} (hbody : Scanned l.body)
    (hdefaults : ∀ parameter ∈ l.parameters, ∀ default ∈ parameter.defaults, Scanned default)
    (s : Scan) :
    (scanStmts (lowerBlock l.body) (scanDefaults (lowerParams l.parameters)
      (s.enter l.span (formalNames (lowerParams l.parameters))))).leave =
      s.add ((l.found.hide l.formals).literal l) := by
  rw [← leave_enter, Literal.found, Scan.add_append, scan_params hdefaults, hbody.block]
  rfl

theorem scan_binary (operator : String) (operatorSpan span : Span) {lhs rhs : Cst}
    (hlhs : Scanned lhs) (hrhs : Scanned rhs) (s : Scan) :
    scanExpr (binaryExpression operator (lowerExpr lhs) (lowerExpr rhs) span operatorSpan) s =
      s.add (foundBinary keptName operator (foundExpr keptName nothing lhs)
        (foundExpr keptName nothing rhs)) := by
  rw [binaryExpression, foundBinary]
  by_cases hsuper : operator = "->>"
  · rw [if_pos hsuper, if_pos (.inl hsuper), scanExpr, hrhs.expr, hlhs.expr, Scan.add_append]
  · by_cases hright : operator = "->"
    · rw [if_neg hsuper, if_pos hright, if_pos (.inr hright), scanExpr, hrhs.expr, hlhs.expr,
        Scan.add_append]
    · rw [if_neg hsuper, if_neg hright, if_neg (not_or.mpr ⟨hsuper, hright⟩)]
      cases hkind : binOpKind operator with
      | some op => simp [scanExpr, hlhs.expr, hrhs.expr, Scan.add_append]
      | none =>
        simp [scanExpr, scanArgs, scanArg, hlhs.expr, hrhs.expr, Scan.add_append, Scan.add_name]

/-- In statement position an operator that assigns has a target. -/
theorem scan_binaryStmt (operator : String) (operatorSpan span : Span) {lhs rhs : Cst}
    (hlhs : Scanned lhs) (hrhs : Scanned rhs) (s : Scan) :
    scanStmt (lowerStmt (.binary operator operatorSpan lhs rhs span)) s =
      s.add (foundStmt keptName nothing (.binary operator operatorSpan lhs rhs span)) := by
  rw [lowerStmt, foundStmt, tryLowerAssign]
  by_cases hassign : operator ∉ assignOperators
  · rw [if_pos hassign, if_pos (.inl hassign), foundExpr]
    simp only [scanStmt]
    exact scan_binary operator operatorSpan span hlhs hrhs s
  · by_cases hcolon : operator = ":=" ∧ lhs.isIdentifier = false
    · rw [if_neg hassign, if_pos hcolon, if_pos (.inr hcolon), foundExpr]
      simp only [scanStmt]
      exact scan_binary operator operatorSpan span hlhs hrhs s
    · rw [if_neg hassign, if_neg hcolon, if_neg (not_or.mpr ⟨hassign, hcolon⟩)]
      by_cases hsuper : operator = "<<-"
      · subst hsuper
        simp [scanStmt, scanExpr, hlhs.target, hlhs.expr, hrhs.expr, Scan.add_append]
      · by_cases hsuper' : operator = "->>"
        · subst hsuper'
          simp [scanStmt, scanExpr, hrhs.target, hlhs.expr, hrhs.expr, Scan.add_append]
        · by_cases hright : operator = "->"
          · subst hright
            simp [scanStmt, hrhs.target, hlhs.expr, Scan.add_append]
          · simp [scanStmt, hsuper, hsuper', hright, hlhs.target, hrhs.expr, Scan.add_append]

attribute [local simp] lowerExpr lowerStmt lowerBlock scanExpr scanTarget scanStmt scanStmts
  foundExpr foundTarget foundStmt foundBlock Scan.add_append Scan.add_name

theorem add_nothing (s : Scan) (node : Cst) : s.add ⟨nothing node, []⟩ = s := rfl

theorem scanned_call {function : Cst} {arguments : List CstArg} (span : Span)
    (hfunction : Scanned function)
    (harguments : ∀ slot ∈ arguments, ∀ value ∈ slot.values, Scanned value) :
    Scanned (.call function arguments span) := by
  constructor <;> intro s <;> simp [hfunction.expr, scan_args harguments]

theorem scanned_subset (double : Bool) {function : Cst} {arguments : List CstArg} (span : Span)
    (hfunction : Scanned function)
    (harguments : ∀ slot ∈ arguments, ∀ value ∈ slot.values, Scanned value) :
    Scanned (.subset double function arguments span) := by
  constructor <;> intro s <;> simp [hfunction.expr, hfunction.target, scan_args harguments]

theorem scanTarget_unary {operator : String} (hplus : operator ≠ "+") (e : Expr) (span : Span) :
    scanTarget (lowerUnary operator e span) = scanExpr (lowerUnary operator e span) := by
  funext s
  rw [lowerUnary]
  by_cases hneg : operator = "-"
  · rw [if_pos hneg, scanTarget] <;> exact nofun
  · by_cases hnot : operator = "!"
    · rw [if_neg hneg, if_neg hplus, if_pos hnot, scanTarget] <;> exact nofun
    · rw [if_neg hneg, if_neg hplus, if_neg hnot, scanTarget] <;> exact nofun

theorem scanned_unary (operator : String) {operand : Cst} (span : Span) (h : Scanned operand) :
    Scanned (.unary operator operand span) := by
  have hexpr : ∀ s, scanExpr (lowerUnary operator (lowerExpr operand) span) s =
      s.add (foundExpr keptName nothing (.unary operator operand span)) := by
    intro s
    rw [lowerUnary, foundExpr]
    by_cases hneg : operator = "-"
    · simp [hneg, isUnaryKept, h.expr]
    · by_cases hplus : operator = "+"
      · simp [hplus, isUnaryKept, h.expr]
      · by_cases hnot : operator = "!"
        · simp [hnot, isUnaryKept, h.expr]
        · simp [hneg, hplus, hnot, isUnaryKept, add_nothing]
  constructor
  · intro s
    rw [lowerExpr, hexpr]
  · intro s
    rw [lowerExpr, foundTarget]
    by_cases hplus : operator = "+"
    · rw [if_pos hplus, hplus]
      simp [lowerUnary, h.target]
    · rw [if_neg hplus, scanTarget_unary hplus, hexpr]
  · intro s
    simp [hexpr]
  · intro s
    simp [hexpr]

theorem scanTarget_binary (operator : String) (lhs rhs : Expr) (span operatorSpan : Span) :
    scanTarget (binaryExpression operator lhs rhs span operatorSpan) =
      scanExpr (binaryExpression operator lhs rhs span operatorSpan) := by
  funext s
  rw [binaryExpression]
  split
  · rw [scanTarget] <;> exact nofun
  · split
    · rw [scanTarget] <;> exact nofun
    · split <;> rw [scanTarget] <;> exact nofun

theorem scanned_binary (operator : String) (operatorSpan span : Span) {lhs rhs : Cst}
    (hlhs : Scanned lhs) (hrhs : Scanned rhs) :
    Scanned (.binary operator operatorSpan lhs rhs span) := by
  have hexpr := scan_binary operator operatorSpan span hlhs hrhs
  have hstmt := scan_binaryStmt operator operatorSpan span hlhs hrhs
  constructor
  · intro s
    simp [hexpr]
  · intro s
    rw [lowerExpr, scanTarget_binary]
    simp [hexpr]
  · exact hstmt
  · intro s
    rw [lowerBlock, scanStmts, scanStmts, foundBlock]
    · exact hstmt s
    · exact nofun
    · exact nofun

theorem scanned_function (parameters : List CstParam) {body : Cst} (span : Span)
    (hparameters : ∀ parameter ∈ parameters, ∀ default ∈ parameter.defaults, Scanned default)
    (hbody : Scanned body) : Scanned (.functionDefinition parameters body span) := by
  have hfunction := scan_function (l := ⟨parameters, body, span⟩) hbody hparameters
  simp only [Literal.found, Literal.formals] at hfunction
  constructor <;> intro s <;> simpa using hfunction s

theorem scanned_if {condition consequence : Cst} {alternative : Option Cst} (span : Span)
    (hcondition : Scanned condition) (hconsequence : Scanned consequence)
    (halternative : ∀ child ∈ alternative.toList, Scanned child) :
    Scanned (.ifStatement condition consequence alternative span) := by
  constructor <;> intro s <;>
    simp [hcondition.expr, hconsequence.expr, hconsequence.block, scan_alternative halternative,
      scan_alternativeBlock halternative]

theorem scanned_for (name : String) (nameSpan : Span) {sequence body : Cst} (span : Span)
    (hsequence : Scanned sequence) (hbody : Scanned body) :
    Scanned (.forStatement name nameSpan sequence body span) := by
  constructor <;> intro s <;> simp [hsequence.expr, hbody.block, leaveLoop_enter, add_nothing]

/-- The scan of a lowered node adds what the walk finds in it. -/
theorem scanned (node : Cst) : Scanned node := by
  induction node using Cst.induction with
  | h node ih =>
    cases node with
    | logical | string | null | na | namespaced | identifier | other =>
      constructor <;> intro s <;> simp [add_nothing]
    | number token span =>
      cases token <;> constructor <;> intro s <;> simp [lowerNumber]
    | jump kind span =>
      cases kind <;> constructor <;> intro s <;> simp [add_nothing]
    | call function arguments span =>
      refine scanned_call span (ih function List.mem_cons_self) fun slot hslot value hvalue => ?_
      exact ih value (List.mem_cons_of_mem _ (List.mem_flatMap.mpr ⟨slot, hslot, hvalue⟩))
    | subset double function arguments span =>
      refine scanned_subset double span (ih function List.mem_cons_self)
        fun slot hslot value hvalue => ?_
      exact ih value (List.mem_cons_of_mem _ (List.mem_flatMap.mpr ⟨slot, hslot, hvalue⟩))
    | binary operator operatorSpan lhs rhs span =>
      exact scanned_binary operator operatorSpan span (ih lhs (by simp [Cst.children]))
        (ih rhs (by simp [Cst.children]))
    | extract operator lhs rhs span =>
      have hlhs := ih lhs (by simp [Cst.children])
      constructor <;> intro s <;>
        simp [lowerExtract, scanArgs, scanArg, hlhs.expr, hlhs.target]
    | unary operator operand span =>
      exact scanned_unary operator span (ih operand (by simp [Cst.children]))
    | functionDefinition parameters body span =>
      refine scanned_function parameters span (fun parameter hparameter default hdefault => ?_)
        (ih body (by simp [Cst.children]))
      exact ih default (List.mem_append_left _ (List.mem_flatMap.mpr ⟨parameter, hparameter, hdefault⟩))
    | parenthesized inner span =>
      have hinner := ih inner (by simp [Cst.children])
      constructor <;> intro s <;> simp [hinner.expr, hinner.target]
    | braced doubled body span =>
      have hbody : ∀ s, scanStmts (lowerStmts body) s = s.add (foundStmts keptName nothing body) :=
        scan_stmts ih
      cases doubled <;> constructor <;> intro s <;> simp [hbody]
    | ifStatement condition consequence alternative span =>
      refine scanned_if span (ih condition (by simp [Cst.children]))
        (ih consequence (by simp [Cst.children])) fun child hchild => ?_
      exact ih child (List.mem_cons_of_mem _ (List.mem_cons_of_mem _ hchild))
    | forStatement name nameSpan sequence body span =>
      exact scanned_for name nameSpan span (ih sequence (by simp [Cst.children]))
        (ih body (by simp [Cst.children]))
    | whileStatement condition body span =>
      have hcondition := ih condition (by simp [Cst.children])
      have hbody := ih body (by simp [Cst.children])
      constructor <;> intro s <;> simp [hcondition.expr, hbody.block, add_nothing]
    | repeatStatement body span =>
      have hbody := ih body (by simp [Cst.children])
      constructor <;> intro s <;> simp [hbody.block, add_nothing]

end Ry.Reads
