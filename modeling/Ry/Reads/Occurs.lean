import Ry.Reads.Found

/-! # Occurrences

Where a name stands free in the text and is evaluated in the frame around: the occurrences that
R's scoping resolves to the formal of an enclosing function.  Formals of an inner function and the
variable of a `for` loop are bound inside it; the root of an assignment target is written.

Every occurrence is kept by lowering and the scan or lies in an opaque form, and what the opaque
forms hide are occurrences (`Split`).
-/

namespace Ry.Reads

def leftAssigns : List String := ["<-", "<<-", "=", ":="]

def rightAssigns : List String := ["->", "->>"]

mutual
def occurs : Cst → List String
  | .logical .. | .number .. | .string .. | .null _ | .na .. | .namespaced .. | .jump .. | .other _ =>
    []
  | .identifier text _ => [semanticArgumentName text]
  | .call function arguments _ | .subset _ function arguments _ =>
    occurs function ++ occursArgs arguments
  | .binary operator _ lhs rhs _ =>
    if operator ∈ leftAssigns then occursTarget lhs ++ occurs rhs
    else if operator ∈ rightAssigns then occurs lhs ++ occursTarget rhs
    else occurs lhs ++ occurs rhs
  | .extract _ lhs _ _ => occurs lhs
  | .unary _ operand _ => occurs operand
  | .functionDefinition parameters body _ =>
    (occursParams parameters ++ occurs body).filter (· ∉ cstFormalNames parameters)
  | .parenthesized inner _ => occurs inner
  | .braced _ body _ => occursList body
  | .ifStatement condition consequence alternative _ =>
    occurs condition ++ occurs consequence ++ occursOption alternative
  | .forStatement name _ sequence body _ =>
    occurs sequence ++ (occurs body).filter (· ∉ ({semanticArgumentName name} : Finset String))
  | .whileStatement condition body _ => occurs condition ++ occurs body
  | .repeatStatement body _ => occurs body
termination_by node => (sizeOf node, 0)
/-- A target is a place and what selects it; only its root is no occurrence. -/
def occursTarget : Cst → List String
  | .identifier .. => []
  | .call function (.argument _ (some value) _ :: arguments) _ =>
    occurs function ++ (occursTarget value ++ occursArgs arguments)
  | .binary operator operatorSpan lhs rhs span =>
    if operator ∈ leftAssigns ∨ operator ∈ rightAssigns then
      occurs (.binary operator operatorSpan lhs rhs span)
    else occursTarget lhs ++ occurs rhs
  | .extract _ lhs _ _ => occursTarget lhs
  | .unary operator operand span =>
    if isUnaryKept operator then occursTarget operand else occurs (.unary operator operand span)
  | .subset _ function arguments _ => occursTarget function ++ occursArgs arguments
  | .parenthesized inner _ => occursTarget inner
  | node => occurs node
termination_by node => (sizeOf node, 1)
def occursList : List Cst → List String
  | [] => []
  | node :: nodes => occurs node ++ occursList nodes
termination_by nodes => (sizeOf nodes, 0)
def occursOption : Option Cst → List String
  | none => []
  | some node => occurs node
termination_by node => (sizeOf node, 0)
def occursArgs : List CstArg → List String
  | [] => []
  | slot :: slots => occursArg slot ++ occursArgs slots
termination_by slots => (sizeOf slots, 0)
def occursArg : CstArg → List String
  | .omitted _ => []
  | .argument _ value _ => occursOption value
termination_by slot => (sizeOf slot, 0)
def occursParams : List CstParam → List String
  | [] => []
  | parameter :: parameters => occursParam parameter ++ occursParams parameters
termination_by parameters => (sizeOf parameters, 0)
def occursParam : CstParam → List String
  | .mk _ default _ => occursOption default
termination_by parameter => (sizeOf parameter, 0)
end

def noName (_ : String) : List String := []

/-- What the opaque forms in the literal's defaults and body hide. -/
def Literal.hidden (l : Literal) : List String :=
  ((foundParams noName occurs l.parameters).append (foundBlock noName occurs l.body)).names

def Literal.occurs (l : Literal) : List String := occursParams l.parameters ++ Reads.occurs l.body

/-! ## Kept or hidden -/

@[simp] theorem Found.names_empty : Found.empty.names = [] := rfl

@[simp] theorem Found.names_append (f g : Found) : (f.append g).names = f.names ++ g.names := rfl

@[simp] theorem Found.names_hide (f : Found) (formals : Finset String) :
    (f.hide formals).names = f.names.filter (· ∉ formals) := rfl

@[simp] theorem Found.names_literal (f : Found) (l : Literal) : (f.literal l).names = f.names := rfl

@[simp] theorem names_keptName (name : String) :
    (foundName keptName name).names = [semanticArgumentName name] := rfl

@[simp] theorem names_noName (name : String) : (foundName noName name).names = [] := rfl

section Split

variable (p : String) (node : Cst)

/-- The occurrences of `p` are kept or hidden in each position, and the hidden ones occur. -/
structure Split : Prop where
  target_sub : p ∈ occursTarget node → p ∈ occurs node
  expr : p ∈ occurs node →
    p ∈ (foundExpr keptName nothing node).names ∨ p ∈ (foundExpr noName occurs node).names
  stmt : p ∈ occurs node →
    p ∈ (foundStmt keptName nothing node).names ∨ p ∈ (foundStmt noName occurs node).names
  block : p ∈ occurs node →
    p ∈ (foundBlock keptName nothing node).names ∨ p ∈ (foundBlock noName occurs node).names
  target : p ∈ occursTarget node →
    p ∈ (foundTarget keptName nothing node).names ∨ p ∈ (foundTarget noName occurs node).names
  hidden_expr : p ∈ (foundExpr noName occurs node).names → p ∈ occursTarget node
  hidden_target : p ∈ (foundTarget noName occurs node).names → p ∈ occursTarget node
  hidden_stmt : p ∈ (foundStmt noName occurs node).names → p ∈ occurs node
  hidden_block : p ∈ (foundBlock noName occurs node).names → p ∈ occurs node

end Split

section Lists

variable {p : String}

theorem split_alternative {node : Option Cst} (h : ∀ child ∈ node.toList, Split p child) :
    (p ∈ occursOption node → p ∈ (foundAlternative keptName nothing node).names ∨
        p ∈ (foundAlternative noName occurs node).names) ∧
      (p ∈ (foundAlternative noName occurs node).names → p ∈ occursOption node) := by
  cases node with
  | none => simp [occursOption, foundAlternative]
  | some node =>
    have hnode := h node (by simp)
    simp only [occursOption, foundAlternative]
    exact ⟨hnode.expr, fun hp => hnode.target_sub (hnode.hidden_expr hp)⟩

theorem split_alternativeBlock {node : Option Cst} (h : ∀ child ∈ node.toList, Split p child) :
    (p ∈ occursOption node → p ∈ (foundAlternativeBlock keptName nothing node).names ∨
        p ∈ (foundAlternativeBlock noName occurs node).names) ∧
      (p ∈ (foundAlternativeBlock noName occurs node).names → p ∈ occursOption node) := by
  cases node with
  | none => simp [occursOption, foundAlternativeBlock]
  | some node =>
    have hnode := h node (by simp)
    simp only [occursOption, foundAlternativeBlock]
    exact ⟨hnode.block, hnode.hidden_block⟩

theorem split_args {slots : List CstArg} (h : ∀ slot ∈ slots, ∀ value ∈ slot.values, Split p value) :
    (p ∈ occursArgs slots → p ∈ (foundArgs keptName nothing slots).names ∨
        p ∈ (foundArgs noName occurs slots).names) ∧
      (p ∈ (foundArgs noName occurs slots).names → p ∈ occursArgs slots) := by
  induction slots with
  | nil => simp [occursArgs, foundArgs]
  | cons slot slots ih =>
    have hslots := ih fun slot hslot => h slot (List.mem_cons_of_mem _ hslot)
    have hslot : (p ∈ occursArg slot → p ∈ (foundArg keptName nothing slot).names ∨
        p ∈ (foundArg noName occurs slot).names) ∧
        (p ∈ (foundArg noName occurs slot).names → p ∈ occursArg slot) := by
      cases slot with
      | omitted span => simp [occursArg, foundArg]
      | argument name value span =>
        simp only [occursArg, foundArg]
        exact split_alternative (h _ List.mem_cons_self)
    simp only [occursArgs, foundArgs, Found.names_append, List.mem_append] at *
    tauto

theorem split_params {parameters : List CstParam}
    (h : ∀ parameter ∈ parameters, ∀ default ∈ parameter.defaults, Split p default) :
    (p ∈ occursParams parameters →
        p ∈ (foundParams keptName nothing parameters).names ∨
        p ∈ (foundParams noName occurs parameters).names) ∧
      (p ∈ (foundParams noName occurs parameters).names → p ∈ occursParams parameters) := by
  induction parameters with
  | nil => simp [occursParams, foundParams]
  | cons parameter parameters ih =>
    have hparameters := ih fun parameter hparameter => h parameter (List.mem_cons_of_mem _ hparameter)
    have hparameter : (p ∈ occursParam parameter →
          p ∈ (foundParam keptName nothing parameter).names ∨
        p ∈ (foundParam noName occurs parameter).names) ∧
        (p ∈ (foundParam noName occurs parameter).names → p ∈ occursParam parameter) := by
      obtain ⟨name, default, span⟩ := parameter
      simp only [occursParam, foundParam]
      exact split_alternative (h _ List.mem_cons_self)
    simp only [occursParams, foundParams, Found.names_append, List.mem_append] at *
    tauto

theorem split_stmts {nodes : List Cst} (h : ∀ node ∈ nodes, Split p node) :
    (p ∈ occursList nodes → p ∈ (foundStmts keptName nothing nodes).names ∨
        p ∈ (foundStmts noName occurs nodes).names) ∧
      (p ∈ (foundStmts noName occurs nodes).names → p ∈ occursList nodes) := by
  induction nodes with
  | nil => simp [occursList, foundStmts]
  | cons node nodes ih =>
    have hnodes := ih fun node hnode => h node (List.mem_cons_of_mem _ hnode)
    have hnode := h node List.mem_cons_self
    have hstmt := hnode.stmt
    have hhidden := hnode.hidden_stmt
    simp only [occursList, foundStmts, Found.names_append, List.mem_append] at *
    tauto

end Lists

section Nodes

variable {p : String}

theorem split_or {a b kept kept' hidden hidden' : Prop} (h : a → kept ∨ hidden)
    (h' : b → kept' ∨ hidden') : a ∨ b → (kept ∨ kept') ∨ hidden ∨ hidden' :=
  fun hab => or_or_or_comm.mp (Or.imp h h' hab)

/-- A node that is the same in expression and in statement position. -/
theorem Split.of_expr {node : Cst}
    (hstmt : ∀ leaf form, foundStmt leaf form node = foundExpr leaf form node)
    (hblock : ∀ leaf form, foundBlock leaf form node = foundExpr leaf form node)
    (target_sub : p ∈ occursTarget node → p ∈ occurs node)
    (expr : p ∈ occurs node →
      p ∈ (foundExpr keptName nothing node).names ∨ p ∈ (foundExpr noName occurs node).names)
    (target : p ∈ occursTarget node →
      p ∈ (foundTarget keptName nothing node).names ∨ p ∈ (foundTarget noName occurs node).names)
    (hidden_expr : p ∈ (foundExpr noName occurs node).names → p ∈ occursTarget node)
    (hidden_target : p ∈ (foundTarget noName occurs node).names → p ∈ occursTarget node) :
    Split p node where
  target_sub := target_sub
  expr := expr
  stmt := by simpa only [hstmt] using expr
  block := by simpa only [hblock] using expr
  target := target
  hidden_expr := hidden_expr
  hidden_target := hidden_target
  hidden_stmt h := target_sub (hidden_expr (by simpa only [hstmt] using h))
  hidden_block h := target_sub (hidden_expr (by simpa only [hblock] using h))

/-- A node that is the same as a target too, and whose occurrences as one are given. -/
theorem Split.of_target {node : Cst}
    (hstmt : ∀ leaf form, foundStmt leaf form node = foundExpr leaf form node)
    (hblock : ∀ leaf form, foundBlock leaf form node = foundExpr leaf form node)
    (htarget : ∀ leaf form, foundTarget leaf form node = foundExpr leaf form node)
    (target_sub : p ∈ occursTarget node → p ∈ occurs node)
    (expr : p ∈ occurs node →
      p ∈ (foundExpr keptName nothing node).names ∨ p ∈ (foundExpr noName occurs node).names)
    (hidden_expr : p ∈ (foundExpr noName occurs node).names → p ∈ occursTarget node) :
    Split p node := by
  refine .of_expr hstmt hblock target_sub expr ?_ hidden_expr ?_
  · simpa only [htarget] using fun h => expr (target_sub h)
  · simpa only [htarget] using hidden_expr

theorem split_call {function : Cst} {arguments : List CstArg} (span : Span)
    (hfunction : Split p function)
    (harguments : ∀ slot ∈ arguments, ∀ value ∈ slot.values, Split p value) :
    Split p (.call function arguments span) := by
  obtain ⟨hkept, hhidden⟩ := split_args harguments
  have hexpr := hfunction.expr
  have hsub : p ∈ (foundExpr noName occurs function).names → p ∈ occurs function :=
    fun h => hfunction.target_sub (hfunction.hidden_expr h)
  -- the first argument is the root of a call in a target
  have htarget : (p ∈ occursTarget (.call function arguments span) →
        p ∈ occurs function ∨ p ∈ occursArgs arguments) ∧
      (p ∈ occurs function ∨ p ∈ (foundArgs noName occurs arguments).names →
        p ∈ occursTarget (.call function arguments span)) := by
    rcases arguments with _ | ⟨⟨name, _ | value, slotSpan⟩ | slotSpan, arguments⟩
    · simp [occursTarget, occurs, occursArgs, foundArgs]
    · simp only [occursTarget, occurs, List.mem_append]
      exact ⟨id, Or.imp_right hhidden⟩
    · have hvalue := harguments _ List.mem_cons_self value (by simp [CstArg.values])
      have hrest := split_args fun slot hslot => harguments slot (List.mem_cons_of_mem _ hslot)
      simp only [occursTarget, occursArgs, occursArg, occursOption, foundArgs, foundArg,
        foundAlternative, Found.names_append, List.mem_append]
      exact ⟨Or.imp_right (Or.imp_left hvalue.target_sub),
        Or.imp_right (Or.imp hvalue.hidden_expr hrest.2)⟩
    · simp only [occursTarget, occurs, List.mem_append]
      exact ⟨id, Or.imp_right hhidden⟩
  refine .of_target (by simp [foundStmt]) (by simp [foundBlock, foundStmt]) (by simp [foundTarget])
    ?_ ?_ ?_
  · intro h
    rw [occurs, List.mem_append]
    exact htarget.1 h
  · simp only [occurs, foundExpr, Found.names_append, List.mem_append]
    exact split_or hexpr hkept
  · simp only [foundExpr, Found.names_append, List.mem_append]
    exact fun h => htarget.2 (Or.imp_left hsub h)

theorem split_subset (double : Bool) {function : Cst} {arguments : List CstArg} (span : Span)
    (hfunction : Split p function)
    (harguments : ∀ slot ∈ arguments, ∀ value ∈ slot.values, Split p value) :
    Split p (.subset double function arguments span) := by
  obtain ⟨hkept, hhidden⟩ := split_args harguments
  refine .of_expr (by simp [foundStmt]) (by simp [foundBlock, foundStmt]) ?_ ?_ ?_ ?_ ?_ <;>
    simp only [occurs, occursTarget, foundExpr, foundTarget, Found.names_append, List.mem_append]
  · exact Or.imp_left hfunction.target_sub
  · exact split_or hfunction.expr hkept
  · exact split_or hfunction.target hkept
  · exact Or.imp hfunction.hidden_expr hhidden
  · exact Or.imp hfunction.hidden_target hhidden

theorem split_extract (operator : String) {lhs : Cst} (rhs : String) (span : Span)
    (hlhs : Split p lhs) : Split p (.extract operator lhs rhs span) := by
  refine .of_expr (by simp [foundStmt]) (by simp [foundBlock, foundStmt]) ?_ ?_ ?_ ?_ ?_ <;>
    simp only [occurs, occursTarget, foundExpr, foundTarget, Found.names_append, names_noName,
      List.mem_append, List.not_mem_nil, or_false]
  · exact hlhs.target_sub
  · exact fun h => Or.imp_left .inl (hlhs.expr h)
  · exact fun h => Or.imp_left .inl (hlhs.target h)
  · exact hlhs.hidden_expr
  · exact hlhs.hidden_target

theorem split_parenthesized {inner : Cst} (span : Span) (hinner : Split p inner) :
    Split p (.parenthesized inner span) := by
  refine .of_expr (by simp [foundStmt]) (by simp [foundBlock, foundStmt]) ?_ ?_ ?_ ?_ ?_ <;>
    simp only [occurs, occursTarget, foundExpr, foundTarget]
  · exact hinner.target_sub
  · exact hinner.expr
  · exact hinner.target
  · exact hinner.hidden_expr
  · exact hinner.hidden_target

theorem split_unary (operator : String) {operand : Cst} (span : Span) (hoperand : Split p operand) :
    Split p (.unary operator operand span) := by
  by_cases hkept : isUnaryKept operator = true
  · refine .of_expr (by simp [foundStmt]) (by simp [foundBlock, foundStmt]) ?_ ?_ ?_ ?_ ?_ <;>
      simp only [occurs, occursTarget, foundExpr, foundTarget, hkept, if_true]
    · exact hoperand.target_sub
    · exact hoperand.expr
    · intro h
      split
      · exact hoperand.target h
      · exact hoperand.expr (hoperand.target_sub h)
    · exact hoperand.hidden_expr
    · split
      · exact hoperand.hidden_target
      · exact hoperand.hidden_expr
  · have hplus : operator ≠ "+" := by
      rintro rfl
      exact hkept rfl
    refine .of_target (by simp [foundStmt]) (by simp [foundBlock, foundStmt])
      (by simp [foundTarget, hplus]) ?_ ?_ ?_ <;>
      simp only [occurs, occursTarget, foundExpr, hkept, if_false, Bool.false_eq_true]
    · exact id
    · exact .inr
    · exact id

/-- Both operands are walked, whatever the order. -/
theorem mem_foundBinary {leaf : String → List String} {operator : String} {lhs rhs : Found} :
    p ∈ lhs.names ∨ p ∈ rhs.names → p ∈ (foundBinary leaf operator lhs rhs).names := by
  rw [foundBinary]
  split
  · simp only [Found.names_append, List.mem_append]
    tauto
  · split <;> simp only [Found.names_append, List.mem_append] <;> tauto

theorem mem_foundBinary_noName {operator : String} {lhs rhs : Found} :
    p ∈ (foundBinary noName operator lhs rhs).names ↔ p ∈ lhs.names ∨ p ∈ rhs.names := by
  refine ⟨?_, mem_foundBinary⟩
  rw [foundBinary]
  split
  · simp only [Found.names_append, List.mem_append]
    tauto
  · split <;> simp only [Found.names_append, names_noName, List.mem_append, List.not_mem_nil] <;>
      tauto

theorem expr_binary (operator : String) {lhs rhs : Cst} (hlhs : Split p lhs) (hrhs : Split p rhs)
    (h : p ∈ occurs lhs ∨ p ∈ occurs rhs) :
    p ∈ (foundBinary keptName operator (foundExpr keptName nothing lhs)
        (foundExpr keptName nothing rhs)).names ∨
      p ∈ (foundBinary noName operator (foundExpr noName occurs lhs)
        (foundExpr noName occurs rhs)).names :=
  Or.imp mem_foundBinary mem_foundBinary (split_or hlhs.expr hrhs.expr h)

/-- An operand or the root of a target. -/
theorem mem_occurs_binary {operator : String} {operatorSpan span : Span} {lhs rhs : Cst}
    (hlhs : Split p lhs) (hrhs : Split p rhs) :
    p ∈ occurs (.binary operator operatorSpan lhs rhs span) → p ∈ occurs lhs ∨ p ∈ occurs rhs := by
  rw [occurs]
  split
  · rw [List.mem_append]
    exact Or.imp_left hlhs.target_sub
  · split
    · rw [List.mem_append]
      exact Or.imp_right hrhs.target_sub
    · rw [List.mem_append]
      exact id

theorem mem_occurs_of_targets {operator : String} {operatorSpan span : Span} {lhs rhs : Cst}
    (hlhs : Split p lhs) (hrhs : Split p rhs) :
    p ∈ occursTarget lhs ∨ p ∈ occursTarget rhs →
      p ∈ occurs (.binary operator operatorSpan lhs rhs span) := by
  rw [occurs]
  split
  · rw [List.mem_append]
    exact Or.imp_right hrhs.target_sub
  · split
    · rw [List.mem_append]
      exact Or.imp_left hlhs.target_sub
    · rw [List.mem_append]
      exact Or.imp hlhs.target_sub hrhs.target_sub

/-- An assignment in statement position, with what the walk finds in the target and in the value;
a super-assignment's target is walked once more as an expression. -/
theorem split_assign {target value : Cst} (htarget : Split p target) (hvalue : Split p value) :
    (p ∈ occursTarget target ∨ p ∈ occurs value →
      (p ∈ (foundTarget keptName nothing target).names ∨
          p ∈ (foundExpr keptName nothing value).names) ∨
        p ∈ (foundTarget noName occurs target).names ∨
          p ∈ (foundExpr noName occurs value).names) ∧
    (p ∈ (foundTarget noName occurs target).names ∨ p ∈ (foundExpr noName occurs value).names →
      p ∈ occursTarget target ∨ p ∈ occurs value) :=
  ⟨split_or htarget.target hvalue.expr,
    Or.imp htarget.hidden_target fun h => hvalue.target_sub (hvalue.hidden_expr h)⟩

theorem split_superAssign {target value : Cst} (htarget : Split p target) (hvalue : Split p value) :
    (p ∈ occursTarget target ∨ p ∈ occurs value →
      (p ∈ (foundTarget keptName nothing target).names ∨
          p ∈ (foundExpr keptName nothing target).names ∨
          p ∈ (foundExpr keptName nothing value).names) ∨
        p ∈ (foundTarget noName occurs target).names ∨
          p ∈ (foundExpr noName occurs target).names ∨
          p ∈ (foundExpr noName occurs value).names) ∧
    (p ∈ (foundTarget noName occurs target).names ∨ p ∈ (foundExpr noName occurs target).names ∨
        p ∈ (foundExpr noName occurs value).names →
      p ∈ occursTarget target ∨ p ∈ occurs value) := by
  obtain ⟨hsplit, hhidden⟩ := split_assign htarget hvalue
  constructor
  · intro h
    exact Or.imp (Or.imp_right .inr) (Or.imp_right .inr) (hsplit h)
  · rintro (h | h | h)
    · exact hhidden (.inl h)
    · exact .inl (htarget.hidden_expr h)
    · exact hhidden (.inr h)

/-- In statement position. -/
theorem stmt_binary (operator : String) (operatorSpan span : Span) {lhs rhs : Cst}
    (hlhs : Split p lhs) (hrhs : Split p rhs) :
    (p ∈ occurs (.binary operator operatorSpan lhs rhs span) →
      p ∈ (foundStmt keptName nothing (.binary operator operatorSpan lhs rhs span)).names ∨
        p ∈ (foundStmt noName occurs (.binary operator operatorSpan lhs rhs span)).names) ∧
    (p ∈ (foundStmt noName occurs (.binary operator operatorSpan lhs rhs span)).names →
      p ∈ occurs (.binary operator operatorSpan lhs rhs span)) := by
  simp only [foundStmt]
  split
  · simp only [foundExpr]
    constructor
    · exact fun h => expr_binary operator hlhs hrhs (mem_occurs_binary hlhs hrhs h)
    · intro h
      refine mem_occurs_of_targets hlhs hrhs ?_
      exact Or.imp hlhs.hidden_expr hrhs.hidden_expr (mem_foundBinary_noName.mp h)
  · rename_i hassign
    rw [not_or, not_not] at hassign
    have hcases := hassign.1
    simp only [assignOperators, List.mem_cons, List.not_mem_nil, or_false] at hcases
    rw [occurs]
    rcases hcases with rfl | rfl | rfl | rfl | rfl | rfl
    · simpa [leftAssigns] using split_assign hlhs hrhs
    · simpa [leftAssigns] using split_superAssign hlhs hrhs
    · simpa [leftAssigns] using split_assign hlhs hrhs
    · simpa [leftAssigns, rightAssigns, or_comm (a := p ∈ occurs lhs)] using split_assign hrhs hlhs
    · simpa [leftAssigns, rightAssigns, or_comm (a := p ∈ occurs lhs)] using split_superAssign hrhs hlhs
    · simpa [leftAssigns] using split_assign hlhs hrhs

theorem split_binary (operator : String) (operatorSpan span : Span) {lhs rhs : Cst}
    (hlhs : Split p lhs) (hrhs : Split p rhs) :
    Split p (.binary operator operatorSpan lhs rhs span) := by
  obtain ⟨hstmt, hhiddenStmt⟩ := stmt_binary operator operatorSpan span hlhs hrhs
  have hexpr : p ∈ occurs (.binary operator operatorSpan lhs rhs span) →
      p ∈ (foundExpr keptName nothing (.binary operator operatorSpan lhs rhs span)).names ∨
        p ∈ (foundExpr noName occurs (.binary operator operatorSpan lhs rhs span)).names := by
    simp only [foundExpr]
    exact fun h => expr_binary operator hlhs hrhs (mem_occurs_binary hlhs hrhs h)
  have hsub : p ∈ occursTarget (.binary operator operatorSpan lhs rhs span) →
      p ∈ occurs (.binary operator operatorSpan lhs rhs span) := by
    rw [occursTarget]
    split
    · exact id
    · rename_i hassign
      rw [occurs, if_neg (not_or.mp hassign).1, if_neg (not_or.mp hassign).2, List.mem_append,
        List.mem_append]
      exact Or.imp_left hlhs.target_sub
  have hhidden : p ∈ (foundExpr noName occurs (.binary operator operatorSpan lhs rhs span)).names →
      p ∈ occursTarget (.binary operator operatorSpan lhs rhs span) := by
    rw [foundExpr, mem_foundBinary_noName, occursTarget]
    intro h
    have h := Or.imp hlhs.hidden_expr hrhs.hidden_expr h
    split
    · exact mem_occurs_of_targets hlhs hrhs h
    · rw [List.mem_append]
      exact Or.imp_right hrhs.target_sub h
  have hfoundTarget : ∀ leaf form,
      foundTarget leaf form (.binary operator operatorSpan lhs rhs span) =
        foundExpr leaf form (.binary operator operatorSpan lhs rhs span) := by
    simp [foundTarget]
  constructor
  · exact hsub
  · exact hexpr
  · exact hstmt
  · simpa [foundBlock] using hstmt
  · simpa only [hfoundTarget] using fun h => hexpr (hsub h)
  · exact hhidden
  · simpa only [hfoundTarget] using hhidden
  · exact hhiddenStmt
  · simpa [foundBlock] using hhiddenStmt

/-- A node that only lowers as an expression as a whole. -/
theorem Split.of_target_eq {node : Cst} (htarget : occursTarget node = occurs node)
    (hfoundTarget : ∀ leaf form, foundTarget leaf form node = foundExpr leaf form node)
    (hblock : ∀ leaf form, foundBlock leaf form node = foundStmt leaf form node)
    (expr : p ∈ occurs node →
      p ∈ (foundExpr keptName nothing node).names ∨ p ∈ (foundExpr noName occurs node).names)
    (hidden_expr : p ∈ (foundExpr noName occurs node).names → p ∈ occurs node)
    (stmt : p ∈ occurs node →
      p ∈ (foundStmt keptName nothing node).names ∨ p ∈ (foundStmt noName occurs node).names)
    (hidden_stmt : p ∈ (foundStmt noName occurs node).names → p ∈ occurs node) : Split p node where
  target_sub h := htarget ▸ h
  expr := expr
  stmt := stmt
  block := by simpa only [hblock] using stmt
  target := by simpa only [htarget, hfoundTarget] using expr
  hidden_expr := by simpa only [htarget] using hidden_expr
  hidden_target := by simpa only [htarget, hfoundTarget] using hidden_expr
  hidden_stmt := hidden_stmt
  hidden_block := by simpa only [hblock] using hidden_stmt

theorem split_function {parameters : List CstParam} {body : Cst} (span : Span)
    (hparameters : ∀ parameter ∈ parameters, ∀ default ∈ parameter.defaults, Split p default)
    (hbody : Split p body) : Split p (.functionDefinition parameters body span) := by
  obtain ⟨hkept, hhidden⟩ := split_params hparameters
  refine .of_target (by simp [foundStmt]) (by simp [foundBlock, foundStmt]) (by simp [foundTarget])
    ?_ ?_ ?_ <;>
    simp only [occurs, occursTarget, foundExpr, Found.names_literal, Found.names_hide,
      Found.names_append, List.mem_filter, List.mem_append]
  · exact id
  · rintro ⟨h, hfree⟩
    exact Or.imp (fun h => ⟨h, hfree⟩) (fun h => ⟨h, hfree⟩) (split_or hkept hbody.block h)
  · rintro ⟨h, hfree⟩
    exact ⟨Or.imp hhidden hbody.hidden_block h, hfree⟩

theorem split_braced (doubled : Bool) {body : List Cst} (span : Span)
    (hbody : ∀ node ∈ body, Split p node) : Split p (.braced doubled body span) := by
  obtain ⟨hkept, hhidden⟩ := split_stmts hbody
  refine .of_expr (by simp [foundStmt]) (by simp [foundBlock, foundExpr]) ?_ ?_ ?_ ?_ ?_ <;>
    simp only [occurs, occursTarget, foundExpr, foundTarget]
  · exact id
  · exact hkept
  · exact hkept
  · exact hhidden
  · exact hhidden

theorem split_if {condition consequence : Cst} {alternative : Option Cst} (span : Span)
    (hcondition : Split p condition) (hconsequence : Split p consequence)
    (halternative : ∀ child ∈ alternative.toList, Split p child) :
    Split p (.ifStatement condition consequence alternative span) := by
  have hsub : ∀ {node}, Split p node → p ∈ (foundExpr noName occurs node).names → p ∈ occurs node :=
    fun h hp => h.target_sub (h.hidden_expr hp)
  refine .of_target_eq (by simp [occursTarget]) (by simp [foundTarget]) (by simp [foundBlock]) ?_ ?_
    ?_ ?_ <;>
    simp only [occurs, foundExpr, foundStmt, Found.names_append, List.mem_append]
  · exact split_or (split_or hcondition.expr hconsequence.expr) (split_alternative halternative).1
  · exact Or.imp (Or.imp (hsub hcondition) (hsub hconsequence)) (split_alternative halternative).2
  · exact split_or (split_or hcondition.expr hconsequence.block)
      (split_alternativeBlock halternative).1
  · exact Or.imp (Or.imp (hsub hcondition) hconsequence.hidden_block)
      (split_alternativeBlock halternative).2

/-- A loop in expression position is opaque. -/
theorem split_for (name : String) (nameSpan : Span) {sequence body : Cst} (span : Span)
    (hsequence : Split p sequence) (hbody : Split p body) :
    Split p (.forStatement name nameSpan sequence body span) := by
  refine .of_target_eq (by simp [occursTarget]) (by simp [foundTarget]) (by simp [foundBlock]) ?_ ?_
    ?_ ?_ <;>
    simp only [foundExpr, foundStmt, Found.names_append, Found.names_hide, List.mem_append]
  · exact .inr
  · exact id
  · rw [occurs, List.mem_append]
    refine split_or hsequence.expr fun h => ?_
    obtain ⟨h, hfree⟩ := List.mem_filter.mp h
    exact Or.imp (fun h => List.mem_filter.mpr ⟨h, hfree⟩) (fun h => List.mem_filter.mpr ⟨h, hfree⟩)
      (hbody.block h)
  · rw [occurs, List.mem_append]
    refine Or.imp (fun h => hsequence.target_sub (hsequence.hidden_expr h)) fun h => ?_
    obtain ⟨h, hfree⟩ := List.mem_filter.mp h
    exact List.mem_filter.mpr ⟨hbody.hidden_block h, hfree⟩

theorem split_while {condition body : Cst} (span : Span) (hcondition : Split p condition)
    (hbody : Split p body) : Split p (.whileStatement condition body span) := by
  refine .of_target_eq (by simp [occursTarget]) (by simp [foundTarget]) (by simp [foundBlock]) ?_ ?_
    ?_ ?_ <;>
    simp only [foundExpr, foundStmt, Found.names_append, List.mem_append]
  · exact .inr
  · exact id
  · rw [occurs, List.mem_append]
    exact split_or hcondition.expr hbody.block
  · rw [occurs, List.mem_append]
    exact Or.imp (fun h => hcondition.target_sub (hcondition.hidden_expr h)) hbody.hidden_block

theorem split_repeat {body : Cst} (span : Span) (hbody : Split p body) :
    Split p (.repeatStatement body span) := by
  refine .of_target_eq (by simp [occursTarget]) (by simp [foundTarget]) (by simp [foundBlock]) ?_ ?_
    ?_ ?_ <;>
    simp only [foundExpr, foundStmt]
  · exact .inr
  · exact id
  · rw [occurs]
    exact hbody.block
  · rw [occurs]
    exact hbody.hidden_block

end Nodes

theorem split (p : String) (node : Cst) : Split p node := by
  induction node using Cst.induction with
  | h node ih =>
    cases node with
    | logical | number | string | null | na | other | namespaced | identifier =>
      constructor <;>
        simp [occurs, occursTarget, foundExpr, foundTarget, foundStmt, foundBlock]
    | jump kind =>
      cases kind <;> constructor <;>
        simp [occurs, occursTarget, foundExpr, foundTarget, foundStmt, foundBlock]
    | call function arguments span =>
      refine split_call span (ih function List.mem_cons_self) fun slot hslot value hvalue => ?_
      exact ih value (List.mem_cons_of_mem _ (List.mem_flatMap.mpr ⟨slot, hslot, hvalue⟩))
    | subset double function arguments span =>
      refine split_subset double span (ih function List.mem_cons_self)
        fun slot hslot value hvalue => ?_
      exact ih value (List.mem_cons_of_mem _ (List.mem_flatMap.mpr ⟨slot, hslot, hvalue⟩))
    | binary operator operatorSpan lhs rhs span =>
      exact split_binary operator operatorSpan span (ih lhs (by simp [Cst.children]))
        (ih rhs (by simp [Cst.children]))
    | extract operator lhs rhs span =>
      exact split_extract operator rhs span (ih lhs (by simp [Cst.children]))
    | unary operator operand span =>
      exact split_unary operator span (ih operand (by simp [Cst.children]))
    | functionDefinition parameters body span =>
      refine split_function span (fun parameter hparameter default hdefault => ?_)
        (ih body (by simp [Cst.children]))
      exact ih default (List.mem_append_left _ (List.mem_flatMap.mpr ⟨parameter, hparameter, hdefault⟩))
    | parenthesized inner span => exact split_parenthesized span (ih inner (by simp [Cst.children]))
    | braced doubled body span => exact split_braced doubled span ih
    | ifStatement condition consequence alternative span =>
      refine split_if span (ih condition (by simp [Cst.children]))
        (ih consequence (by simp [Cst.children])) fun child hchild => ?_
      exact ih child (List.mem_cons_of_mem _ (List.mem_cons_of_mem _ hchild))
    | forStatement name nameSpan sequence body span =>
      exact split_for name nameSpan span (ih sequence (by simp [Cst.children]))
        (ih body (by simp [Cst.children]))
    | whileStatement condition body span =>
      exact split_while span (ih condition (by simp [Cst.children])) (ih body (by simp [Cst.children]))
    | repeatStatement body span => exact split_repeat span (ih body (by simp [Cst.children]))

end Ry.Reads
