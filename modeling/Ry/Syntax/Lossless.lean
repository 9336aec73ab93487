import Ry.Syntax.Nodes
import Mathlib.Data.List.Forall2

/-! # Lowering loses nothing

A tree is `Shaped` when it has the form that the grammar gives a file without errors.  Its lowering
is the plain recursion over the tree without comments: no statement is dropped, the fold over a
chain of operators is the recursion, and every slot of an argument list is there.  A subset with
nothing between its brackets is the one place where R's parser sees a slot and the lowering has none.
-/

namespace Ry.Syntax

namespace Node

/-! ## Chains of operators -/

theorem lowerSpine_nil : lowerSpine [] = some := by
  funext expr
  rw [lowerSpine]

theorem lowerSpine_cons (link : Link) (links : List Link) :
    lowerSpine (link :: links) = fun expr => (lowerExpr link.rhs).bind fun rhs =>
      lowerSpine links (binaryExpression link.operator expr rhs link.span link.operatorSpan) := by
  funext expr
  rw [lowerSpine]
  rfl

/-- Folding what was peeled off is lowering the chain and going on. -/
theorem lowerExpr_peel (node : Node) (links : List Link) :
    (lowerExpr (peel node links).2).bind (lowerSpine (peel node links).1) =
      (lowerExpr node).bind (lowerSpine links) := by
  match node with
  | binary operator operatorSpan lhs rhs span =>
    have hsize := sizeOf_binary operator operatorSpan lhs rhs span
    let link : Link := ⟨operator, operatorSpan, rhs, span⟩
    by_cases hlhs : lhs.isBinary
    · have hpeel : ∀ links, peel (binary operator operatorSpan lhs rhs span) links =
          peel lhs (link :: links) := fun links => by rw [peel, if_pos hlhs]
      -- the chain on the left, with one operator to go
      have hone : lowerExpr (binary operator operatorSpan lhs rhs span) =
          (lowerExpr lhs).bind (lowerSpine [link]) := by
        rw [lowerExpr, if_pos hlhs, hpeel]
        exact lowerExpr_peel lhs [link]
      rw [hpeel, lowerExpr_peel lhs (link :: links), hone, Option.bind_assoc]
      simp only [lowerSpine_cons, lowerSpine_nil, Option.bind_assoc, Option.bind_some]
    · rw [peel, if_neg hlhs, lowerExpr, if_neg hlhs]
      simp [lowerSpine_cons, Option.bind_assoc]
  | comment _ | logical .. | number .. | string .. | null _ | na .. | identifier .. | call ..
  | extract .. | namespaced .. | unary .. | subset .. | functionDefinition .. | parenthesized ..
  | braced .. | ifStatement .. | forStatement .. | whileStatement .. | repeatStatement .. | jump ..
  | other _ => rfl
termination_by sizeOf node
decreasing_by all_goals omega

/-- One operator of a chain of any length. -/
theorem lowerExpr_binary (operator : String) (operatorSpan : Span) (lhs rhs : Node) (span : Span) :
    lowerExpr (binary operator operatorSpan lhs rhs span) =
      (lowerExpr lhs).bind fun left => (lowerExpr rhs).bind fun right =>
        some (binaryExpression operator left right span operatorSpan) := by
  by_cases hlhs : lhs.isBinary
  · have hpeel : peel (binary operator operatorSpan lhs rhs span) [] =
        peel lhs [⟨operator, operatorSpan, rhs, span⟩] := by rw [peel, if_pos hlhs]
    rw [lowerExpr, if_pos hlhs, hpeel]
    refine (lowerExpr_peel lhs _).trans ?_
    rw [lowerSpine_cons, lowerSpine_nil]
  · rw [lowerExpr, if_neg hlhs]
    rfl

end Node

/-! ## Shapes -/

def Item.values : Item → List Node
  | .argument _ value _ => value.toList
  | .comma _ | .comment _ | .other _ => []

def Item.isComment : Item → Bool
  | .comment _ => true
  | _ => false

def Item.isComma : Item → Bool
  | .comma _ => true
  | _ => false

def ParamItem.defaults : ParamItem → List Node
  | .parameter _ default _ => default.toList
  | .other _ => []

/-- What stands between the commas, without the comments. -/
def slots : List Item → List (List Item)
  | [] => [[]]
  | .comma _ :: items => [] :: slots items
  | .comment _ :: items => slots items
  | item :: items => (slots items).modifyHead (item :: ·)

/-- Between two commas there is one argument, or nothing. -/
def SlotShape (slot : List Item) : Prop :=
  slot = [] ∨ ∃ name value span, slot = [.argument name value span]

namespace Node

/-- The nodes in fields: the grammar has no comments there. -/
def fields : Node → List Node
  | call function arguments _ _ | subset _ function arguments _ _ =>
    function :: arguments.flatMap Item.values
  | binary _ _ lhs rhs _ => [lhs, rhs]
  | extract _ inner _ _ | unary _ inner _ | repeatStatement inner _ => [inner]
  | functionDefinition parameters body _ => parameters.flatMap ParamItem.defaults ++ [body]
  | ifStatement condition consequence alternative _ =>
    condition :: consequence :: alternative.toList
  | forStatement _ _ sequence body _ => [sequence, body]
  | whileStatement condition body _ => [condition, body]
  | _ => []

/-- The expressions of a block or in parentheses, and the comments among them. -/
def children : Node → List Node
  | parenthesized children _ | braced _ children _ => children
  | _ => []

def isParenthesized : Node → Bool
  | parenthesized .. => true
  | _ => false

def argumentItems : Node → List Item
  | call _ arguments _ _ | subset _ _ arguments _ _ => arguments
  | _ => []

/-- The form the grammar gives the trees of files without errors. -/
inductive Shaped : Node → Prop where
  | intro {node : Node} (hfields : ∀ field ∈ node.fields, field.isComment = false)
      (hbelow : ∀ field ∈ node.fields, Shaped field)
      (hchildren : ∀ child ∈ node.children, Shaped child)
      (hinner : node.isParenthesized → ∃ child ∈ node.children, child.isComment = false)
      (hslots : ∀ slot ∈ slots node.argumentItems, SlotShape slot) : Shaped node

/-! ## The plain recursion -/

/-- The node is lowered as the plain recursion lowers its tree. -/
structure Lowered (node : Node) : Prop where
  expr : lowerExpr node = some (Ry.lowerExpr node.strip)
  stmt : lowerStmt node = some (Ry.lowerStmt node.strip)
  block : lowerBlock node = Ry.lowerBlock node.strip

/-- A statement that is only an expression. -/
def isPlain : Node → Bool
  | binary .. | jump .. | ifStatement .. | forStatement .. | whileStatement .. | repeatStatement ..
  | braced .. | functionDefinition .. => false
  | _ => true

theorem lowerStmt_plain {node : Node} (h : node.isPlain) :
    lowerStmt node = (lowerExpr node).bind fun expr => some (.expr expr) := by
  rw [lowerStmt.eq_def]
  cases node <;> first | rfl | cases h

theorem lowerBlock_single {node : Node} (h : ∀ doubled children span, node ≠ braced doubled children span) :
    lowerBlock node = (lowerStmt node).toList := by
  rw [lowerBlock.eq_def]
  cases node <;> first | exact absurd rfl (h _ _ _) | rfl

theorem lowerDefault_strip {default : Option Node} (h : ∀ node ∈ default.toList, Lowered node) :
    lowerDefault default = Ry.lowerAlternative (stripOption default) := by
  cases default with
  | none => rw [lowerDefault, stripOption, Ry.lowerAlternative]
  | some node => rw [lowerDefault, stripOption, Ry.lowerAlternative, (h node (by simp)).expr]

theorem lowerAlternative_strip {alternative : Option Node}
    (h : ∀ node ∈ alternative.toList, Lowered node) :
    lowerAlternative alternative = Ry.lowerAlternativeBlock (stripOption alternative) := by
  cases alternative with
  | none => rw [lowerAlternative, stripOption, Ry.lowerAlternativeBlock]
  | some node =>
    rw [lowerAlternative, stripOption, Ry.lowerAlternativeBlock, (h node (by simp)).block]

theorem lowerStmts_strip {nodes : List Node}
    (h : ∀ node ∈ nodes, node.isComment = false → Lowered node) :
    lowerStmts nodes = Ry.lowerStmts (stripNodes nodes) := by
  induction nodes with
  | nil => rw [lowerStmts, stripNodes, Ry.lowerStmts]
  | cons node nodes ih =>
    obtain ⟨hnode, hnodes⟩ := List.forall_mem_cons.mp h
    rw [lowerStmts, stripNodes, ih hnodes]
    cases hcomment : node.isComment with
    | true =>
      have hnone : lowerStmt node = none := by
        cases node <;> first | (cases hcomment; done) | rw [lowerStmt_plain rfl, lowerExpr, Option.bind_none]
      rw [hnone, if_pos rfl]
      rfl
    | false =>
      rw [(hnode hcomment).stmt, if_neg (by simp), Ry.lowerStmts]
      rfl

theorem lowerParams_strip {items : List ParamItem}
    (h : ∀ node ∈ items.flatMap ParamItem.defaults, Lowered node) :
    lowerParams items = Ry.lowerParams (stripParams items) := by
  induction items with
  | nil => rw [lowerParams, stripParams, Ry.lowerParams]
  | cons item items ih =>
    rw [List.flatMap_cons, List.forall_mem_append] at h
    cases item with
    | parameter name default span =>
      rw [lowerParams, stripParams, Ry.lowerParams, Ry.lowerParam, ih h.2, lowerDefault_strip h.1]
    | other span => rw [lowerParams, stripParams, ih h.2]

theorem lowerValue_strip {name : Option String} {value : Option Node} {span : Span}
    (h : ∀ node ∈ value.toList, Lowered node) :
    Arg.mk name (lowerValue value span) span =
      Ry.lowerArg (.argument name (stripOption value) span) := by
  cases value with
  | none => rw [lowerValue, stripOption, Ry.lowerArg]
  | some node =>
    rw [lowerValue, stripOption, Ry.lowerArg, (h node (by simp)).expr]
    rfl

theorem lowerArguments_strip {items : List Item} (close : Span)
    (h : ∀ node ∈ items.flatMap Item.values, Lowered node) (out : List Arg)
    (pending : Option CstArg) (sawComma : Bool) :
    lowerArguments items out (pending.map Ry.lowerArg) sawComma close =
      out ++ Ry.lowerArguments (stripItems items pending sawComma close) := by
  induction items generalizing out pending sawComma with
  | nil =>
    cases pending with
    | none =>
      cases sawComma <;> simp [lowerArguments, stripItems, Ry.lowerArguments, Ry.lowerArg]
    | some slot => simp [lowerArguments, stripItems, Ry.lowerArguments]
  | cons item items ih =>
    rw [List.flatMap_cons, List.forall_mem_append] at h
    have ih := ih h.2
    cases item with
    | comma span =>
      have hpending : (pending.map Ry.lowerArg).getD (missingAt span) =
          Ry.lowerArg (pending.getD (.omitted span)) := by
        cases pending with
        | none => exact (Ry.lowerArg.eq_1 span).symm
        | some slot => rfl
      rw [lowerArguments, stripItems, Ry.lowerArguments, hpending]
      exact (ih _ none true).trans (List.append_assoc _ _ _)
    | comment span =>
      rw [lowerArguments, stripItems]
      exact ih out pending sawComma
    | argument name value span =>
      rw [lowerArguments, stripItems, lowerValue_strip h.1]
      exact ih out (some _) sawComma
    | other span =>
      have hother : Arg.mk none (.unknown span) span =
          Ry.lowerArg (.argument none (some (.other span)) span) := by
        rw [Ry.lowerArg, Ry.lowerExpr]
      rw [lowerArguments, stripItems, hother]
      exact ih out (some _) sawComma

theorem isIdentifier_strip (node : Node) : node.isIdentifier = node.strip.isIdentifier := by
  have hfirst : ∀ (nodes : List Node) (span : Span),
      (stripFirst nodes span).isIdentifier = false := by
    intro nodes span
    induction nodes with
    | nil => rfl
    | cons node nodes ih =>
      rw [stripFirst]
      split
      · exact ih
      · rfl
  cases node <;> first | exact (hfirst _ _).symm | rfl

/-- The first expression in parentheses is the one that is lowered. -/
theorem stripFirst_eq {children : List Node} (span : Span)
    (h : ∃ child ∈ children, child.isComment = false) :
    ∃ child ∈ children, child.isComment = false ∧ lowerFirst children = lowerExpr child ∧
      stripFirst children span = .parenthesized child.strip span := by
  induction children with
  | nil =>
    obtain ⟨child, hmem, -⟩ := h
    exact absurd hmem List.not_mem_nil
  | cons child children ih =>
    cases hcomment : child.isComment with
    | false =>
      refine ⟨child, List.mem_cons_self, hcomment, ?_, ?_⟩
      · rw [lowerFirst, if_neg (by simp [hcomment])]
      · rw [stripFirst, if_neg (by simp [hcomment])]
    | true =>
      have hrest : ∃ child ∈ children, child.isComment = false := by
        obtain ⟨other, hmem, hother⟩ := h
        rcases List.mem_cons.mp hmem with rfl | hmem
        · rw [hcomment] at hother
          cases hother
        · exact ⟨other, hmem, hother⟩
      obtain ⟨first, hmem, hfirst, hlower, hstrip⟩ := ih hrest
      refine ⟨first, List.mem_cons_of_mem _ hmem, hfirst, ?_, ?_⟩
      · rw [lowerFirst, if_pos hcomment, hlower]
      · rw [stripFirst, if_pos hcomment, hstrip]

/-- A node that is no block of its own. -/
theorem lowered_single {node : Node} (hnode : ∀ doubled children span, node ≠ braced doubled children span)
    (hblock : Ry.lowerBlock node.strip = [Ry.lowerStmt node.strip])
    (hexpr : lowerExpr node = some (Ry.lowerExpr node.strip))
    (hstmt : lowerStmt node = some (Ry.lowerStmt node.strip)) : Lowered node := by
  refine ⟨hexpr, hstmt, ?_⟩
  rw [lowerBlock_single hnode, hstmt, hblock]
  rfl

/-- A node whose tree is no form with a statement of its own. -/
theorem lowered_plain {node : Node} (hplain : node.isPlain)
    (hblock : Ry.lowerBlock node.strip = [Ry.lowerStmt node.strip])
    (hstmt : Ry.lowerStmt node.strip = .expr (Ry.lowerExpr node.strip))
    (hexpr : lowerExpr node = some (Ry.lowerExpr node.strip)) : Lowered node := by
  refine lowered_single ?_ hblock hexpr ?_
  · rintro doubled children span rfl
    cases hplain
  · rw [lowerStmt_plain hplain, hexpr, hstmt]
    rfl

theorem Shaped.lowered {node : Node} (h : Shaped node) (hnode : node.isComment = false) :
    Lowered node := by
  induction h with
  | @intro node hfields _ _ hinner _ ihfields ihchildren =>
    have hfield : ∀ field ∈ node.fields, Lowered field := fun field hmem =>
      ihfields field hmem (hfields field hmem)
    cases node with
    | comment => cases hnode
    | logical | number | string | null | na | identifier | namespaced | other =>
      refine lowered_plain rfl ?_ ?_ ?_ <;> simp [strip, Ry.lowerStmt, Ry.lowerBlock, Ry.lowerExpr, lowerExpr]
    | call function arguments close span =>
      rw [fields, List.forall_mem_cons] at hfield
      have hslots := lowerArguments_strip close hfield.2 [] none false
      rw [Option.map_none, List.nil_append] at hslots
      refine lowered_plain rfl (by simp [strip, Ry.lowerBlock]) (by simp [strip, Ry.lowerStmt]) ?_
      rw [lowerExpr, hfield.1.expr, hslots, strip, Ry.lowerExpr]
      rfl
    | subset double function arguments close span =>
      rw [fields, List.forall_mem_cons] at hfield
      have hslots := lowerArguments_strip close hfield.2 [] none false
      rw [Option.map_none, List.nil_append] at hslots
      refine lowered_plain rfl (by simp [strip, Ry.lowerBlock]) (by simp [strip, Ry.lowerStmt]) ?_
      rw [lowerExpr, hfield.1.expr, hslots, strip, Ry.lowerExpr]
      rfl
    | extract operator lhs rhs span =>
      have hlhs := hfield lhs List.mem_cons_self
      refine lowered_plain rfl (by simp [strip, Ry.lowerBlock]) (by simp [strip, Ry.lowerStmt]) ?_
      rw [lowerExpr, hlhs.expr, strip, Ry.lowerExpr]
      rfl
    | unary operator operand span =>
      have hoperand := hfield operand List.mem_cons_self
      refine lowered_plain rfl (by simp [strip, Ry.lowerBlock]) (by simp [strip, Ry.lowerStmt]) ?_
      rw [lowerExpr, hoperand.expr, strip, Ry.lowerExpr]
      rfl
    | binary operator operatorSpan lhs rhs span =>
      have hlhs := hfield lhs List.mem_cons_self
      have hrhs := hfield rhs (List.mem_cons_of_mem _ List.mem_cons_self)
      have hexpr : lowerExpr (binary operator operatorSpan lhs rhs span) =
          some (Ry.lowerExpr (strip (binary operator operatorSpan lhs rhs span))) := by
        rw [lowerExpr_binary, hlhs.expr, hrhs.expr, strip, Ry.lowerExpr]
        rfl
      have hassign : tryLowerAssign operator lhs rhs span = Ry.tryLowerAssign operator
          lhs.strip.isIdentifier (Ry.lowerExpr lhs.strip) (Ry.lowerExpr rhs.strip) span := by
        rw [tryLowerAssign, hlhs.expr, hrhs.expr, isIdentifier_strip]
        rfl
      have hstmt : lowerStmt (binary operator operatorSpan lhs rhs span) =
          some (Ry.lowerStmt (strip (binary operator operatorSpan lhs rhs span))) := by
        rw [lowerStmt, hassign, hexpr, strip, Ry.lowerStmt, Ry.lowerExpr]
        cases Ry.tryLowerAssign operator lhs.strip.isIdentifier (Ry.lowerExpr lhs.strip)
          (Ry.lowerExpr rhs.strip) span <;> rfl
      exact lowered_single (by simp) (by simp [strip, Ry.lowerBlock]) hexpr hstmt
    | functionDefinition parameters body span =>
      rw [fields, List.forall_mem_append] at hfield
      have hparams := lowerParams_strip hfield.1
      have hbody := hfield.2 body List.mem_cons_self
      have hstmt : lowerStmt (functionDefinition parameters body span) =
          some (Ry.lowerStmt (strip (functionDefinition parameters body span))) := by
        rw [lowerStmt, hparams, hbody.block, strip, Ry.lowerStmt]
      refine lowered_single (by simp) (by simp [strip, Ry.lowerBlock]) ?_ hstmt
      rw [lowerExpr, hparams, hbody.block, strip, Ry.lowerExpr]
    | parenthesized children span =>
      obtain ⟨child, hmem, hchild, hlower, hstrip⟩ := stripFirst_eq span (hinner rfl)
      have htree : strip (parenthesized children span) = .parenthesized child.strip span := hstrip
      refine lowered_plain rfl ?_ ?_ ?_
      · simp [htree, Ry.lowerBlock]
      · simp [htree, Ry.lowerStmt]
      · have hlower : lowerExpr (parenthesized children span) = lowerExpr child := by
          rw [lowerExpr]
          exact hlower
        rw [hlower, (ihchildren child hmem hchild).expr, htree, Ry.lowerExpr]
    | braced doubled children span =>
      have hbody : lowerStmts children = Ry.lowerStmts (stripNodes children) :=
        lowerStmts_strip ihchildren
      refine ⟨?_, ?_, ?_⟩
      · rw [lowerExpr, strip, Ry.lowerExpr, hbody]
        cases doubled <;> rfl
      · rw [lowerStmt, strip, Ry.lowerStmt, hbody]
      · rw [lowerBlock, strip, Ry.lowerBlock, hbody]
    | ifStatement condition consequence alternative span =>
      rw [fields, List.forall_mem_cons, List.forall_mem_cons] at hfield
      obtain ⟨hcondition, hconsequence, halternative⟩ := hfield
      have hstmt : lowerStmt (ifStatement condition consequence alternative span) =
          some (Ry.lowerStmt (strip (ifStatement condition consequence alternative span))) := by
        rw [lowerStmt, hcondition.expr, hconsequence.block, lowerAlternative_strip halternative, strip,
          Ry.lowerStmt]
        rfl
      refine lowered_single (by simp) (by simp [strip, Ry.lowerBlock]) ?_ hstmt
      rw [lowerExpr, hcondition.expr, hconsequence.expr, lowerDefault_strip halternative, strip,
          Ry.lowerExpr]
      rfl
    | forStatement name nameSpan sequence body span =>
      have hsequence := hfield sequence List.mem_cons_self
      have hbody := hfield body (List.mem_cons_of_mem _ List.mem_cons_self)
      have hstmt : lowerStmt (forStatement name nameSpan sequence body span) =
          some (Ry.lowerStmt (strip (forStatement name nameSpan sequence body span))) := by
        rw [lowerStmt, hsequence.expr, hbody.block, strip, Ry.lowerStmt]
        rfl
      refine lowered_single (by simp) (by simp [strip, Ry.lowerBlock]) ?_ hstmt
      rw [lowerExpr, strip, Ry.lowerExpr]
    | whileStatement condition body span =>
      have hcondition := hfield condition List.mem_cons_self
      have hbody := hfield body (List.mem_cons_of_mem _ List.mem_cons_self)
      have hstmt : lowerStmt (whileStatement condition body span) =
          some (Ry.lowerStmt (strip (whileStatement condition body span))) := by
        rw [lowerStmt, hcondition.expr, hbody.block, strip, Ry.lowerStmt]
        rfl
      refine lowered_single (by simp) (by simp [strip, Ry.lowerBlock]) ?_ hstmt
      rw [lowerExpr, strip, Ry.lowerExpr]
    | repeatStatement body span =>
      have hbody := hfield body List.mem_cons_self
      have hstmt : lowerStmt (repeatStatement body span) =
          some (Ry.lowerStmt (strip (repeatStatement body span))) := by
        rw [lowerStmt, hbody.block, strip, Ry.lowerStmt]
      refine lowered_single (by simp) (by simp [strip, Ry.lowerBlock]) ?_ hstmt
      rw [lowerExpr, strip, Ry.lowerExpr]
    | jump kind span =>
      have hstmt : lowerStmt (jump kind span) = some (Ry.lowerStmt (strip (jump kind span))) := by
        cases kind <;> rw [lowerStmt, strip, Ry.lowerStmt]
      refine lowered_single (by simp) (by simp [strip, Ry.lowerBlock]) ?_ hstmt
      rw [lowerExpr, strip, Ry.lowerExpr]

/-! ## Statements and slots -/

/-- The statements of a block, or of a body without braces. -/
def statements : Node → List Node
  | braced _ children _ => children.filter fun child => !child.isComment
  | node => [node]

theorem lowerStmts_statements {nodes : List Node}
    (h : ∀ node ∈ nodes, node.isComment = false → Lowered node) :
    (lowerStmts nodes).map some = (nodes.filter fun node => !node.isComment).map lowerStmt := by
  induction nodes with
  | nil => rw [lowerStmts, List.filter_nil, List.map_nil, List.map_nil]
  | cons node nodes ih =>
    obtain ⟨hnode, hnodes⟩ := List.forall_mem_cons.mp h
    rw [lowerStmts, List.map_append, ih hnodes]
    cases hcomment : node.isComment with
    | true =>
      have hnone : lowerStmt node = none := by
        cases node <;> first | (cases hcomment; done) | rw [lowerStmt_plain rfl, lowerExpr, Option.bind_none]
      rw [List.filter_cons_of_neg (by simp [hcomment]), hnone]
      rfl
    | false =>
      rw [List.filter_cons_of_pos (by simp [hcomment]), List.map_cons, (hnode hcomment).stmt]
      rfl

/-- A slot as R's parser reads it. -/
inductive ReadsSlot : List Item → Arg → Prop where
  | omitted (span : Span) : ReadsSlot [] (missingAt span)
  | named (name : Option String) (span : Span) :
      ReadsSlot [.argument name none span] (.mk name (.missing span) span)
  | given (name : Option String) {node : Node} {value : Expr} (span : Span)
      (h : lowerExpr node = some value) :
      ReadsSlot [.argument name (some node) span] (.mk name value span)

/-- The slot that is open, and the argument the loop holds for it. -/
inductive Holds : List Item → Option Arg → Prop where
  | nothing : Holds [] none
  | argument {item : Item} {arg : Arg} (h : ReadsSlot [item] arg) : Holds [item] (some arg)

theorem Holds.closed {slot : List Item} {pending : Option Arg} (h : Holds slot pending)
    (span : Span) : ReadsSlot slot (pending.getD (missingAt span)) := by
  cases h with
  | nothing => exact .omitted span
  | argument h => exact h

theorem slotShape_append {slot rest : List Item} {item : Item}
    (h : SlotShape (slot ++ item :: rest)) :
    slot = [] ∧ rest = [] ∧ ∃ name value span, item = .argument name value span := by
  obtain hnil | ⟨name, value, span, heq⟩ := h
  · exact absurd (List.append_eq_nil_iff.mp hnil).2 (List.cons_ne_nil _ _)
  · rcases List.append_eq_singleton_iff.mp heq with ⟨hslot, hrest⟩ | ⟨-, hrest⟩
    · obtain ⟨hitem, hrest⟩ := List.cons.inj hrest
      exact ⟨hslot, hrest, name, value, span, hitem⟩
    · cases hrest

/-- The open slot is the first one that is left. -/
def slotsFrom (slot : List Item) (items : List Item) : List (List Item) :=
  (slots items).modifyHead (slot ++ ·)

theorem slots_ne_nil (items : List Item) : slots items ≠ [] := by
  induction items with
  | nil => exact List.cons_ne_nil _ _
  | cons item items ih =>
    cases item with
    | comma => exact List.cons_ne_nil _ _
    | comment => exact ih
    | argument => exact fun h => ih (List.modifyHead_eq_nil_iff.mp h)
    | other => exact fun h => ih (List.modifyHead_eq_nil_iff.mp h)

theorem slotsFrom_nil (items : List Item) : slotsFrom [] items = slots items := by
  rw [slotsFrom]
  cases slots items <;> rfl

theorem slotsFrom_comma (slot : List Item) (span : Span) (items : List Item) :
    slotsFrom slot (.comma span :: items) = slot :: slots items := by
  rw [slotsFrom, slots, List.modifyHead_cons, List.append_nil]

theorem slotsFrom_item {item : Item} (slot items : List Item)
    (h : slots (item :: items) = (slots items).modifyHead (item :: ·)) :
    slotsFrom slot (item :: items) = slotsFrom (slot ++ [item]) items := by
  rw [slotsFrom, slotsFrom, h]
  cases slots items <;> simp

/-- A slot with an argument holds nothing else. -/
theorem shape_slotsFrom {slot items : List Item} {item : Item}
    (h : ∀ left ∈ slotsFrom (slot ++ [item]) items, SlotShape left) :
    slot = [] ∧ ∃ name value span, item = .argument name value span := by
  obtain ⟨first, rest, hslots⟩ := List.exists_cons_of_ne_nil (slots_ne_nil items)
  have hfirst : SlotShape (slot ++ item :: first) := by
    refine h _ ?_
    rw [slotsFrom, hslots]
    simp
  obtain ⟨hslot, -, hitem⟩ := slotShape_append hfirst
  exact ⟨hslot, hitem⟩

theorem readsSlot_lowerValue {name : Option String} {value : Option Node} {span : Span}
    (h : ∀ node ∈ Item.values (.argument name value span), ∃ value, lowerExpr node = some value) :
    ReadsSlot [.argument name value span] (.mk name (lowerValue value span) span) := by
  cases value with
  | none =>
    rw [lowerValue]
    exact .named name span
  | some node =>
    obtain ⟨value, hvalue⟩ := h node (by simp [Item.values])
    rw [lowerValue, hvalue]
    exact .given name span hvalue

/-- Some slot is left, and with one slot it is not the empty one of an empty list. -/
def Leaves (sawComma : Bool) (left : List (List Item)) : Prop := sawComma ∨ left ≠ [[]]

/-- The loop gives every slot that is left its argument. -/
theorem lowerArguments_reads {items : List Item} (close : Span)
    (hvalues : ∀ node ∈ items.flatMap Item.values, ∃ value, lowerExpr node = some value)
    {slot : List Item} {pending : Option Arg} (hslot : Holds slot pending)
    (hshape : ∀ left ∈ slotsFrom slot items, SlotShape left) (out : List Arg) (sawComma : Bool) :
    ∃ args, lowerArguments items out pending sawComma close = out ++ args ∧
      (Leaves sawComma (slotsFrom slot items) →
        List.Forall₂ ReadsSlot (slotsFrom slot items) args) ∧
      (¬ Leaves sawComma (slotsFrom slot items) → args = []) := by
  induction items generalizing slot pending out sawComma with
  | nil =>
    have hlast : slotsFrom slot [] = [slot] := by simp [slotsFrom, slots]
    rw [hlast]
    cases hslot with
    | nothing =>
      rw [lowerArguments]
      cases sawComma with
      | true =>
        exact ⟨[missingAt close], rfl, fun _ => .cons (.omitted close) .nil,
          fun hnot => absurd (Or.inl rfl) hnot⟩
      | false =>
        refine ⟨[], (List.append_nil _).symm, fun hleaves => ?_, fun _ => rfl⟩
        exact hleaves.elim (fun h => by cases h) fun hne => absurd rfl hne
    | argument h =>
      rw [lowerArguments]
      exact ⟨_, rfl, fun _ => .cons h .nil, fun hnot => absurd (Or.inr (by simp)) hnot⟩
  | cons item items ih =>
    rw [List.flatMap_cons, List.forall_mem_append] at hvalues
    cases item with
    | comma span =>
      rw [slotsFrom_comma] at hshape ⊢
      have hrest : ∀ left ∈ slotsFrom [] items, SlotShape left := by
        rw [slotsFrom_nil]
        exact (List.forall_mem_cons.mp hshape).2
      obtain ⟨args, hlower, hargs, -⟩ := ih hvalues.2 .nothing hrest
        (out ++ [pending.getD (missingAt span)]) true
      rw [slotsFrom_nil] at hargs
      refine ⟨pending.getD (missingAt span) :: args, ?_, fun _ => ?_, fun hnot => ?_⟩
      · rw [lowerArguments, hlower, List.append_assoc]
        rfl
      · exact .cons (hslot.closed span) (hargs (Or.inl rfl))
      · refine absurd (Or.inr fun heq => ?_) hnot
        exact slots_ne_nil items (List.cons.inj heq).2
    | comment span =>
      rw [lowerArguments]
      exact ih hvalues.2 hslot hshape out sawComma
    | argument name value span =>
      have hopen : slotsFrom slot (.argument name value span :: items) =
          slotsFrom (slot ++ [.argument name value span]) items := slotsFrom_item slot items rfl
      rw [hopen] at hshape ⊢
      obtain ⟨rfl, -⟩ := shape_slotsFrom hshape
      rw [lowerArguments]
      exact ih hvalues.2 (.argument (readsSlot_lowerValue hvalues.1)) hshape out sawComma
    | other span =>
      have hopen : slotsFrom slot (.other span :: items) =
          slotsFrom (slot ++ [.other span]) items := slotsFrom_item slot items rfl
      rw [hopen] at hshape
      obtain ⟨-, name, value, span', heq⟩ := shape_slotsFrom hshape
      cases heq

/-! ## The whole tree -/

/-- The argument list as R's parser reads it: a call with nothing in its parentheses has no slot. -/
def parserSlots : Node → List (List Item)
  | call _ arguments _ _ => if arguments.all Item.isComment then [] else slots arguments
  | subset _ _ arguments _ _ => slots arguments
  | _ => []

/-- The argument list as it is lowered. -/
def lowerSlots : Node → List Arg
  | call _ arguments close _ | subset _ _ arguments close _ =>
    lowerArguments arguments [] none false close
  | _ => []

/-- A subset with nothing between its brackets, such as `x[]`. -/
def isEmptySubset : Node → Bool
  | subset _ _ arguments _ _ => arguments.all Item.isComment
  | _ => false

def commas (node : Node) : Nat := node.argumentItems.countP Item.isComma

theorem slots_eq_singleton_nil {items : List Item} :
    slots items = [[]] ↔ items.all Item.isComment := by
  have hitem : ∀ {item : Item} {slots : List (List Item)}, slots ≠ [] →
      slots.modifyHead (item :: ·) ≠ [[]] := by
    intro item slots hslots heq
    cases slots with
    | nil => exact hslots rfl
    | cons slot slots => cases heq
  induction items with
  | nil => exact ⟨fun _ => rfl, fun _ => rfl⟩
  | cons item items ih =>
    cases item with
    | comment => exact ih
    | comma =>
      refine ⟨fun heq => absurd (List.cons.inj heq).2 (slots_ne_nil items), fun hall => ?_⟩
      cases hall
    | argument =>
      refine ⟨fun heq => absurd heq (hitem (slots_ne_nil items)), fun hall => ?_⟩
      cases hall
    | other =>
      refine ⟨fun heq => absurd heq (hitem (slots_ne_nil items)), fun hall => ?_⟩
      cases hall

theorem length_slots (items : List Item) :
    (slots items).length = items.countP Item.isComma + 1 := by
  induction items with
  | nil => rfl
  | cons item items ih =>
    cases item with
    | comma => rw [slots, List.length_cons, ih, List.countP_cons_of_pos rfl]
    | comment => rw [slots, ih, List.countP_cons_of_neg (by simp [Item.isComma])]
    | argument =>
      rw [List.countP_cons_of_neg (by simp [Item.isComma]), ← ih]
      exact List.length_modifyHead
    | other =>
      rw [List.countP_cons_of_neg (by simp [Item.isComma]), ← ih]
      exact List.length_modifyHead

theorem Shaped.fields_lowered {node : Node} (h : Shaped node) :
    ∀ field ∈ node.fields, Lowered field := by
  cases h with
  | intro hfields hbelow => exact fun field hmem => (hbelow field hmem).lowered (hfields field hmem)

/-- The argument list of a call or subset, slot by slot. -/
theorem Shaped.reads {node : Node} (h : Shaped node) {items : List Item} (close : Span)
    (hitems : node.argumentItems = items)
    (hvalues : ∀ value ∈ items.flatMap Item.values, value ∈ node.fields) :
    (¬ items.all Item.isComment → List.Forall₂ ReadsSlot (slots items)
      (lowerArguments items [] none false close)) ∧
    (items.all Item.isComment → lowerArguments items [] none false close = []) := by
  have hshape : ∀ left ∈ slotsFrom [] items, SlotShape left := by
    rw [slotsFrom_nil, ← hitems]
    cases h with
    | intro _ _ _ _ hslots => exact hslots
  have hlower : ∀ value ∈ items.flatMap Item.values, ∃ expr, lowerExpr value = some expr :=
    fun value hmem => ⟨_, (h.fields_lowered value (hvalues value hmem)).expr⟩
  obtain ⟨args, hargs, hreads, hnone⟩ := lowerArguments_reads close hlower .nothing hshape [] false
  rw [slotsFrom_nil] at hreads hnone
  rw [hargs, List.nil_append]
  constructor
  · exact fun hsome => hreads (Or.inr fun heq => hsome (slots_eq_singleton_nil.mp heq))
  · intro hall
    refine hnone fun hleaves => ?_
    exact hleaves.elim (fun h => by cases h) fun hne => hne (slots_eq_singleton_nil.mpr hall)

theorem Shaped.parserSlots {node : Node} (h : Shaped node) (hnode : node.isEmptySubset = false) :
    List.Forall₂ ReadsSlot node.parserSlots node.lowerSlots := by
  cases node with
  | call function arguments close span =>
    obtain ⟨hreads, hnone⟩ := @Shaped.reads _ h arguments close rfl fun value hmem =>
      List.mem_cons_of_mem _ hmem
    rw [Node.parserSlots, Node.lowerSlots]
    split
    · rename_i hall
      rw [hnone hall]
      exact .nil
    · rename_i hsome
      exact hreads hsome
  | subset double function arguments close span =>
    obtain ⟨hreads, -⟩ := @Shaped.reads _ h arguments close rfl fun value hmem =>
      List.mem_cons_of_mem _ hmem
    refine hreads fun hall => ?_
    rw [isEmptySubset, hall] at hnode
    cases hnode
  | _ => exact .nil

theorem Shaped.length_lowerSlots {node : Node} (h : Shaped node) (hcommas : 0 < node.commas) :
    node.lowerSlots.length = node.commas + 1 := by
  have hsome : ¬ node.argumentItems.all Item.isComment := by
    intro hall
    obtain ⟨item, hmem, hcomma⟩ := List.countP_pos_iff.mp hcommas
    have hcomment := List.all_eq_true.mp hall item hmem
    cases item with
    | comma => cases hcomment
    | comment | argument | other => cases hcomma
  cases node with
  | call function arguments close span =>
    obtain ⟨hreads, -⟩ := @Shaped.reads _ h arguments close rfl fun value hmem =>
      List.mem_cons_of_mem _ hmem
    exact (hreads hsome).length_eq.symm.trans (length_slots arguments)
  | subset double function arguments close span =>
    obtain ⟨hreads, -⟩ := @Shaped.reads _ h arguments close rfl fun value hmem =>
      List.mem_cons_of_mem _ hmem
    exact (hreads hsome).length_eq.symm.trans (length_slots arguments)
  | _ => exact absurd hcommas (Nat.lt_irrefl 0)

theorem Shaped.statements {node : Node} (h : Shaped node) (hnode : node.isComment = false) :
    (lowerBlock node).map some = node.statements.map lowerStmt := by
  have hlowered := h.lowered hnode
  cases node with
  | braced doubled children span =>
    cases h with
    | intro _ _ hchildren =>
      rw [lowerBlock]
      exact lowerStmts_statements fun child hmem => (hchildren child hmem).lowered
  | _ =>
    rw [lowerBlock_single (by simp), hlowered.stmt, Node.statements, List.map_singleton, hlowered.stmt]
    · rfl
    · simp

/-- **Lowering loses nothing**: a tree is lowered as the plain recursion lowers it, a block has one
statement for each child that is no comment, and the slots of an argument list are those R's parser
sees, but for an empty subset. -/
theorem Shaped.lossless {node : Node} (h : Shaped node) (hnode : node.isComment = false) :
    lowerExpr node = some (Ry.lowerExpr node.strip) ∧
      lowerStmt node = some (Ry.lowerStmt node.strip) ∧
      (lowerBlock node).map some = node.statements.map lowerStmt ∧
      (0 < node.commas → node.lowerSlots.length = node.commas + 1) ∧
      (node.isEmptySubset = false → List.Forall₂ ReadsSlot node.parserSlots node.lowerSlots) :=
  ⟨(h.lowered hnode).expr, (h.lowered hnode).stmt, h.statements hnode, h.length_lowerSlots,
    h.parserSlots⟩

/-! ## Two argument lists -/

theorem shaped_identifier (text : String) (span : Span) : Shaped (identifier text span) := by
  refine .intro ?_ ?_ ?_ ?_ ?_
  · exact fun field hmem => absurd hmem List.not_mem_nil
  · exact fun field hmem => absurd hmem List.not_mem_nil
  · exact fun child hmem => absurd hmem List.not_mem_nil
  · exact fun h => by cases h
  · intro slot hmem
    exact Or.inl (List.mem_singleton.mp hmem)

/-- `f(, x)` -/
def omittedFirst : Node :=
  call (identifier "f" ⟨0, 1, 0, 0⟩)
    [.comma ⟨2, 3, 0, 2⟩, .argument none (some (identifier "x" ⟨4, 5, 0, 4⟩)) ⟨4, 5, 0, 4⟩]
    ⟨5, 6, 0, 5⟩ ⟨0, 6, 0, 0⟩

theorem shaped_omittedFirst : Shaped omittedFirst := by
  have hfield : ∀ field ∈ omittedFirst.fields, field = identifier "f" ⟨0, 1, 0, 0⟩ ∨
      field = identifier "x" ⟨4, 5, 0, 4⟩ := by
    intro field hmem
    simpa [omittedFirst, fields, Item.values] using hmem
  refine .intro ?_ ?_ ?_ ?_ ?_
  · intro field hmem
    rcases hfield field hmem with rfl | rfl <;> rfl
  · intro field hmem
    rcases hfield field hmem with rfl | rfl
    · exact shaped_identifier _ _
    · exact shaped_identifier _ _
  · exact fun child hmem => absurd hmem List.not_mem_nil
  · exact fun h => by cases h
  · intro slot hmem
    have hmem : slot ∈ [[], [Item.argument none (some (identifier "x" ⟨4, 5, 0, 4⟩)) ⟨4, 5, 0, 4⟩]] := hmem
    rcases List.mem_cons.mp hmem with rfl | hmem
    · exact Or.inl rfl
    · exact Or.inr ⟨_, _, _, List.mem_singleton.mp hmem⟩

theorem lossless_omittedFirst :
    omittedFirst.lowerSlots.length = 2 ∧
      List.Forall₂ ReadsSlot omittedFirst.parserSlots omittedFirst.lowerSlots := by
  obtain ⟨-, -, -, hlength, hslots⟩ := shaped_omittedFirst.lossless rfl
  exact ⟨hlength (by decide), hslots rfl⟩

/-- `x[]` -/
def emptySubset : Node :=
  subset false (identifier "x" ⟨0, 1, 0, 0⟩) [] ⟨2, 3, 0, 2⟩ ⟨0, 3, 0, 0⟩

theorem shaped_emptySubset : Shaped emptySubset := by
  have hfield : ∀ field ∈ emptySubset.fields, field = identifier "x" ⟨0, 1, 0, 0⟩ :=
    fun field hmem => List.mem_singleton.mp hmem
  refine .intro ?_ ?_ ?_ ?_ ?_
  · intro field hmem
    rw [hfield field hmem]
    rfl
  · intro field hmem
    rw [hfield field hmem]
    exact shaped_identifier _ _
  · exact fun child hmem => absurd hmem List.not_mem_nil
  · exact fun h => by cases h
  · intro slot hmem
    exact Or.inl (List.mem_singleton.mp hmem)

/-- R's parser sees a slot in `x[]`; the lowering has none. -/
theorem emptySubset_not_lossless :
    ¬ ∀ node : Node, Shaped node → List.Forall₂ ReadsSlot node.parserSlots node.lowerSlots := by
  intro hall
  have hslots := (hall emptySubset shaped_emptySubset).length_eq
  have hlower : emptySubset.lowerSlots = [] := by
    rw [emptySubset, lowerSlots, lowerArguments]
    rfl
  rw [hlower] at hslots
  cases hslots

end Node

end Ry.Syntax
