import Ry.Contract.Derive

/-! # The bodies that have a contract

Lowering erases parentheses and unary plus.  A node below parentheses ends inside them, so the
comparison of ends refuses parentheses; a node below a unary plus ends with it.  `Shape` lists the
trees a contract is derived from.
-/

namespace Ry

namespace Cst

/-- How the spans of the parser's tree nest. -/
def Fits : Cst → Prop
  | parenthesized inner span => span.start < inner.span.start ∧ inner.span.stop < span.stop
  | braced _ body span => ∀ node ∈ body, span.start < node.span.start ∧ node.span.stop < span.stop
  | unary _ operand span => span.start < operand.span.start ∧ operand.span.stop = span.stop
  | binary _ _ lhs rhs span => lhs.span.start = span.start ∧ rhs.span.stop = span.stop
  | extract operator lhs _ span =>
    (operator = "$" ∨ operator = "@") ∧ lhs.span.start = span.start
  | functionDefinition _ body span => body.span.stop = span.stop
  | _ => True

def Spanned (node : Cst) : Prop := ∀ part, Part part node → part.Fits

theorem Spanned.fits {node : Cst} (h : node.Spanned) : node.Fits := h node .refl

theorem Spanned.child {node child : Cst} (h : node.Spanned) (hchild : child ∈ node.children) :
    child.Spanned := fun part hpart => h part (.child hchild hpart)

/-- What lowering leaves of a node in expression position. -/
def bare : Cst → Cst
  | parenthesized inner _ => inner.bare
  | unary operator operand span => if operator = "+" then operand.bare else unary operator operand span
  | node => node
termination_by structural node => node

/-- The node below the unary plus signs. -/
def plusCore : Cst → Cst
  | unary operator operand span =>
    if operator = "+" then operand.plusCore else unary operator operand span
  | node => node
termination_by structural node => node

def isPlus : Cst → Bool
  | unary operator _ _ => operator = "+"
  | _ => false

/-- A node that lowering keeps. -/
def Kept (node : Cst) : Prop := node.isPlus = false ∧ ∀ inner span, node ≠ .parenthesized inner span

theorem kept_bare (node : Cst) : node.bare.Kept := by
  induction node using Cst.induction with
  | h node ih =>
    cases node with
    | parenthesized inner span => exact ih inner (by simp [children])
    | unary operator operand span =>
      rw [bare]
      split
      · exact ih operand (by simp [children])
      · rename_i hplus
        exact ⟨decide_eq_false hplus, nofun⟩
    | _ => exact ⟨rfl, nofun⟩

theorem lowerExpr_bare (node : Cst) : lowerExpr node.bare = lowerExpr node := by
  induction node using Cst.induction with
  | h node ih =>
    cases node with
    | parenthesized inner span =>
      rw [bare, ih inner (by simp [children]), lowerExpr]
    | unary operator operand span =>
      rw [bare]
      split
      · rename_i hplus
        rw [ih operand (by simp [children]), lowerExpr, lowerUnary, hplus]
        rfl
      · rfl
    | _ => rfl

theorem span_binaryExpression (operator : String) (lhs rhs : Expr) (span operatorSpan : Span) :
    (binaryExpression operator lhs rhs span operatorSpan).span = span := by
  rw [binaryExpression]
  split
  · rfl
  · split
    · rfl
    · split <;> rfl

/-- A kept node lowers to an expression at its place. -/
theorem span_of_kept {node : Cst} (h : node.Kept) : (lowerExpr node).span = node.span := by
  cases node with
  | number token span => cases token <;> simp [lowerExpr, lowerNumber, Expr.span, Cst.span]
  | parenthesized inner span => exact absurd rfl (h.2 inner span)
  | unary operator operand span =>
    have hplus : operator ≠ "+" := of_decide_eq_false h.1
    rw [lowerExpr, lowerUnary, if_neg hplus]
    split
    · rfl
    · split <;> rfl
  | binary operator operatorSpan lhs rhs span =>
    rw [lowerExpr, span_binaryExpression]
    rfl
  | braced doubled body span => cases doubled <;> simp [lowerExpr, Expr.span, Cst.span]
  | _ => simp [lowerExpr, lowerExtract, Expr.span, Cst.span]

theorem span_lowerExpr (node : Cst) : (lowerExpr node).span = node.bare.span := by
  rw [← lowerExpr_bare]
  exact span_of_kept (kept_bare node)

/-- What is erased begins before what is left. -/
theorem start_bare {node : Cst} (h : node.Spanned) :
    node.span.start ≤ node.bare.span.start ∧
      (node.bare.span.start = node.span.start → node.bare = node) := by
  induction node using Cst.induction with
  | h node ih =>
    cases node with
    | parenthesized inner span =>
      have hmem : inner ∈ (parenthesized inner span).children := by simp [children]
      have hstart : span.start < inner.span.start := h.fits.1
      have hinner := (ih inner hmem (h.child hmem)).1
      rw [bare]
      exact ⟨hstart.le.trans hinner, fun heq => absurd heq (hstart.trans_le hinner).ne'⟩
    | unary operator operand span =>
      rw [bare]
      split
      · have hmem : operand ∈ (unary operator operand span).children := by simp [children]
        have hstart : span.start < operand.span.start := h.fits.1
        have hinner := (ih operand hmem (h.child hmem)).1
        exact ⟨hstart.le.trans hinner, fun heq => absurd heq (hstart.trans_le hinner).ne'⟩
      · exact ⟨le_rfl, fun _ => rfl⟩
    | _ => exact ⟨le_rfl, fun _ => rfl⟩

/-- Where nothing ends inside, only plus signs are erased. -/
theorem stop_bare {node : Cst} (h : node.Spanned) :
    node.bare.span.stop ≤ node.span.stop ∧
      (node.bare.span.stop = node.span.stop → node.bare = node.plusCore) := by
  induction node using Cst.induction with
  | h node ih =>
    cases node with
    | parenthesized inner span =>
      have hmem : inner ∈ (parenthesized inner span).children := by simp [children]
      have hstop : inner.span.stop < span.stop := h.fits.2
      have hinner := (ih inner hmem (h.child hmem)).1
      rw [bare]
      exact ⟨hinner.trans hstop.le, fun heq => absurd heq (hinner.trans_lt hstop).ne⟩
    | unary operator operand span =>
      rw [bare, plusCore]
      split
      · have hmem : operand ∈ (unary operator operand span).children := by simp [children]
        have hstop : operand.span.stop = span.stop := h.fits.2
        have hinner := ih operand hmem (h.child hmem)
        exact ⟨hinner.1.trans hstop.le, fun heq => hinner.2 (heq.trans hstop.symm)⟩
      · exact ⟨le_rfl, fun _ => rfl⟩
    | _ => exact ⟨le_rfl, fun _ => rfl⟩

theorem Part.trans {a b c : Cst} (hab : Part a b) (hbc : Part b c) : Part a c := by
  induction hbc with
  | refl => exact hab
  | child hchild _ ih => exact .child hchild ih

theorem part_bare (node : Cst) : Part node.bare node := by
  induction node using Cst.induction with
  | h node ih =>
    cases node with
    | parenthesized inner span =>
      have hmem : inner ∈ (parenthesized inner span).children := by simp [children]
      exact .child hmem (ih inner hmem)
    | unary operator operand span =>
      rw [bare]
      split
      · have hmem : operand ∈ (unary operator operand span).children := by simp [children]
        exact .child hmem (ih operand hmem)
      · exact .refl
    | _ => exact .refl

theorem Spanned.bare {node : Cst} (h : node.Spanned) : node.bare.Spanned :=
  fun part hpart => h part (hpart.trans (part_bare node))

end Cst

namespace Contract

def formalName (params : List Param) (formal : Nat) : String :=
  ((params[formal]?).map fun param => semanticArgumentName param.name).getD ""

/-- A node that lowers to the formal's name: a namespaced name may be spelled like one. -/
inductive FormalNode (params : List Param) (formal : Nat) : Cst → Prop
  | identifier (text : String) (span : Span)
      (h : semanticArgumentName text = formalName params formal) :
      FormalNode params formal (.identifier text span)
  | namespaced (package operator name : String) (span : Span) :
      FormalNode params formal (.namespaced package operator name span)

inductive ReceiverNode (params : List Param) (formal : Nat) : Cst → Prop
  | extract (base : Cst) (name : String) (span : Span) (h : FormalNode params formal base) :
      ReceiverNode params formal (.extract "$" base name span)

inductive OperandNode (params : List Param) (formal : Nat) : Demand → Cst → Prop
  | formal {node : Cst} (h : FormalNode params formal node) :
      OperandNode params formal .arithmeticOperand node
  | receiver {node : Cst} (h : ReceiverNode params formal node) :
      OperandNode params formal .dollarReceiver node

def isLiteralNode : Cst → Bool
  | .logical .. | .number (.integer _) _ | .number (.double _) _ => true
  | _ => false

/-- The bodies with a contract. -/
inductive Shape (params : List Param) : Cst → CallContract → Prop
  /-- A keyword in statement position lowers to an identifier. -/
  | jump (kind : Jump) (span : Span) (formal : Nat) : Shape params (.jump kind span) (.identity formal)
  | identity {body : Cst} {formal : Nat} (h : FormalNode params formal body.plusCore) :
      Shape params body (.identity formal)
  | receiver {body : Cst} {formal : Nat} (h : ReceiverNode params formal body.plusCore) :
      Shape params body (.demand formal .dollarReceiver none)
  | left {body : Cst} {formal : Nat} {demand : Demand} {operator : String} {operatorSpan span : Span}
      {lhs rhs : Cst} {op : BinOpKind} (hcore : body.plusCore = .binary operator operatorSpan lhs rhs span)
      (hop : binOpKind operator = some op) (harithmetic : op.isArithmetic = true)
      (hlhs : OperandNode params formal demand lhs) (hrhs : isLiteralNode rhs.plusCore = true) :
      Shape params body (.demand formal demand (some op))
  | right {body : Cst} {formal : Nat} {demand : Demand} {operator : String}
      {operatorSpan span : Span} {lhs rhs : Cst} {op : BinOpKind}
      (hcore : body.plusCore = .binary operator operatorSpan lhs rhs span)
      (hop : binOpKind operator = some op) (harithmetic : op.isArithmetic = true)
      (hlhs : isLiteralNode lhs = true) (hrhs : OperandNode params formal demand rhs.plusCore) :
      Shape params body (.demand formal demand (some op))

section Shapes

variable {params : List Param} {formal : Nat} {node : Cst}

theorem formalOf_ident {name : String} {span : Span}
    (h : formalOf params (.ident name span) = some formal) :
    semanticArgumentName name = formalName params formal := by
  rw [formalOf] at h
  split at h
  · obtain ⟨hlt, hname, -⟩ := List.findIdx?_eq_some_iff_getElem.mp h
    rw [decide_eq_true_eq] at hname
    rw [formalName, List.getElem?_eq_getElem hlt]
    exact hname.symm
  · cases h

theorem formalNode_of (hkept : node.Kept) (h : formalOf params (lowerExpr node) = some formal) :
    FormalNode params formal node := by
  cases node with
  | identifier text span =>
    rw [lowerExpr] at h
    exact .identifier text span (formalOf_ident h)
  | namespaced package operator name span => exact .namespaced package operator name span
  | number token span => cases token <;> simp [lowerExpr, lowerNumber, formalOf] at h
  | parenthesized inner span => exact absurd rfl (hkept.2 inner span)
  | unary operator operand span =>
    have hplus : operator ≠ "+" := of_decide_eq_false hkept.1
    rw [lowerExpr, lowerUnary, if_neg hplus] at h
    split at h
    · cases h
    · split at h <;> cases h
  | binary operator operatorSpan lhs rhs span =>
    rw [lowerExpr, binaryExpression] at h
    split at h
    · cases h
    · split at h
      · cases h
      · split at h <;> cases h
  | braced doubled body span => cases doubled <;> simp [lowerExpr, formalOf] at h
  | _ => simp [lowerExpr, lowerExtract, formalOf] at h

theorem receiverNode_of (hspanned : node.Spanned) (hkept : node.Kept)
    (h : receiverOf params (lowerExpr node) = some formal) : ReceiverNode params formal node := by
  cases node with
  | extract operator lhs name span =>
    obtain ⟨hoperator, hlhs⟩ := hspanned.fits
    rw [lowerExpr, lowerExtract] at h
    rcases hoperator with rfl | rfl
    · rw [if_neg (by decide), receiverOf, Cst.span_lowerExpr] at h
      split at h
      · rename_i hstart
        -- nothing is erased in front of the receiver
        have hbare := (Cst.start_bare (hspanned.child (by simp [Cst.children]))).2
          (hstart.trans hlhs.symm)
        exact .extract lhs name span (formalNode_of (hbare ▸ Cst.kept_bare lhs) h)
      · cases h
    · rw [if_pos rfl] at h
      cases h
  | number token span => cases token <;> simp [lowerExpr, lowerNumber, receiverOf] at h
  | parenthesized inner span => exact absurd rfl (hkept.2 inner span)
  | unary operator operand span =>
    have hplus : operator ≠ "+" := of_decide_eq_false hkept.1
    rw [lowerExpr, lowerUnary, if_neg hplus] at h
    split at h
    · cases h
    · split at h <;> cases h
  | binary operator operatorSpan lhs rhs span =>
    rw [lowerExpr, binaryExpression] at h
    split at h
    · cases h
    · split at h
      · cases h
      · split at h <;> cases h
  | braced doubled body span => cases doubled <;> simp [lowerExpr, receiverOf] at h
  | subset double function arguments span => cases double <;> simp [lowerExpr, receiverOf] at h
  | _ => simp [lowerExpr, receiverOf] at h

theorem operandNode_of {demand : Demand} (hspanned : node.Spanned) (hkept : node.Kept)
    (h : operandOf params (lowerExpr node) = some (formal, demand)) :
    OperandNode params formal demand node := by
  rw [operandOf] at h
  split at h
  · rename_i hformal
    obtain ⟨rfl, rfl⟩ := Prod.mk.inj (Option.some.inj h)
    exact .formal (formalNode_of hkept hformal)
  · obtain ⟨formal', hreceiver, heq⟩ := Option.map_eq_some_iff.mp h
    obtain ⟨rfl, rfl⟩ := Prod.mk.inj heq
    exact .receiver (receiverNode_of hspanned hkept hreceiver)

theorem isLiteralNode_of (hkept : node.Kept) (h : isLiteral (lowerExpr node) = true) :
    isLiteralNode node = true := by
  cases node with
  | number token span => cases token <;> simp_all [lowerExpr, lowerNumber, isLiteral, isLiteralNode]
  | logical value span => rfl
  | parenthesized inner span => exact absurd rfl (hkept.2 inner span)
  | unary operator operand span =>
    have hplus : operator ≠ "+" := of_decide_eq_false hkept.1
    rw [lowerExpr, lowerUnary, if_neg hplus] at h
    split at h
    · cases h
    · split at h <;> cases h
  | binary operator operatorSpan lhs rhs span =>
    rw [lowerExpr, binaryExpression] at h
    split at h
    · cases h
    · split at h
      · cases h
      · split at h <;> cases h
  | braced doubled body span => cases doubled <;> simp [lowerExpr, isLiteral] at h
  | _ => simp [lowerExpr, lowerExtract, isLiteral] at h

theorem binary_of_binOp {op : BinOpKind} {lhs rhs : Expr} {span : Span} (hkept : node.Kept)
    (h : lowerExpr node = .binOp op lhs rhs span) (harithmetic : op.isArithmetic = true) :
    ∃ operator operatorSpan l r, node = .binary operator operatorSpan l r span ∧
      binOpKind operator = some op ∧ lhs = lowerExpr l ∧ rhs = lowerExpr r := by
  cases node with
  | binary operator operatorSpan l r span' =>
    rw [lowerExpr, binaryExpression] at h
    split at h
    · obtain ⟨rfl, -⟩ := Expr.binOp.inj h
      cases harithmetic
    · split at h
      · obtain ⟨rfl, -⟩ := Expr.binOp.inj h
        cases harithmetic
      · split at h
        · rename_i hkind
          obtain ⟨rfl, rfl, rfl, rfl⟩ := Expr.binOp.inj h
          exact ⟨operator, operatorSpan, l, r, rfl, hkind, rfl, rfl⟩
        · cases h
  | number token span => cases token <;> simp [lowerExpr, lowerNumber] at h
  | parenthesized inner span => exact absurd rfl (hkept.2 inner span)
  | unary operator operand span =>
    have hplus : operator ≠ "+" := of_decide_eq_false hkept.1
    rw [lowerExpr, lowerUnary, if_neg hplus] at h
    split at h
    · cases h
    · split at h <;> cases h
  | braced doubled body span => cases doubled <;> simp [lowerExpr] at h
  | _ => simp [lowerExpr, lowerExtract] at h

/-- The tree of an expression with a contract. -/
theorem shape_of_contractOf {body : Cst} {c : CallContract} (hspanned : body.Spanned)
    (hstop : body.bare.span.stop = body.span.stop)
    (h : contractOf params (lowerExpr body) = some c) : Shape params body c := by
  have hcore : body.bare = body.plusCore := (Cst.stop_bare hspanned).2 hstop
  have hkept : body.bare.Kept := Cst.kept_bare body
  rw [← Cst.lowerExpr_bare, contractOf.eq_def] at h
  split at h
  · rename_i formal hformal
    obtain rfl := Option.some.inj h
    exact .identity (hcore ▸ formalNode_of hkept hformal)
  · split at h
    · rename_i formal hreceiver
      obtain rfl := Option.some.inj h
      exact .receiver (hcore ▸ receiverNode_of hspanned.bare hkept hreceiver)
    · split at h
      · rename_i op lhs rhs span hbinary
        split at h
        · cases h
        · rename_i hedges
          simp only [not_or, Bool.not_eq_false, not_not, ne_eq] at hedges
          obtain ⟨harithmetic, hstart, hend⟩ := hedges
          obtain ⟨operator, operatorSpan, l, r, hnode, hop, rfl, rfl⟩ :=
            binary_of_binOp hkept hbinary harithmetic
          have hfits := hspanned.bare.fits
          rw [hnode] at hfits
          have hl : l.Spanned := hspanned.bare.child (by simp [hnode, Cst.children])
          have hr : r.Spanned := hspanned.bare.child (by simp [hnode, Cst.children])
          rw [Cst.span_lowerExpr] at hstart hend
          -- nothing is erased on the left, and only plus signs on the right
          have hlbare : l.bare = l := (Cst.start_bare hl).2 (hstart.trans hfits.1.symm)
          have hrbare : r.bare = r.plusCore := (Cst.stop_bare hr).2 (hend.trans hfits.2.symm)
          have hlkept : l.Kept := hlbare ▸ Cst.kept_bare l
          have hrkept : r.plusCore.Kept := hrbare ▸ Cst.kept_bare r
          have hrspanned : r.plusCore.Spanned := hrbare ▸ hr.bare
          have hrlower : lowerExpr r = lowerExpr r.plusCore := by rw [← hrbare, Cst.lowerExpr_bare]
          obtain ⟨⟨formal, demand⟩, hdemanded, rfl⟩ := Option.map_eq_some_iff.mp h
          rw [demandedOf, hrlower] at hdemanded
          split at hdemanded
          · rename_i hleft _
            split at hdemanded
            · rename_i hliteral
              obtain rfl := Option.some.inj hdemanded
              exact .left (hcore ▸ hnode) hop harithmetic (operandNode_of hl hlkept hleft)
                (isLiteralNode_of hrkept hliteral)
            · cases hdemanded
          · rename_i hright
            split at hdemanded
            · rename_i hliteral
              obtain rfl := Option.some.inj hdemanded
              exact .right (hcore ▸ hnode) hop harithmetic (isLiteralNode_of hlkept hliteral)
                (operandNode_of hrspanned hrkept hright)
            · cases hdemanded
          · cases hdemanded
      · cases h

/-! ## Bodies -/

/-- An expression statement is the node's expression, a keyword or a block. -/
theorem lowerStmt_cases {e : Expr} (h : lowerStmt node = .expr e) :
    e = lowerExpr node ∨ (∃ kind name, node = .jump kind node.span ∧ e = .ident name node.span) ∨
      ∃ body, e = .block body node.span := by
  cases node with
  | binary operator operatorSpan lhs rhs span =>
    rw [lowerStmt] at h
    split at h
    · rename_i hassign
      rw [tryLowerAssign] at hassign
      subst h
      split at hassign
      · cases hassign
      · split at hassign <;> cases hassign
    · rw [lowerExpr]
      exact .inl (Stmt.expr.inj h).symm
  | jump kind span =>
    cases kind <;> rw [lowerStmt] at h <;>
      exact .inr (.inl ⟨_, _, rfl, (Stmt.expr.inj h).symm⟩)
  | braced doubled body span =>
    rw [lowerStmt] at h
    exact .inr (.inr ⟨_, (Stmt.expr.inj h).symm⟩)
  | ifStatement | forStatement | whileStatement | repeatStatement | functionDefinition =>
    simp [lowerStmt] at h
  | _ =>
    simp only [lowerStmt, Stmt.expr.injEq] at h
    exact .inl h.symm

theorem stop_of_lowerStmt (hspanned : node.Spanned) {e : Expr} (h : lowerStmt node = .expr e) :
    e.span.stop ≤ node.span.stop := by
  rcases lowerStmt_cases h with rfl | ⟨kind, name, -, rfl⟩ | ⟨body, rfl⟩
  · rw [Cst.span_lowerExpr]
    exact (Cst.stop_bare hspanned).1
  · exact le_rfl
  · exact le_rfl

/-- Braces end after what they hold. -/
theorem stop_lt_of_braced {doubled : Bool} {body : List Cst} {span : Span}
    (hspanned : (Cst.braced doubled body span).Spanned) {e : Expr}
    (h : lowerStmts body = [.expr e]) : e.span.stop < span.stop := by
  cases body with
  | nil =>
    rw [lowerStmts] at h
    cases h
  | cons first rest =>
    rw [lowerStmts] at h
    have hfirst : first ∈ first :: rest := List.mem_cons_self
    have hstop := stop_of_lowerStmt (hspanned.child hfirst) (List.cons.inj h).1
    exact hstop.trans_lt (hspanned.fits first hfirst).2

theorem contractOf_block (body : List Stmt) (span : Span) :
    contractOf params (.block body span) = none := rfl

theorem derive_shape {mayWrite : List Param → String → Bool} {parameters : List CstParam}
    {body : Cst} {span : Span} {c : CallContract}
    (hspanned : (Cst.functionDefinition parameters body span).Spanned)
    (h : derive params mayWrite (lowerBlock body) span = some c) : Shape params body c := by
  have hbody : body.Spanned := hspanned.child (by simp [Cst.children])
  have hend : body.span.stop = span.stop := hspanned.fits
  rw [derive.eq_def] at h
  split at h
  · rename_i expr hblock
    split at h
    · cases h
    · rename_i hstop
      have hstop : expr.span.stop = body.span.stop := (not_not.mp hstop).trans hend.symm
      have hcontract := Option.filter_eq_some_iff.mp h
      have hstmt : lowerStmt body = .expr expr := by
        by_cases hbraced : ∃ doubled nodes s, body = .braced doubled nodes s
        · obtain ⟨doubled, nodes, s, rfl⟩ := hbraced
          rw [lowerBlock] at hblock
          exact absurd hstop (stop_lt_of_braced hbody hblock).ne
        · rw [lowerBlock] at hblock
          · exact (List.cons.inj hblock).1
          · exact fun doubled nodes s heq => hbraced ⟨doubled, nodes, s, heq⟩
      rcases lowerStmt_cases hstmt with rfl | ⟨kind, name, hjump, rfl⟩ | ⟨stmts, rfl⟩
      · exact shape_of_contractOf hbody (Cst.span_lowerExpr body ▸ hstop) hcontract.1
      · have hidentity := hcontract.1
        rw [contractOf.eq_def] at hidentity
        split at hidentity
        · obtain rfl := Option.some.inj hidentity
          rw [hjump]
          exact .jump kind _ _
        · cases hidentity
      · rw [contractOf_block] at hcontract
        cases hcontract.1
  · cases h

end Shapes

end Contract

end Ry
