import Ry.Promise.Quoting

/-! # What a guaranteed force says of a run

Runs that take none of the three steps the analysis overlooks: a statement `name := value`, an
assignment to a name in disguise, and a unary plus on a value it does not apply to.  In those,
a prefix that may be crossed only binds other names (`Passes`), and what must force the formal
evaluates its original promise after such a prefix (`Reached`).  If that promise recurses or
is omitted, the run fails there.
-/

namespace Ry.Promise

section Lowering

theorem lowerBlock_eq (n : Cst) : lowerBlock n = lowerStmts (blockBody n) := by
  cases n <;> simp [lowerBlock, blockBody, lowerStmts]

/-- What the code at `pos` is lowered to. -/
def lowered (pos : Position) (n : Cst) : Stmt :=
  if pos.isStatement then lowerStmt n else .expr (lowerExpr n)

/-- Forms that are lowered as expressions wherever they stand. -/
theorem lowered_expr {n : Cst} (h : lowerStmt n = .expr (lowerExpr n)) (pos : Position) :
    lowered pos n = .expr (lowerExpr n) := by
  unfold lowered
  split
  · exact h
  · rfl

theorem lowered_name {n : Cst} {text : String} (h : nameText n = some text) (pos : Position) :
    ∃ span, lowered pos n = .expr (.ident text span) := by
  cases n with
  | identifier text' span =>
    obtain rfl := Option.some.inj h
    exact ⟨span, by rw [lowered_expr (by simp [lowerStmt]), lowerExpr]⟩
  | namespaced package operator name span =>
    obtain rfl := Option.some.inj h
    exact ⟨span, by rw [lowered_expr (by simp [lowerStmt]), lowerExpr]⟩
  | _ => simp [nameText] at h

theorem lowerExpr_of_headText {n : Cst} {text : String} (h : headText n = some text) :
    ∃ span, lowerExpr n = .ident text span := by
  induction n using Cst.induction with
  | h n ih =>
    cases n with
    | identifier text' span =>
      obtain rfl := Option.some.inj h
      exact ⟨span, by rw [lowerExpr]⟩
    | namespaced package operator name span =>
      obtain rfl := Option.some.inj h
      exact ⟨span, by rw [lowerExpr]⟩
    | parenthesized inside span =>
      rw [lowerExpr]
      exact ih inside (by simp [Cst.children]) (by simpa [headText] using h)
    | _ => simp [headText, nameText] at h

/-- A local assignment is lowered to one of its target and value. -/
theorem lowered_localAssignment {n target value : Cst} (h : localAssignment n = some (target, value))
    (pos : Position) :
    (∃ span, lowered pos n = .assign (lowerExpr target) (lowerExpr value) span) ∨
      pos.isStatement = false ∧
        ∃ span, lowered pos n = .expr (.binOp .assign (lowerExpr target) (lowerExpr value) span) := by
  cases n with
  | binary operator operatorSpan lhs rhs span =>
    simp only [localAssignment] at h
    unfold lowered
    split at h
    · rename_i hop
      simp only [Option.some.injEq, Prod.mk.injEq] at h
      obtain ⟨rfl, rfl⟩ := h
      split
      · left
        rcases hop with rfl | rfl <;>
          exact ⟨span, by simp [lowerStmt, tryLowerAssign, assignOperators]⟩
      · rename_i hpos
        refine .inr ⟨by simpa using hpos, span, ?_⟩
        rcases hop with rfl | rfl <;> simp [lowerExpr, binaryExpression, binOpKind]
    · split at h
      · rename_i hop
        simp only [Option.some.injEq, Prod.mk.injEq] at h
        obtain ⟨rfl, rfl⟩ := h
        subst hop
        split
        · exact .inl ⟨span, by simp [lowerStmt, tryLowerAssign, assignOperators]⟩
        · rename_i hpos
          exact .inr ⟨by simpa using hpos, span, by simp [lowerExpr, binaryExpression]⟩
      · contradiction
  | _ => simp [localAssignment] at h

/-- An outward assignment keeps its operator in the value. -/
theorem lowered_outwardAssignment {n target value : Cst}
    (h : outwardAssignment n = some (target, value)) (pos : Position) :
    (∃ span, lowered pos n = .assign (lowerExpr target)
      (.binOp .superAssign (lowerExpr target) (lowerExpr value) span) span) ∨
      ∃ span, lowered pos n =
        .expr (.binOp .superAssign (lowerExpr target) (lowerExpr value) span) := by
  cases n with
  | binary operator operatorSpan lhs rhs span =>
    simp only [outwardAssignment] at h
    unfold lowered
    split at h
    · rename_i hop
      simp only [Option.some.injEq, Prod.mk.injEq] at h
      obtain ⟨rfl, rfl⟩ := h
      subst hop
      split
      · exact .inl ⟨span, by simp [lowerStmt, tryLowerAssign, assignOperators]⟩
      · exact .inr ⟨span, by simp [lowerExpr, binaryExpression, binOpKind]⟩
    · split at h
      · rename_i hop
        simp only [Option.some.injEq, Prod.mk.injEq] at h
        obtain ⟨rfl, rfl⟩ := h
        subst hop
        split
        · exact .inl ⟨span, by simp [lowerStmt, tryLowerAssign, assignOperators]⟩
        · exact .inr ⟨span, by simp [lowerExpr, binaryExpression]⟩
      · contradiction
  | _ => simp [outwardAssignment] at h

/-- An operator that is no assignment is lowered as an expression. -/
theorem lowered_binary {operator : String} (hop : operator ∉ assignOperators) (operatorSpan : Span)
    (lhs rhs : Cst) (span : Span) (pos : Position) :
    lowered pos (.binary operator operatorSpan lhs rhs span) =
      .expr (binaryExpression operator (lowerExpr lhs) (lowerExpr rhs) span operatorSpan) := by
  rw [lowered_expr, lowerExpr]
  rw [lowerStmt, lowerExpr]
  simp [tryLowerAssign, hop]

end Lowering

variable (g : Setting)

/-! ## What is shown of a run -/

def Harmless (e : Event) : Prop := ∃ x, e = .bind x ∧ x ≠ g.name

/-- The run gets to its end and only binds other names. -/
def Passes (s : Slot) (t : List Event) (o : Ending) (s' : Slot) : Prop :=
  (∃ v, o = .done v ∧ v ≠ .object) ∧ s' = s ∧ ∀ e ∈ t, Harmless g e

/-- Reading the promise fails. -/
def Stuck : Prop :=
  ∀ pos n text t o s', nameText n = some text → g.symbol text = g.name →
    Runs g pos (.node n) .promise t o s' → o = .failed

/-- The run evaluates the formal's promise before anything but bindings of other names, fails
where reading the promise does, and where the promise is being evaluated already. -/
structure Reached (s : Slot) (t : List Event) (o : Ending) : Prop where
  forced : s = .promise → ∃ before after, t = before ++ .original :: after ∧
    ∀ e ∈ before, Harmless g e
  recurses : s = .pending → o = .failed
  stuck : s = .promise → Stuck g → o = .failed

variable {g}

theorem passes_done {s : Slot} {v : Value} (hv : v ≠ .object) : Passes g s [] (.done v) s :=
  ⟨⟨v, rfl, hv⟩, rfl, by simp⟩

theorem Passes.not_stopped {s s' : Slot} {t : List Event} {o : Ending} (h : Passes g s t o s')
    (ho : o.isDone = false) : False := by
  obtain ⟨⟨v, rfl, -⟩, -⟩ := h
  simp [Ending.isDone] at ho

theorem Passes.append {s s' s'' : Slot} {t t' : List Event} {o o' : Ending}
    (h : Passes g s t o s') (h' : Passes g s' t' o' s'') : Passes g s (t ++ t') o' s'' := by
  obtain ⟨-, rfl, ht⟩ := h
  obtain ⟨hdone, rfl, ht'⟩ := h'
  exact ⟨hdone, rfl, List.forall_mem_append.mpr ⟨ht, ht'⟩⟩

theorem Passes.then_reached {s s' : Slot} {t t' : List Event} {o o' : Ending}
    (h : Passes g s t o s') (h' : Reached g s' t' o') : Reached g s (t ++ t') o' := by
  obtain ⟨-, rfl, ht⟩ := h
  refine ⟨fun hs => ?_, h'.recurses, h'.stuck⟩
  obtain ⟨before, after, rfl, hbefore⟩ := h'.forced hs
  exact ⟨t ++ before, after, by simp, List.forall_mem_append.mpr ⟨ht, hbefore⟩⟩

/-- What follows a run that got to its end changes nothing of what it reached. -/
theorem Reached.append {s : Slot} {t : List Event} {v : Value} (h : Reached g s t (.done v))
    (t' : List Event) (o : Ending) : Reached g s (t ++ t') o := by
  refine ⟨fun hs => ?_, fun hs => ?_, fun hs hstuck => ?_⟩
  · obtain ⟨before, after, rfl, hbefore⟩ := h.forced hs
    exact ⟨before, after ++ t', by simp, hbefore⟩
  · exact nomatch h.recurses hs
  · exact nomatch h.stuck hs hstuck

theorem Reached.ending {s : Slot} {t : List Event} {v : Value} (h : Reached g s t (.done v))
    (o : Ending) : Reached g s t o := by
  simpa using h.append [] o

/-! ## What is asked of the code -/

/-- The analysis crosses the code. -/
def Crossable (g : Setting) (pos : Position) : Code → Prop
  | .node n => statementPreservesBinding g.formal.raw (lowered pos n) = true
  | .stmts ns => pos.isStatement = true ∧
      statementsPreserveBinding g.formal.raw (lowerStmts ns) = true
  | _ => False

/-- An expression the analysis takes to force the formal. -/
def ForcedExpr (g : Setting) (e : Expr) : Prop :=
  (definitelyForcedIdentifier g.force g.formal.raw e).isSome = true ∨
    (firstExecutedIdentifier g.force g.formal.raw e).isSome = true

def ForcedStmt (g : Setting) (s : Stmt) : Prop :=
  (definitelyForcedIdentifierInStmt g.force g.formal.raw s).isSome = true ∨
    (firstExecutedIdentifierInStmt g.force g.formal.raw s).isSome = true

def ForcedStmts (g : Setting) (ss : List Stmt) : Prop :=
  guaranteedForceBeforeReplacement g.force g.formal.raw ss = true ∨
    (firstExecutedIdentifierInStmts g.force g.formal.raw ss).isSome = true

/-- One of the operands forces the formal, behind operands that may be crossed. -/
def ForcedOperands (g : Setting) : List Cst → Prop
  | [] => False
  | n :: ns => ForcedExpr g (lowerExpr n) ∨
      expressionPreservesBinding g.formal.raw (lowerExpr n) = true ∧ ForcedOperands g ns

/-- The analysis takes the code to force the formal. -/
def Forced (g : Setting) (pos : Position) : Code → Prop
  | .node n => ForcedStmt g (lowered pos n)
  | .stmts ns => pos.isStatement = true ∧ ForcedStmts g (lowerStmts ns)
  | .operands ns => ForcedOperands g ns
  | .whiles condition _ => ForcedExpr g (lowerExpr condition)
  | .turns .. => False

/-- What is shown of a run of `code`. -/
structure Follows (g : Setting) (pos : Position) (code : Code) (s : Slot) (t : List Event)
    (o : Ending) (s' : Slot) : Prop where
  passes : Crossable g pos code → Passes g s t o s'
  reached : Forced g pos code → Reached g s t o

/-! ## Forms that open into other code -/

/-- The forms that may open into code that is not followed. -/
def isOpened : Cst → Bool
  | .call .. | .binary .. | .extract .. | .subset .. | .other _ => true
  | .unary operator _ _ => operator != "+"
  | _ => false

theorem Opens.isOpened {pos : Position} {n : Cst} {first : List Cst} (h : Opens g pos n first) :
    isOpened n = true := by
  cases h with
  | replacement hn | outward hn =>
    cases n <;> simp_all [localAssignment, outwardAssignment, Promise.isOpened]
  | negate hop =>
    rcases hop with rfl | rfl <;> rfl
  | otherUnary hop =>
    simp only [Promise.isOpened, bne_iff_ne]
    exact fun h => hop (by simp [h])
  | _ => rfl

theorem literalTruth_binaryExpression (operator : String) (lhs rhs : Expr) (span operatorSpan : Span) :
    literalTruth (binaryExpression operator lhs rhs span operatorSpan) = none := by
  unfold binaryExpression
  split
  · rfl
  · split
    · rfl
    · split <;> rfl

/-- The runs of a literal condition, in parentheses or behind plus signs. -/
theorem literal_run {n : Cst} {b : Bool} (hn : literalTruth (lowerExpr n) = some b)
    {pos : Position} {s s' : Slot} {t : List Event} {o : Ending}
    (h : Runs g pos (.node n) s t o s') : o = .done (.logical b) ∧ t = [] ∧ s' = s := by
  induction n using Cst.induction generalizing pos s t o s' with
  | h n ih =>
    cases n with
    | logical b' span =>
      rw [lowerExpr] at hn
      obtain rfl := Option.some.inj hn
      cases h with
      | literal hv =>
        obtain rfl := Option.some.inj hv
        exact ⟨rfl, rfl, rfl⟩
      | otherName hx | settledName hx | pendingName hx | actual hx | omitted hx | default hx =>
        simp [nameText] at hx
      | opensStops ho | opens ho => exact nomatch ho.isOpened
      | assignStops ha | assign ha => simp [localAssignment] at ha
    | parenthesized inside span =>
      rw [lowerExpr] at hn
      cases h with
      | parenthesized h => exact ih inside (by simp [Cst.children]) hn h
      | literal hv => simp [literalValue] at hv
      | otherName hx | settledName hx | pendingName hx | actual hx | omitted hx | default hx =>
        simp [nameText] at hx
      | opensStops ho | opens ho => exact nomatch ho.isOpened
      | assignStops ha | assign ha => simp [localAssignment] at ha
    | unary operator operand span =>
      by_cases hop : operator = "+"
      · subst hop
        rw [lowerExpr, lowerUnary, if_neg (by decide), if_pos rfl] at hn
        have hin : ∀ {t : List Event} {o : Ending} {s' : Slot},
            Runs g .inner (.node operand) s t o s' →
            o = .done (.logical b) ∧ t = [] ∧ s' = s :=
          fun h => ih operand (by simp [Cst.children]) hn h
        cases h with
        | plusStops h => exact hin h
        | plus h _ => exact hin h
        | plusFails h hv =>
          obtain rfl := Ending.done.inj (hin h).1
          exact nomatch hv
        | plusDispatches h => exact nomatch (hin h).1
        | literal hv => simp [literalValue] at hv
        | otherName hx | settledName hx | pendingName hx | actual hx | omitted hx | default hx =>
          simp [nameText] at hx
        | opensStops ho | opens ho => exact absurd ho.isOpened (by simp [isOpened])
        | assignStops ha | assign ha => simp [localAssignment] at ha
      · rw [lowerExpr, lowerUnary] at hn
        simp only [if_neg hop] at hn
        split at hn
        · contradiction
        · split at hn <;> contradiction
    | number token span => cases token <;> simp [lowerExpr, lowerNumber, literalTruth] at hn
    | binary operator operatorSpan lhs rhs span =>
      rw [lowerExpr, literalTruth_binaryExpression] at hn
      contradiction
    | braced doubled body span =>
      rw [lowerExpr] at hn
      split at hn <;> contradiction
    | _ =>
      rw [lowerExpr] at hn
      contradiction

/-- The kinds of the operators in the three groups. -/
theorem binOpKind_eager {operator : String} (h : operator ∈ eagerOperators) :
    ∃ op, binOpKind operator = some op ∧ opaqueBinaryOperator op = false ∧
      isShortCircuit op = false ∧ isAssignment op = false := by
  simp only [eagerOperators, List.mem_cons, List.not_mem_nil, or_false] at h
  rcases h with rfl | rfl | rfl | rfl | rfl | rfl | rfl | rfl | rfl | rfl | rfl | rfl | rfl | rfl |
    rfl | rfl | rfl <;> exact ⟨_, rfl, rfl, rfl, rfl⟩

theorem binOpKind_lazy {operator : String} (h : operator ∈ lazyOperators) :
    ∃ op, binOpKind operator = some op ∧ opaqueBinaryOperator op = true := by
  simp only [lazyOperators, List.mem_cons, List.not_mem_nil, or_false] at h
  rcases h with rfl | rfl | rfl | rfl | rfl <;> exact ⟨_, rfl, rfl⟩

theorem not_assignOperator_of_eager {operator : String} (h : operator ∈ eagerOperators) :
    operator ∉ assignOperators := by
  simp only [eagerOperators, List.mem_cons, List.not_mem_nil, or_false] at h
  rcases h with rfl | rfl | rfl | rfl | rfl | rfl | rfl | rfl | rfl | rfl | rfl | rfl | rfl | rfl |
    rfl | rfl | rfl <;> decide

theorem not_assignOperator_of_lazy {operator : String} (h : operator ∈ lazyOperators) :
    operator ∉ assignOperators := by
  simp only [lazyOperators, List.mem_cons, List.not_mem_nil, or_false] at h
  rcases h with rfl | rfl | rfl | rfl | rfl <;> decide

theorem binaryExpression_of_kind {operator : String} {op : BinOpKind}
    (hop : operator ∉ assignOperators) (hkind : binOpKind operator = some op) (lhs rhs : Expr)
    (span operatorSpan : Span) :
    binaryExpression operator lhs rhs span operatorSpan = .binOp op lhs rhs span := by
  have hsuper : operator ≠ "->>" := fun h => hop (by simp [h, assignOperators])
  have hright : operator ≠ "->" := fun h => hop (by simp [h, assignOperators])
  simp [binaryExpression, hsuper, hright, hkind]

theorem binaryExpression_of_call {operator : String} (hkind : binOpKind operator = none)
    (hright : operator ≠ "->") (hsuper : operator ≠ "->>") (lhs rhs : Expr)
    (span operatorSpan : Span) :
    binaryExpression operator lhs rhs span operatorSpan =
      .call (.ident operator operatorSpan) [.mk none lhs span, .mk none rhs span] span := by
  simp [binaryExpression, hsuper, hright, hkind]

theorem forcedStmt_expr {e : Expr} : ForcedStmt g (.expr e) ↔ ForcedExpr g e := Iff.rfl

theorem forcedExpr_eager {op : BinOpKind} (hlazy : opaqueBinaryOperator op = false)
    (hshort : isShortCircuit op = false) (hassign : isAssignment op = false) {lhs rhs : Expr}
    {span : Span} (h : ForcedExpr g (.binOp op lhs rhs span)) :
    ForcedExpr g lhs ∨
      expressionPreservesBinding g.formal.raw lhs = true ∧ ForcedExpr g rhs := by
  unfold ForcedExpr at h ⊢
  simp only [definitelyForcedIdentifier, firstExecutedIdentifier, hlazy, hshort, hassign,
    Bool.false_eq_true, if_false, Option.isSome_or, Bool.or_eq_true] at h
  rcases h with (h | h) | (h | h)
  · exact .inl (.inl h)
  · split at h
    · rename_i hp
      exact .inr ⟨hp, .inl h⟩
    · contradiction
  · exact .inl (.inr h)
  · split at h
    · rename_i hp
      exact .inr ⟨hp, .inr h⟩
    · contradiction

theorem not_forcedExpr_lazy {op : BinOpKind} (hlazy : opaqueBinaryOperator op = true)
    (lhs rhs : Expr) (span : Span) : ¬ ForcedExpr g (.binOp op lhs rhs span) := by
  simp [ForcedExpr, definitelyForcedIdentifier, firstExecutedIdentifier, hlazy]

/-- A call forces the formal by its head or by the argument its contract speaks of. -/
theorem forcedExpr_call {func : Expr} {args : List Arg} {span : Span}
    (h : ForcedExpr g (.call func args span)) :
    ForcedExpr g func ∨ ∃ e, forcedArgument g.force func args = some e ∧ ForcedExpr g e := by
  have hcall : definitelyForcedIdentifier g.force g.formal.raw (.call func args span) =
      (firstExecutedIdentifier g.force g.formal.raw func).or
        ((forcedArgument g.force func args).bind
          (definitelyForcedIdentifier g.force g.formal.raw)) := by
    rw [forcedArgument_bind, definitelyForcedIdentifier]
  have hfirst : firstExecutedIdentifier g.force g.formal.raw (.call func args span) =
      definitelyForcedIdentifier g.force g.formal.raw (.call func args span) := by
    rw [firstExecutedIdentifier, definitelyForcedIdentifier]
  unfold ForcedExpr at h
  rw [hfirst, or_self, hcall, Option.isSome_or, Bool.or_eq_true] at h
  rcases h with h | h
  · exact .inl (.inr h)
  · right
    cases harg : forcedArgument g.force func args with
    | none => simp [harg] at h
    | some e => exact ⟨e, rfl, .inl (by simpa [harg] using h)⟩

theorem forcedExpr_ident {text : String} {span : Span} :
    ForcedExpr g (.ident text span) ↔ text = g.formal.raw := by
  unfold ForcedExpr
  rw [definitelyForcedIdentifier, firstExecutedIdentifier]
  split <;> simp_all

theorem forcedExpr_index {base : Expr} {kind : IndexKind} {args : List Arg} {span : Span}
    (h : ForcedExpr g (.index base kind args span)) : ForcedExpr g base := by
  unfold ForcedExpr at h
  rwa [definitelyForcedIdentifier, firstExecutedIdentifier] at h

theorem forcedExpr_unary {op : UnaryOpKind} {e : Expr} {span : Span}
    (h : ForcedExpr g (.unaryOp op e span)) : ForcedExpr g e := by
  unfold ForcedExpr at h
  rwa [definitelyForcedIdentifier, firstExecutedIdentifier] at h

theorem not_forcedExpr_unknown {span : Span} : ¬ ForcedExpr g (.unknown span) := by
  simp [ForcedExpr, definitelyForcedIdentifier, firstExecutedIdentifier]

theorem forcedExpr_assignment {op : BinOpKind} (hop : isAssignment op = true) {lhs rhs : Expr}
    {span : Span} (h : ForcedExpr g (.binOp op lhs rhs span)) : ForcedExpr g rhs := by
  unfold ForcedExpr at h
  cases op <;>
    simp_all [isAssignment, definitelyForcedIdentifier, firstExecutedIdentifier,
      opaqueBinaryOperator, isShortCircuit, ForcedExpr]

theorem forcedOperand_of_forcedArgument {function : Cst} {arguments : List CstArg} {e : Expr}
    (h : forcedArgument g.force (lowerExpr function) (lowerArguments arguments) = some e) :
    ∃ value, forcedOperand g.force function arguments = some value ∧ e = lowerExpr value := by
  have hresult := h
  unfold forcedArgument at h
  cases hname : Divergence.identName (lowerExpr function) with
  | none => simp [hname] at h
  | some text =>
  cases hforce : qualifiedForce g.force text with
  | none => simp [hname, hforce] at h
  | some spec =>
  simp only [hname, hforce] at h
  match arguments with
  | [] => simp [lowerArguments] at h
  | [.omitted span] =>
    simp [lowerArguments, lowerArg, missingAt, acceptsArgument] at h
  | [.argument name none span] => simp [lowerArguments, lowerArg, acceptsArgument] at h
  | [.argument name (some value) span] =>
    simp only [lowerArguments, lowerArg] at h
    split at h
    · obtain rfl := Option.some.inj h
      refine ⟨value, ?_, rfl⟩
      unfold forcedOperand
      rw [hresult]
    · contradiction
  | slot :: slot' :: slots =>
    simp only [lowerArguments] at h
    cases hslot : lowerArg slot
    rw [hslot] at h
    contradiction

/-- `:=` is a call except for the statements that assign. -/
theorem lowered_walrus {operatorSpan span : Span} {lhs rhs : Cst} {pos : Position}
    (h : pos.isStatement = true → ¬ lhs.isIdentifier = true) :
    lowered pos (.binary ":=" operatorSpan lhs rhs span) =
      .expr (.call (.ident ":=" operatorSpan)
        [.mk none (lowerExpr lhs) span, .mk none (lowerExpr rhs) span] span) := by
  have hcall : binaryExpression ":=" (lowerExpr lhs) (lowerExpr rhs) span operatorSpan = _ :=
    binaryExpression_of_call rfl (by decide) (by decide) _ _ _ _
  unfold lowered
  split
  · rename_i hpos
    have hlhs : lhs.isIdentifier = false := by simpa using h hpos
    rw [lowerStmt]
    simp [tryLowerAssign, assignOperators, hlhs, hcall]
  · rw [lowerExpr, hcall]

/-- An operator called by its name forces what reading that name does. -/
theorem forcedExpr_operatorCall {operator : String} {operatorSpan span : Span} {lhs rhs : Arg}
    (h : ForcedExpr g (.call (.ident operator operatorSpan) [lhs, rhs] span)) :
    ForcedExpr g (lowerExpr (.identifier operator operatorSpan)) := by
  rw [lowerExpr]
  rcases forcedExpr_call h with hfunc | ⟨e, he, -⟩
  · exact hfunc
  · unfold forcedArgument at he
    simp only [Divergence.identName] at he
    split at he <;> contradiction

/-- A form that is forced is forced by what it evaluates first. -/
theorem Opens.forced {pos : Position} {n : Cst} {first : List Cst} (h : Opens g pos n first)
    (hwalrus : ∀ value, ¬ g.may (.walrus value)) (hplus : ¬ g.may .plusOnNonNumber)
    (hn : ForcedStmt g (lowered pos n)) : ForcedOperands g first := by
  cases h with
  | @call function arguments span _ _ hnone =>
    rw [lowered_expr (by simp [lowerStmt]), lowerExpr] at hn
    rcases forcedExpr_call (forcedStmt_expr.mp hn) with hfunc | ⟨e, he, -⟩
    · exact .inl hfunc
    · obtain ⟨value, hvalue, -⟩ := forcedOperand_of_forcedArgument he
      rw [hnone] at hvalue
      contradiction
  | @contract function arguments span value hsome hhead =>
    rw [lowered_expr (by simp [lowerStmt]), lowerExpr] at hn
    rcases forcedExpr_call (forcedStmt_expr.mp hn) with hfunc | ⟨e, he, hforced⟩
    · -- the head is qualified, and no stub speaks of the formal's own spelling
      obtain ⟨text, htext⟩ := Option.ne_none_iff_exists'.mp hhead
      obtain ⟨span', hident⟩ := lowerExpr_of_headText htext
      rw [hident, forcedExpr_ident] at hfunc
      have hnone : forcedArgument g.force (lowerExpr function) (lowerArguments arguments) = none := by
        simp [forcedArgument, hident, Divergence.identName, hfunc, g.unqualified]
      simp [forcedOperand, hnone] at hsome
    · obtain ⟨value', hvalue, rfl⟩ := forcedOperand_of_forcedArgument he
      obtain rfl := Option.some.inj (hsome.symm.trans hvalue)
      exact .inl hforced
  | contractPlus _ _ hmay => exact absurd hmay hplus
  | @eager operator operatorSpan lhs rhs span hop =>
    obtain ⟨op, hkind, hlazy, hshort, hassign⟩ := binOpKind_eager hop
    have hnot := not_assignOperator_of_eager hop
    rw [lowered_binary hnot, binaryExpression_of_kind hnot hkind] at hn
    rcases forcedExpr_eager hlazy hshort hassign (forcedStmt_expr.mp hn) with hl | ⟨hp, hr⟩
    · exact .inl hl
    · exact .inr ⟨hp, .inl hr⟩
  | @lazily operator operatorSpan lhs rhs span hop | @eagerly operator operatorSpan lhs rhs span hop =>
    obtain ⟨op, hkind, hlazy⟩ := binOpKind_lazy hop
    have hnot := not_assignOperator_of_lazy hop
    rw [lowered_binary hnot, binaryExpression_of_kind hnot hkind] at hn
    exact (not_forcedExpr_lazy hlazy _ _ _ (forcedStmt_expr.mp hn)).elim
  | @walrus operatorSpan lhs rhs span hmay =>
    rw [lowered_walrus (fun hpos hlhs => hwalrus _ (hmay hpos hlhs))] at hn
    exact .inl (forcedExpr_operatorCall (forcedStmt_expr.mp hn))
  | @custom operator operatorSpan lhs rhs span hkind hop _ =>
    rw [lowered_binary hop, binaryExpression_of_call hkind (fun h => hop (by simp [h, assignOperators]))
      (fun h => hop (by simp [h, assignOperators]))] at hn
    exact .inl (forcedExpr_operatorCall (forcedStmt_expr.mp hn))
  | @negate operator operand span hop =>
    rw [lowered_expr (by simp [lowerStmt]), lowerExpr] at hn
    rcases hop with rfl | rfl
    · exact .inl (forcedExpr_unary (forcedStmt_expr.mp hn))
    · exact .inl (forcedExpr_unary (forcedStmt_expr.mp hn))
  | @otherUnary operator operand span hop =>
    rw [lowered_expr (by simp [lowerStmt]), lowerExpr] at hn
    simp only [List.mem_cons, List.not_mem_nil, or_false, not_or] at hop
    rw [lowerUnary, if_neg hop.1, if_neg hop.2.2, if_neg hop.2.1] at hn
    exact (not_forcedExpr_unknown (forcedStmt_expr.mp hn)).elim
  | extract =>
    rw [lowered_expr (by simp [lowerStmt]), lowerExpr, lowerExtract] at hn
    exact .inl (forcedExpr_index (forcedStmt_expr.mp hn))
  | subset | subsetEager =>
    rw [lowered_expr (by simp [lowerStmt]), lowerExpr] at hn
    exact .inl (forcedExpr_index (forcedStmt_expr.mp hn))
  | replacement hn' =>
    rcases lowered_localAssignment hn' pos with ⟨span, heq⟩ | ⟨-, span, heq⟩
    · rw [heq] at hn
      exact .inl hn
    · rw [heq] at hn
      exact .inl (forcedExpr_assignment rfl (forcedStmt_expr.mp hn))
  | outward hn' =>
    rcases lowered_outwardAssignment hn' pos with ⟨span, heq⟩ | ⟨span, heq⟩
    · rw [heq] at hn
      have hvalue : ForcedExpr g (.binOp .superAssign (lowerExpr _) (lowerExpr _) span) := hn
      exact .inl (forcedExpr_assignment rfl hvalue)
    · rw [heq] at hn
      exact .inl (forcedExpr_assignment rfl (forcedStmt_expr.mp hn))
  | other =>
    rw [lowered_expr (by simp [lowerStmt]), lowerExpr] at hn
    exact (not_forcedExpr_unknown (forcedStmt_expr.mp hn)).elim

theorem binOpKind_assign {operator : String} (h : binOpKind operator = some .assign) :
    operator ∈ assignOperators := by
  unfold binOpKind at h
  split at h <;> first | contradiction | simp [assignOperators]

theorem not_preserves_binary {operator : String} (hop : operator ∉ assignOperators)
    (lhs rhs : Expr) (span operatorSpan : Span) :
    expressionPreservesBinding g.formal.raw (binaryExpression operator lhs rhs span operatorSpan) =
      false := by
  have hsuper : operator ≠ "->>" := fun h => hop (by simp [h, assignOperators])
  have hright : operator ≠ "->" := fun h => hop (by simp [h, assignOperators])
  rw [binaryExpression, if_neg hsuper, if_neg hright]
  cases hkind : binOpKind operator with
  | none => rfl
  | some op =>
    cases op with
    | assign => exact absurd (binOpKind_assign hkind) hop
    | _ => rfl

/-- The analysis crosses no form that opens into code that is not followed. -/
theorem Opens.not_crossable {pos : Position} {n : Cst} {first : List Cst} (h : Opens g pos n first)
    (hwalrus : ∀ value, ¬ g.may (.walrus value)) (hdisguised : ¬ g.may .disguisedTarget) :
    ¬ Crossable g pos (.node n) := by
  intro hn
  simp only [Crossable] at hn
  cases h with
  | call | contract | contractPlus | extract | subset | subsetEager | other =>
    rw [lowered_expr (by simp [lowerStmt]), lowerExpr] at hn
    contradiction
  | eager hop =>
    rw [lowered_binary (not_assignOperator_of_eager hop)] at hn
    exact absurd hn (by simp [statementPreservesBinding, not_preserves_binary
      (not_assignOperator_of_eager hop)])
  | lazily hop | eagerly hop =>
    rw [lowered_binary (not_assignOperator_of_lazy hop)] at hn
    exact absurd hn (by simp [statementPreservesBinding, not_preserves_binary
      (not_assignOperator_of_lazy hop)])
  | custom _ hop _ =>
    rw [lowered_binary hop] at hn
    exact absurd hn (by simp [statementPreservesBinding, not_preserves_binary hop])
  | walrus hmay =>
    rw [lowered_walrus (fun hpos hlhs => hwalrus _ (hmay hpos hlhs))] at hn
    contradiction
  | @negate operator operand span hop =>
    rw [lowered_expr (by simp [lowerStmt]), lowerExpr] at hn
    rcases hop with rfl | rfl <;> contradiction
  | @otherUnary operator operand span hop =>
    rw [lowered_expr (by simp [lowerStmt]), lowerExpr] at hn
    simp only [List.mem_cons, List.not_mem_nil, or_false, not_or] at hop
    rw [lowerUnary, if_neg hop.1, if_neg hop.2.2, if_neg hop.2.1] at hn
    contradiction
  | @replacement n target value hn' _ hmay =>
    have hname : Divergence.identName (lowerExpr target) = none := by
      by_contra hsome
      exact hdisguised (hmay hsome)
    rcases lowered_localAssignment hn' pos with ⟨span, heq⟩ | ⟨-, span, heq⟩ <;>
      simp [heq, statementPreservesBinding, expressionPreservesBinding, hname] at hn
  | outward hn' =>
    rcases lowered_outwardAssignment hn' pos with ⟨span, heq⟩ | ⟨span, heq⟩ <;>
      simp [heq, statementPreservesBinding, expressionPreservesBinding] at hn

/-! ## The other forms -/

theorem not_crossable_name {pos : Position} {n : Cst} {text : String} (hx : nameText n = some text) :
    ¬ Crossable g pos (.node n) := by
  obtain ⟨span, heq⟩ := lowered_name hx pos
  simp [Crossable, heq, statementPreservesBinding, expressionPreservesBinding]

theorem forced_name {pos : Position} {n : Cst} {text : String} (hx : nameText n = some text)
    (h : Forced g pos (.node n)) : text = g.formal.raw := by
  obtain ⟨span, heq⟩ := lowered_name hx pos
  rw [Forced, heq] at h
  exact forcedExpr_ident.mp h

theorem not_forced_literal {pos : Position} {n : Cst} {v : Value} (hv : literalValue n = some v) :
    ¬ Forced g pos (.node n) := by
  intro h
  rw [Forced] at h
  cases n with
  | functionDefinition parameters body span =>
    unfold lowered at h
    cases hpos : pos.isStatement with
    | true =>
      rw [if_pos hpos, lowerStmt] at h
      simp [ForcedStmt, definitelyForcedIdentifierInStmt, firstExecutedIdentifierInStmt] at h
    | false =>
      rw [if_neg (by simp [hpos]), lowerExpr] at h
      simp [ForcedStmt, definitelyForcedIdentifierInStmt, firstExecutedIdentifierInStmt,
        definitelyForcedIdentifier, firstExecutedIdentifier] at h
  | number token span =>
    rw [lowered_expr (by simp [lowerStmt]), lowerExpr] at h
    cases token <;>
      simp [lowerNumber, ForcedStmt, definitelyForcedIdentifierInStmt,
        firstExecutedIdentifierInStmt, definitelyForcedIdentifier, firstExecutedIdentifier] at h
  | logical | string | null | na =>
    rw [lowered_expr (by simp [lowerStmt]), lowerExpr] at h
    simp [ForcedStmt, definitelyForcedIdentifierInStmt, firstExecutedIdentifierInStmt,
      definitelyForcedIdentifier, firstExecutedIdentifier] at h
  | _ => simp [literalValue] at hv

theorem literalValue_ne_object {n : Cst} {v : Value} (hv : literalValue n = some v) :
    v ≠ .object := by
  rintro rfl
  cases n <;> simp [literalValue] at hv

theorem forced_assignment {pos : Position} {n target value : Cst}
    (hn : localAssignment n = some (target, value)) (h : Forced g pos (.node n)) :
    Forced g .inner (.node value) := by
  rw [Forced] at h
  rcases lowered_localAssignment hn pos with ⟨span, heq⟩ | ⟨-, span, heq⟩
  · rw [heq] at h
    exact h
  · rw [heq] at h
    exact forcedExpr_assignment rfl (forcedStmt_expr.mp h)

theorem crossable_assignment {pos : Position} {n target value : Cst}
    (hn : localAssignment n = some (target, value)) (h : Crossable g pos (.node n)) :
    (Divergence.identName (lowerExpr target)).any (plainDistinctBindings · g.formal.raw) = true ∧
      Crossable g .inner (.node value) := by
  simp only [Crossable] at h
  rcases lowered_localAssignment hn pos with ⟨span, heq⟩ | ⟨-, span, heq⟩
  · rw [heq, statementPreservesBinding, Bool.and_eq_true] at h
    exact h
  · rw [heq, statementPreservesBinding, expressionPreservesBinding, Bool.and_eq_true] at h
    exact h

theorem not_crossable_call {pos : Position} {function : Cst} {arguments : List CstArg}
    {span : Span} : ¬ Crossable g pos (.node (.call function arguments span)) := by
  rw [Crossable, lowered_expr (by simp [lowerStmt]), lowerExpr]
  exact nofun

/-- A call of `return` forces nothing: neither its name nor a stub's contract. -/
theorem not_forced_return {pos : Position} {function : Cst} {arguments : List CstArg}
    {span : Span} {text : String} (hhead : headText function = some text)
    (hreturn : g.symbol text = "return") (hnone : forcedOperand g.force function arguments = none) :
    ¬ Forced g pos (.node (.call function arguments span)) := by
  intro h
  rw [Forced, lowered_expr (by simp [lowerStmt]), lowerExpr] at h
  rcases forcedExpr_call (forcedStmt_expr.mp h) with hfunc | ⟨e, he, -⟩
  · obtain ⟨span', hident⟩ := lowerExpr_of_headText hhead
    rw [hident, forcedExpr_ident] at hfunc
    exact g.notReturn (hfunc ▸ hreturn)
  · obtain ⟨value, hvalue, -⟩ := forcedOperand_of_forcedArgument he
    exact nomatch hnone.symm.trans hvalue

theorem not_forced_plusReturn {pos : Position} {function : Cst} {arguments : List CstArg}
    {span : Span} (hreturn : Divergence.identName (lowerExpr function) = some "return") :
    ¬ Forced g pos (.node (.call function arguments span)) := by
  intro h
  rw [Forced, lowered_expr (by simp [lowerStmt]), lowerExpr] at h
  rcases forcedExpr_call (forcedStmt_expr.mp h) with hfunc | ⟨e, he, -⟩
  · cases hident : lowerExpr function with
    | ident name span' =>
      rw [hident] at hreturn hfunc
      obtain rfl := Option.some.inj hreturn
      have hraw : g.formal.raw = "return" := (forcedExpr_ident.mp hfunc).symm
      exact g.notReturn (hraw ▸ g.symbol_bare "return" (by decide))
    | _ => simp [hident, Divergence.identName] at hreturn
  · have hnone : qualifiedForce g.force "return" = none := rfl
    simp [forcedArgument, hreturn, hnone] at he

theorem not_literal_of_stops {pos : Position} {n : Cst} {b : Bool} {s s' : Slot}
    {t : List Event} {o : Ending} (ho : o.isDone = false) (h : Runs g pos (.node n) s t o s') :
    literalTruth (lowerExpr n) ≠ some b := by
  intro hb
  obtain ⟨rfl, -⟩ := literal_run hb h
  contradiction

/-- A plain name that is distinct from the formal's denotes another name. -/
theorem symbol_ne_of_plainDistinct {token : String}
    (h : plainDistinctBindings token g.formal.raw = true) : g.symbol token ≠ g.name := by
  simp only [plainDistinctBindings, startsWithBackquote, Bool.and_eq_true, Bool.not_eq_true',
    decide_eq_false_iff_not, bne_iff_ne] at h
  obtain ⟨⟨htoken, hraw⟩, hne⟩ := h
  rw [Setting.name, g.symbol_bare token htoken, g.symbol_bare _ hraw]
  exact hne

/-- An assignment to a plain, distinct name binds another name. -/
theorem ne_of_boundName {target : Cst} {x : String} (hx : g.boundName target = some x)
    (hplain : (Divergence.identName (lowerExpr target)).any
      (plainDistinctBindings · g.formal.raw) = true) : x ≠ g.name := by
  cases target with
  | identifier text span =>
    rw [Setting.boundName] at hx
    split at hx
    · contradiction
    · obtain rfl := Option.some.inj hx
      rw [lowerExpr] at hplain
      exact symbol_ne_of_plainDistinct hplain
  | string value span =>
    rw [lowerExpr] at hplain
    simp [Divergence.identName] at hplain
  | _ => simp [Setting.boundName] at hx

theorem lowered_shortCircuit {operator : String} (hop : operator = "&&" ∨ operator = "||")
    (operatorSpan : Span) (lhs rhs : Cst) (span : Span) (pos : Position) :
    ∃ op, isShortCircuit op = true ∧ opaqueBinaryOperator op = false ∧
      (∀ b, guaranteesRhs op (some b) = true → needsRhs operator (.logical b)) ∧
      guaranteesRhs op none = false ∧
      lowered pos (.binary operator operatorSpan lhs rhs span) =
        .expr (.binOp op (lowerExpr lhs) (lowerExpr rhs) span) := by
  have hnot : operator ∉ assignOperators := by
    rcases hop with rfl | rfl <;> decide
  rcases hop with rfl | rfl
  · refine ⟨.andAnd, rfl, rfl, fun b hb => .inl ⟨rfl, ?_⟩, rfl, ?_⟩
    · cases b with
      | true => rfl
      | false => contradiction
    · rw [lowered_binary hnot, binaryExpression_of_kind hnot rfl]
  · refine ⟨.orOr, rfl, rfl, fun b hb => .inr ⟨rfl, ?_⟩, rfl, ?_⟩
    · cases b with
      | true => contradiction
      | false => rfl
    · rw [lowered_binary hnot, binaryExpression_of_kind hnot rfl]

theorem not_crossable_shortCircuit {operator : String} (hop : operator = "&&" ∨ operator = "||")
    {operatorSpan : Span} {lhs rhs : Cst} {span : Span} {pos : Position} :
    ¬ Crossable g pos (.node (.binary operator operatorSpan lhs rhs span)) := by
  obtain ⟨op, hshort, -, -, -, heq⟩ := lowered_shortCircuit hop operatorSpan lhs rhs span pos
  simp only [Crossable, heq, statementPreservesBinding]
  cases op <;> simp_all [isShortCircuit, expressionPreservesBinding]

/-- `&&` and `||` force what their left operand does, and their right one behind the literal
that needs it. -/
theorem forced_shortCircuit {operator : String} (hop : operator = "&&" ∨ operator = "||")
    {operatorSpan : Span} {lhs rhs : Cst} {span : Span} {pos : Position}
    (h : Forced g pos (.node (.binary operator operatorSpan lhs rhs span))) :
    Forced g .inner (.node lhs) ∨ ∃ b, literalTruth (lowerExpr lhs) = some b ∧
      needsRhs operator (.logical b) ∧ Forced g .inner (.node rhs) := by
  obtain ⟨op, hshort, hlazy, hneeds, hnone, heq⟩ :=
    lowered_shortCircuit hop operatorSpan lhs rhs span pos
  rw [Forced, heq] at h
  have hop' : (definitelyForcedIdentifier g.force g.formal.raw (lowerExpr lhs)).isSome = true ∨
      (if guaranteesRhs op (literalTruth (lowerExpr lhs)) then
        definitelyForcedIdentifier g.force g.formal.raw (lowerExpr rhs) else none).isSome = true := by
    simpa [ForcedStmt, definitelyForcedIdentifierInStmt, firstExecutedIdentifierInStmt,
      definitelyForcedIdentifier, firstExecutedIdentifier, hlazy, hshort] using h
  rcases hop' with hl | hr
  · exact .inl (.inl hl)
  · split at hr
    · rename_i hg
      cases hb : literalTruth (lowerExpr lhs) with
      | none =>
        rw [hb, hnone] at hg
        contradiction
      | some b => exact .inr ⟨b, rfl, hneeds b (hb ▸ hg), .inl hr⟩
    · contradiction

/-- The code of an arm. -/
def armCode (pos : Position) (n : Cst) : Code :=
  if pos.isStatement then .stmts (blockBody n) else .node n

theorem isStatement_ofArm {pos : Position} : pos.ofArm.isStatement = pos.isStatement := by
  cases pos <;> rfl

theorem lowered_if (pos : Position) (condition consequence : Cst) (alternative : Option Cst)
    (span : Span) :
    lowered pos (.ifStatement condition consequence alternative span) =
      if pos.isStatement then
        .ite (lowerExpr condition) (lowerStmts (blockBody consequence))
          (alternative.map fun n => lowerStmts (blockBody n)) span
      else .expr (.ite (lowerExpr condition) (lowerExpr consequence) (alternative.map lowerExpr)
        span) := by
  unfold lowered
  split
  · rw [lowerStmt, lowerBlock_eq]
    cases alternative with
    | none => rw [lowerAlternativeBlock, Option.map_none]
    | some n => rw [lowerAlternativeBlock, lowerBlock_eq, Option.map_some]
  · rw [lowerExpr]
    cases alternative with
    | none => rw [lowerAlternative, Option.map_none]
    | some n => rw [lowerAlternative, Option.map_some]

/-- An `if` forces what its condition does, or the arm that a literal condition takes. -/
theorem forced_if {pos : Position} {condition consequence : Cst} {alternative : Option Cst}
    {span : Span} (h : Forced g pos (.node (.ifStatement condition consequence alternative span))) :
    match literalTruth (lowerExpr condition) with
    | some true => Forced g pos.ofArm (armCode pos consequence)
    | some false => ∃ n, alternative = some n ∧ Forced g pos.ofArm (armCode pos n)
    | none => Forced g .inner (.node condition) := by
  rw [Forced, lowered_if] at h
  unfold armCode
  cases hpos : pos.isStatement with
  | true =>
    rw [if_pos hpos] at h
    cases htruth : literalTruth (lowerExpr condition) with
    | none =>
      simp only [ForcedStmt, definitelyForcedIdentifierInStmt, firstExecutedIdentifierInStmt,
        htruth] at h
      exact h
    | some b =>
      cases b with
      | true =>
        simp only [ForcedStmt, definitelyForcedIdentifierInStmt, firstExecutedIdentifierInStmt,
          htruth] at h
        refine ⟨isStatement_ofArm.trans hpos, ?_⟩
        rcases h with h | h
        · left
          split at h
          · assumption
          · contradiction
        · exact .inr h
      | false =>
        simp only [ForcedStmt, definitelyForcedIdentifierInStmt, firstExecutedIdentifierInStmt,
          htruth] at h
        cases alternative with
        | none => simp [guaranteedForceInElse, firstExecutedInElse] at h
        | some n =>
          refine ⟨n, rfl, isStatement_ofArm.trans hpos, ?_⟩
          simp only [Option.map_some, guaranteedForceInElse, firstExecutedInElse] at h
          rcases h with h | h
          · left
            split at h
            · assumption
            · contradiction
          · exact .inr h
  | false =>
    rw [if_neg (by simp [hpos])] at h
    have harm : ∀ n, ForcedExpr g (lowerExpr n) → Forced g pos.ofArm (.node n) := by
      intro n hn
      rw [Forced, lowered, if_neg (by simp [isStatement_ofArm, hpos])]
      exact hn
    cases htruth : literalTruth (lowerExpr condition) with
    | none =>
      simp only [ForcedStmt, definitelyForcedIdentifierInStmt, firstExecutedIdentifierInStmt,
        definitelyForcedIdentifier, firstExecutedIdentifier, htruth] at h
      exact h
    | some b =>
      cases b with
      | true =>
        simp only [ForcedStmt, definitelyForcedIdentifierInStmt, firstExecutedIdentifierInStmt,
          definitelyForcedIdentifier, firstExecutedIdentifier, htruth] at h
        exact harm _ h
      | false =>
        simp only [ForcedStmt, definitelyForcedIdentifierInStmt, firstExecutedIdentifierInStmt,
          definitelyForcedIdentifier, firstExecutedIdentifier, htruth] at h
        cases alternative with
        | none => simp [definitelyForcedOption, firstExecutedOption] at h
        | some n =>
          simp only [Option.map_some, definitelyForcedOption, firstExecutedOption] at h
          exact ⟨n, rfl, harm n h⟩

/-- An `if` is crossed when its condition is literal and the arm it takes is. -/
theorem crossable_if {pos : Position} {condition consequence : Cst} {alternative : Option Cst}
    {span : Span} (h : Crossable g pos (.node (.ifStatement condition consequence alternative span))) :
    literalTruth (lowerExpr condition) = some true ∧
        Crossable g pos.ofArm (armCode pos consequence) ∨
      literalTruth (lowerExpr condition) = some false ∧
        ∀ n, alternative = some n → Crossable g pos.ofArm (armCode pos n) := by
  rw [Crossable, lowered_if] at h
  unfold armCode
  cases hpos : pos.isStatement with
  | true =>
    rw [if_pos hpos, statementPreservesBinding] at h
    cases htruth : literalTruth (lowerExpr condition) with
    | none => simp [htruth] at h
    | some b =>
      cases b with
      | true =>
        simp only [htruth] at h
        exact .inl ⟨rfl, isStatement_ofArm.trans hpos, h⟩
      | false =>
        simp only [htruth] at h
        refine .inr ⟨rfl, ?_⟩
        rintro n rfl
        exact ⟨isStatement_ofArm.trans hpos, h⟩
  | false =>
    rw [if_neg (by simp [hpos]), statementPreservesBinding, expressionPreservesBinding] at h
    have harm : ∀ n, expressionPreservesBinding g.formal.raw (lowerExpr n) = true →
        Crossable g pos.ofArm (.node n) := by
      intro n hn
      rw [Crossable, lowered, if_neg (by simp [isStatement_ofArm, hpos])]
      exact hn
    cases htruth : literalTruth (lowerExpr condition) with
    | none => simp [htruth] at h
    | some b =>
      cases b with
      | true =>
        simp only [htruth] at h
        exact .inl ⟨rfl, harm _ h⟩
      | false =>
        simp only [htruth] at h
        refine .inr ⟨rfl, ?_⟩
        rintro n rfl
        exact harm n h

/-! ## Sequences and loops -/

theorem lowered_of_isStatement {pos : Position} (hpos : pos.isStatement = true) (n : Cst) :
    lowered pos n = lowerStmt n := if_pos hpos

theorem crossable_cons {pos : Position} {n : Cst} {ns : List Cst}
    (h : Crossable g pos (.stmts (n :: ns))) :
    Crossable g pos (.node n) ∧ Crossable g pos (.stmts ns) := by
  obtain ⟨hpos, h⟩ := h
  rw [lowerStmts, statementsPreserveBinding, Bool.and_eq_true] at h
  exact ⟨by rw [Crossable, lowered_of_isStatement hpos]; exact h.1, hpos, h.2⟩

theorem forced_cons {pos : Position} {n : Cst} {ns : List Cst}
    (h : Forced g pos (.stmts (n :: ns))) :
    Forced g pos (.node n) ∨ Crossable g pos (.node n) ∧ Forced g pos (.stmts ns) := by
  obtain ⟨hpos, h⟩ := h
  simp only [Forced, Crossable, lowered_of_isStatement hpos]
  rw [ForcedStmts, lowerStmts, guaranteedForceBeforeReplacement, firstExecutedIdentifierInStmts,
    Bool.or_eq_true, Bool.and_eq_true, Option.isSome_or, Bool.or_eq_true] at h
  rcases h with (h | ⟨hp, h⟩) | (h | h)
  · exact .inl (.inl h)
  · exact .inr ⟨hp, hpos, .inl h⟩
  · exact .inl (.inr h)
  · split at h
    · rename_i hp
      exact .inr ⟨hp, hpos, .inr h⟩
    · contradiction

theorem not_forced_nil {pos : Position} : ¬ Forced g pos (.stmts []) := by
  simp [Forced, ForcedStmts, lowerStmts, guaranteedForceBeforeReplacement,
    firstExecutedIdentifierInStmts]

theorem crossable_braced {pos : Position} {doubled : Bool} {body : List Cst} {span : Span}
    (h : Crossable g pos (.node (.braced doubled body span))) :
    Crossable g .nested (.stmts body) := by
  refine ⟨rfl, ?_⟩
  rw [Crossable, lowered] at h
  split at h
  · rw [lowerStmt, statementPreservesBinding, expressionPreservesBinding] at h
    exact h
  · rw [lowerExpr] at h
    split at h
    · simpa [statementPreservesBinding, expressionPreservesBinding, statementsPreserveBinding]
        using h
    · rw [statementPreservesBinding, expressionPreservesBinding] at h
      exact h

theorem forcedExpr_block {body : List Stmt} {span : Span} (h : ForcedExpr g (.block body span)) :
    ForcedStmts g body := by
  rw [ForcedExpr, definitelyForcedIdentifier, firstExecutedIdentifier] at h
  rcases h with h | h
  · left
    split at h
    · assumption
    · contradiction
  · exact .inr h

theorem forcedStmts_singleton {s : Stmt} (h : ForcedStmts g [s]) : ForcedStmt g s := by
  simp only [ForcedStmts, guaranteedForceBeforeReplacement, firstExecutedIdentifierInStmts,
    ite_self, Option.or_none, Bool.and_false, Bool.or_false] at h
  exact h

theorem forced_braced {pos : Position} {doubled : Bool} {body : List Cst} {span : Span}
    (h : Forced g pos (.node (.braced doubled body span))) : Forced g .nested (.stmts body) := by
  refine ⟨rfl, ?_⟩
  rw [Forced, lowered] at h
  split at h
  · rw [lowerStmt] at h
    have hblock : ForcedExpr g (.block (lowerStmts body) span) := h
    exact forcedExpr_block hblock
  · rw [lowerExpr] at h
    split at h
    · have hblock : ForcedExpr g (.block [.expr (.block (lowerStmts body) span)] span) := h
      have hinside : ForcedExpr g (.block (lowerStmts body) span) :=
        forcedStmts_singleton (forcedExpr_block hblock)
      exact forcedExpr_block hinside
    · have hblock : ForcedExpr g (.block (lowerStmts body) span) := h
      exact forcedExpr_block hblock

theorem lowered_parenthesized (pos : Position) (inside : Cst) (span : Span) :
    lowered pos (.parenthesized inside span) = lowered .inner inside := by
  rw [lowered_expr (by simp [lowerStmt]), lowerExpr]
  rfl

theorem lowered_plus (pos : Position) (operand : Cst) (span : Span) :
    lowered pos (.unary "+" operand span) = lowered .inner operand := by
  rw [lowered_expr (by simp [lowerStmt]), lowerExpr, lowerUnary, if_neg (by decide), if_pos rfl]
  rfl

/-- The loops are no prefix to cross. -/
theorem not_crossable_loop {pos : Position} {n : Cst}
    (hn : (∃ token tokenSpan sequence body span,
        n = .forStatement token tokenSpan sequence body span) ∨
      (∃ condition body span, n = .whileStatement condition body span) ∨
      ∃ body span, n = .repeatStatement body span) : ¬ Crossable g pos (.node n) := by
  rw [Crossable, lowered]
  rcases hn with ⟨_, _, _, _, _, rfl⟩ | ⟨_, _, _, rfl⟩ | ⟨_, _, rfl⟩ <;>
    split <;>
    simp [lowerStmt, lowerExpr, statementPreservesBinding, expressionPreservesBinding]

theorem forced_for {pos : Position} {token : String} {tokenSpan : Span} {sequence body : Cst}
    {span : Span} (h : Forced g pos (.node (.forStatement token tokenSpan sequence body span))) :
    Forced g .inner (.node sequence) := by
  rw [Forced, lowered] at h
  split at h
  · rw [lowerStmt] at h
    exact h
  · rw [lowerExpr] at h
    exact (not_forcedExpr_unknown (forcedStmt_expr.mp h)).elim

theorem forced_while {pos : Position} {condition body : Cst} {span : Span}
    (h : Forced g pos (.node (.whileStatement condition body span))) :
    Forced g pos (.whiles condition body) := by
  rw [Forced, lowered] at h
  split at h
  · rw [lowerStmt] at h
    exact h
  · rw [lowerExpr] at h
    exact (not_forcedExpr_unknown (forcedStmt_expr.mp h)).elim

theorem not_forced_repeat {pos : Position} {body : Cst} {span : Span} :
    ¬ Forced g pos (.node (.repeatStatement body span)) := by
  intro h
  rw [Forced, lowered] at h
  split at h
  · rw [lowerStmt] at h
    simp [ForcedStmt, definitelyForcedIdentifierInStmt, firstExecutedIdentifierInStmt,
      definitelyForcedIdentifier, firstExecutedIdentifier] at h
  · rw [lowerExpr] at h
    exact not_forcedExpr_unknown (forcedStmt_expr.mp h)

theorem not_crossable_jump {pos : Position} {kind : Jump} {span : Span} :
    ¬ Crossable g pos (.node (.jump kind span)) := by
  rw [Crossable, lowered]
  cases kind <;> split <;>
    simp [lowerStmt, lowerExpr, statementPreservesBinding, expressionPreservesBinding]

theorem not_forced_jump {pos : Position} {kind : Jump} {span : Span} :
    ¬ Forced g pos (.node (.jump kind span)) := by
  intro h
  rw [Forced, lowered] at h
  split at h
  · cases kind with
    | break_ =>
      rw [lowerStmt] at h
      exact g.formal.notBreak (forcedExpr_ident.mp (forcedStmt_expr.mp h)).symm
    | next_ =>
      rw [lowerStmt] at h
      exact g.formal.notNext (forcedExpr_ident.mp (forcedStmt_expr.mp h)).symm
  · rw [lowerExpr] at h
    exact not_forcedExpr_unknown (forcedStmt_expr.mp h)

/-! ## The run -/

theorem Follows.of_not_crossable {pos : Position} {code : Code} {s s' : Slot} {t : List Event}
    {o : Ending} (hc : ¬ Crossable g pos code) (hr : Forced g pos code → Reached g s t o) :
    Follows g pos code s t o s' :=
  ⟨fun h => (hc h).elim, hr⟩

/-- A run that ends inside `first` is the run of `first`; it is not crossed. -/
theorem Follows.stops {pos pos' : Position} {code first : Code} {s s' s'' : Slot}
    {t : List Event} {o : Ending} (ih : Follows g pos' first s t o s'') (ho : o.isDone = false)
    (hc : Crossable g pos code → Crossable g pos' first)
    (hf : Forced g pos code → Forced g pos' first) : Follows g pos code s t o s' :=
  ⟨fun h => ((ih.passes (hc h)).not_stopped ho).elim, fun h => ih.reached (hf h)⟩

theorem reached_settled {t : List Event} {o : Ending} : Reached g .settled t o := by
  constructor <;> simp

theorem reached_pending {t : List Event} : Reached g .pending t .failed := by
  constructor <;> simp

theorem reached_original {s : Slot} {t : List Event} {o : Ending} (hs : s = .promise)
    (hstuck : Stuck g → o = .failed) : Reached g s (.original :: t) o :=
  ⟨fun _ => ⟨[], t, rfl, by simp⟩, fun h => by simp [hs] at h, fun _ => hstuck⟩

theorem follows (hwalrus : ∀ value, ¬ g.may (.walrus value)) (hdisguised : ¬ g.may .disguisedTarget)
    (hplus : ¬ g.may .plusOnNonNumber) {pos : Position} {code : Code} {s s' : Slot}
    {t : List Event} {o : Ending} (h : Runs g pos code s t o s') :
    Follows g pos code s t o s' := by
  induction h with
  | literal hv =>
    exact ⟨fun _ => passes_done (literalValue_ne_object hv),
      fun hf => (not_forced_literal hv hf).elim⟩
  -- names
  | otherName hx hne _ =>
    refine .of_not_crossable (not_crossable_name hx) fun hf => ?_
    obtain rfl := forced_name hx hf
    exact (hne rfl).elim
  | settledName hx _ _ => exact .of_not_crossable (not_crossable_name hx) fun _ => reached_settled
  | pendingName hx _ =>
    exact .of_not_crossable (not_crossable_name hx) fun _ => reached_pending
  | @actual pos n text t o s' hx hsym ho hr =>
    refine .of_not_crossable (not_crossable_name hx) fun _ => reached_original rfl fun hstuck => ?_
    exact hstuck pos n text _ o s' hx hsym (.actual hx hsym ho hr)
  | omitted hx _ _ =>
    exact .of_not_crossable (not_crossable_name hx) fun _ => reached_original rfl fun _ => rfl
  | default hx hsym ho hr _ =>
    exact .of_not_crossable (not_crossable_name hx) fun _ =>
      reached_original rfl fun hstuck => hstuck .inner _ _ _ _ _ hx hsym (.default hx hsym ho hr)
  -- sequences
  | nil => exact ⟨fun _ => passes_done (by decide), fun hf => (not_forced_nil hf).elim⟩
  | last _ ih =>
    refine ⟨fun hc => ih.passes (crossable_cons hc).1, fun hf => ?_⟩
    rcases forced_cons hf with hn | ⟨-, hnil⟩
    · exact ih.reached hn
    · exact (not_forced_nil hnil).elim
  | cons _ _ ih ih' =>
    refine ⟨fun hc => ?_, fun hf => ?_⟩
    · exact (ih.passes (crossable_cons hc).1).append (ih'.passes (crossable_cons hc).2)
    · rcases forced_cons hf with hn | ⟨hn, hns⟩
      · exact (ih.reached hn).append _ _
      · exact (ih.passes hn).then_reached (ih'.reached hns)
  | stop _ ho ih =>
    refine ⟨fun hc => ((ih.passes (crossable_cons hc).1).not_stopped ho).elim, fun hf => ?_⟩
    rcases forced_cons hf with hn | ⟨hn, -⟩
    · exact ih.reached hn
    · exact ((ih.passes hn).not_stopped ho).elim
  | braced _ ih => exact ⟨fun hc => ih.passes (crossable_braced hc), fun hf => ih.reached (forced_braced hf)⟩
  | parenthesized _ ih =>
    refine ⟨fun hc => ih.passes ?_, fun hf => ih.reached ?_⟩
    · rwa [Crossable, lowered_parenthesized] at hc
    · rwa [Forced, lowered_parenthesized] at hf
  -- operands
  | noOperands => exact .of_not_crossable id fun hf => hf.elim
  | operand _ _ ih ih' =>
    refine .of_not_crossable id fun hf => ?_
    rcases hf with hn | ⟨hn, hns⟩
    · exact (ih.reached hn).append _ _
    · exact (ih.passes hn).then_reached (ih'.reached hns)
  | operandStops _ ho ih =>
    refine .of_not_crossable id fun hf => ?_
    rcases hf with hn | ⟨hn, -⟩
    · exact ih.reached hn
    · exact ((ih.passes hn).not_stopped ho).elim
  -- code that is not followed
  | opensStops hopens _ _ ih =>
    exact .of_not_crossable (hopens.not_crossable hwalrus hdisguised) fun hf =>
      ih.reached (hopens.forced hwalrus hplus hf)
  | opens hopens _ _ ih =>
    exact .of_not_crossable (hopens.not_crossable hwalrus hdisguised) fun hf =>
      (ih.reached (hopens.forced hwalrus hplus hf)).append _ _
  | @returns pos function arguments span text s t o s' hhead hreturn hnone hspelled h ih =>
    refine .of_not_crossable (not_crossable_call) fun hf => ?_
    exact (not_forced_return hhead hreturn hnone hf).elim
  | plusReturn _ hreturn =>
    refine .of_not_crossable not_crossable_call fun hf => ?_
    exact (not_forced_plusReturn hreturn hf).elim
  -- the unary plus
  | plusStops _ ho ih =>
    refine ih.stops ho ?_ ?_
    · rw [Crossable, lowered_plus]
      exact id
    · rw [Forced, lowered_plus]
      exact id
  | plus _ _ ih =>
    refine ⟨fun hc => ih.passes ?_, fun hf => ih.reached ?_⟩
    · rwa [Crossable, lowered_plus] at hc
    · rwa [Forced, lowered_plus] at hf
  | plusFails _ _ _ hmay _ => exact (hplus hmay).elim
  | plusDispatches _ _ ih =>
    refine ⟨fun hc => ?_, fun hf => ?_⟩
    · rw [Crossable, lowered_plus] at hc
      obtain ⟨⟨v, hv, hne⟩, -⟩ := ih.passes hc
      exact (hne (Ending.done.inj hv).symm).elim
    · rw [Forced, lowered_plus] at hf
      exact (ih.reached hf).append _ _
  -- assignments
  | assignStops hn _ ho ih =>
    exact ih.stops ho (fun hc => (crossable_assignment hn hc).2) (forced_assignment hn)
  | assign hn htoken _ _ ih =>
    refine ⟨fun hc => ?_, fun hf => (ih.reached (forced_assignment hn hf)).append _ _⟩
    obtain ⟨hplain, hvalue⟩ := crossable_assignment hn hc
    have hne := ne_of_boundName htoken hplain
    obtain ⟨hdone, rfl, ht⟩ := ih.passes hvalue
    refine ⟨hdone, if_neg hne, List.forall_mem_append.mpr ⟨ht, ?_⟩⟩
    intro e he
    exact ⟨_, List.mem_singleton.mp he, hne⟩
  -- short circuits
  | lhsStops hop h ho ih =>
    refine .of_not_crossable (not_crossable_shortCircuit hop) fun hf => ?_
    rcases forced_shortCircuit hop hf with hl | ⟨b, hb, -, -⟩
    · exact ih.reached hl
    · obtain ⟨rfl, -⟩ := literal_run hb h
      contradiction
  | shortCircuit hop h hneeds _ ih =>
    refine .of_not_crossable (not_crossable_shortCircuit hop) fun hf => ?_
    rcases forced_shortCircuit hop hf with hl | ⟨b, hb, hneeds', -⟩
    · exact (ih.reached hl).ending _
    · obtain rfl := Ending.done.inj (literal_run hb h).1
      exact (hneeds hneeds').elim
  | rhsStops hop h _ _ ih ih' =>
    refine .of_not_crossable (not_crossable_shortCircuit hop) fun hf => ?_
    rcases forced_shortCircuit hop hf with hl | ⟨b, hb, -, hr⟩
    · exact (ih.reached hl).append _ _
    · obtain ⟨-, rfl, rfl⟩ := literal_run hb h
      exact ih'.reached hr
  | rhs hop h _ _ ih ih' =>
    refine .of_not_crossable (not_crossable_shortCircuit hop) fun hf => ?_
    rcases forced_shortCircuit hop hf with hl | ⟨b, hb, -, hr⟩
    · exact (ih.reached hl).append _ _
    · obtain ⟨-, rfl, rfl⟩ := literal_run hb h
      exact (ih'.reached hr).ending _
  -- conditions
  | conditionStops h ho ih =>
    have hliteral := fun b hb => not_literal_of_stops (b := b) ho h hb
    refine ⟨fun hc => ?_, fun hf => ?_⟩
    · rcases crossable_if hc with ⟨hb, -⟩ | ⟨hb, -⟩
      · exact (hliteral _ hb).elim
      · exact (hliteral _ hb).elim
    · have hif := forced_if hf
      split at hif
      · exact (hliteral _ ‹_›).elim
      · exact (hliteral _ ‹_›).elim
      · exact ih.reached hif
  | conditionFails h htrue hfalse ih =>
    have hliteral := fun b hb => Ending.done.inj (literal_run (b := b) hb h).1
    refine ⟨fun hc => ?_, fun hf => ?_⟩
    · rcases crossable_if hc with ⟨hb, -⟩ | ⟨hb, -⟩
      · exact (htrue (hliteral _ hb)).elim
      · exact (hfalse (hliteral _ hb)).elim
    · have hif := forced_if hf
      split at hif
      · exact (htrue (hliteral _ ‹_›)).elim
      · exact (hfalse (hliteral _ ‹_›)).elim
      · exact (ih.reached hif).ending _
  | consequence h hv _ ih ih' =>
    refine ⟨fun hc => ?_, fun hf => ?_⟩
    · rcases crossable_if hc with ⟨hb, harm⟩ | ⟨hb, -⟩
      · obtain ⟨-, rfl, rfl⟩ := literal_run hb h
        exact ih'.passes harm
      · exact (hv (Ending.done.inj (literal_run hb h).1)).elim
    · have hif := forced_if hf
      split at hif
      · obtain ⟨-, rfl, rfl⟩ := literal_run ‹_› h
        exact ih'.reached hif
      · exact (hv (Ending.done.inj (literal_run ‹_› h).1)).elim
      · exact (ih.reached hif).append _ _
  | alternative h hv _ ih ih' =>
    refine ⟨fun hc => ?_, fun hf => ?_⟩
    · rcases crossable_if hc with ⟨hb, -⟩ | ⟨hb, harm⟩
      · exact (hv (Ending.done.inj (literal_run hb h).1)).elim
      · obtain ⟨-, rfl, rfl⟩ := literal_run hb h
        exact ih'.passes (harm _ rfl)
    · have hif := forced_if hf
      split at hif
      · exact (hv (Ending.done.inj (literal_run ‹_› h).1)).elim
      · obtain ⟨-, rfl, rfl⟩ := literal_run ‹_› h
        obtain ⟨n, hn, harm⟩ := hif
        obtain rfl := Option.some.inj hn
        exact ih'.reached harm
      · exact (ih.reached hif).append _ _
  | noAlternative h hv ih =>
    refine ⟨fun hc => ?_, fun hf => ?_⟩
    · rcases crossable_if hc with ⟨hb, -⟩ | ⟨hb, -⟩
      · exact (hv (Ending.done.inj (literal_run hb h).1)).elim
      · obtain ⟨-, rfl, rfl⟩ := literal_run hb h
        exact passes_done (by decide)
    · have hif := forced_if hf
      split at hif
      · exact (hv (Ending.done.inj (literal_run ‹_› h).1)).elim
      · obtain ⟨n, hn, -⟩ := hif
        cases hn
      · exact (ih.reached hif).ending _
  -- loops
  | sequenceStops _ _ ih => exact .of_not_crossable (not_crossable_loop (.inl ⟨_, _, _, _, _, rfl⟩)) fun hf => ih.reached (forced_for hf)
  | forLoop _ _ ih _ =>
    exact .of_not_crossable (not_crossable_loop (.inl ⟨_, _, _, _, _, rfl⟩)) fun hf =>
      (ih.reached (forced_for hf)).append _ _
  | turnsEnd | turn | turnStops => exact .of_not_crossable id fun hf => hf.elim
  | whileLoop _ ih =>
    exact .of_not_crossable (not_crossable_loop (.inr (.inl ⟨_, _, _, rfl⟩))) fun hf =>
      ih.reached (forced_while hf)
  | repeatLoop _ _ =>
    exact .of_not_crossable (not_crossable_loop (.inr (.inr ⟨_, _, rfl⟩))) fun hf =>
      (not_forced_repeat hf).elim
  | testStops _ _ ih => exact .of_not_crossable id fun hf => ih.reached hf
  | testEnds _ _ _ ih =>
    exact .of_not_crossable id fun hf => (ih.reached hf).ending _
  | testBody _ _ _ _ _ ih _ _ =>
    refine .of_not_crossable id fun hf => ?_
    rw [List.append_assoc]
    exact (ih.reached hf).append _ _
  | testBodyEnds _ _ _ _ ih _ =>
    exact .of_not_crossable id fun hf => (ih.reached hf).append _ _
  | jump => exact .of_not_crossable not_crossable_jump fun hf => (not_forced_jump hf).elim

end Ry.Promise
