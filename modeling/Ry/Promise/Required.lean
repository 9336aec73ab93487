import Ry.Promise.MustForce
import Ry.Promise.Recursing

/-! # What a required formal says of a call that omits it

The runs of a body whose formal is missing, as long as none of their steps is one that the
force analysis misses (`Seen`).  Below the body's own statements nothing binds the formal or
returns (`quiet`), and code that must force the formal does not complete (`must`): a call that
omits a required formal does not return (`required_run`).
-/

namespace Ry.Promise

variable (alphanumeric : Char → Bool) (g : Setting)

/-- Whether the value of a statement must force the formal. -/
def valueMustForce (e : Expr) : Bool :=
  if isReturnCall e then returnedMustForce alphanumeric g.formal.raw e
  else !isDispatchCall e && expressionMustForce alphanumeric g.formal.raw e

/-- The steps that the analysis misses are taken only where they do no harm. -/
structure Seen : Prop where
  hiddenReturn : ¬ g.may .hiddenReturn
  hiddenBind : ¬ g.may .hiddenBind
  walrus : ∀ {value}, g.may (.walrus value) → valueMustForce alphanumeric g (lowerExpr value) = false
  lazyOperand : ∀ {lhs rhs}, g.may (.lazyOperand lhs rhs) →
    expressionMustForce alphanumeric g.formal.raw (lowerExpr lhs) = false ∧
      expressionMustForce alphanumeric g.formal.raw (lowerExpr rhs) = false
  lazySubscript : ∀ {double arguments}, g.may (.lazySubscript double arguments) →
    subscriptsMustForce alphanumeric g.formal.raw (if double then .double else .single)
      (lowerArguments arguments) = false
  innerTarget : ∀ {target}, g.may (.innerTarget target) →
    expressionMustForce alphanumeric g.formal.raw (lowerExpr target) = true →
    ∃ span, targetRoot target = some (.identifier g.formal.raw span)
  outwardTarget : ∀ {target}, g.may (.outwardTarget target) →
    expressionMustForce alphanumeric g.formal.raw (lowerExpr target) = false

/-- Names are spelled without escapes, the formal's own among them. -/
structure PlainNames : Prop where
  symbol : ∀ token, isStringToken token = false → hasEscape token = false →
    g.symbol token = semanticArgumentName token
  formal : hasEscape g.formal.raw = false

variable {alphanumeric g}

theorem PlainNames.name (h : PlainNames g) : g.name = semanticArgumentName g.formal.raw :=
  h.symbol _ g.formal.notString h.formal

/-! ## Bindings and returns -/

/-- The node itself binds the formal. -/
def OwnBinding (g : Setting) (n : Cst) : Prop :=
  (∃ target value, localAssignment n = some (target, value) ∧ g.boundName target = some g.name) ∨
    installsInFrame (.expr (lowerExpr n)) = some (semanticArgumentName g.formal.raw) ∨
    ∃ token tokenSpan sequence body span, n = .forStatement token tokenSpan sequence body span ∧
      isStringToken token = false ∧ hasEscape token = false ∧ g.symbol token = g.name

/-- The code leaves the formal's slot alone. -/
def KeepsSlot (g : Setting) (pos : Position) : Code → Prop
  | .node n => pos = .outer → ¬ OwnBinding g n
  | .turns token _ => pos = .outer → isStringToken token = false → hasEscape token = false →
      g.symbol token ≠ g.name
  | .whiles .. => True
  | .stmts _ | .operands _ => pos ≠ .outer

/-- The code is not left by `return`. -/
def NoReturn (alphanumeric : Char → Bool) (g : Setting) (pos : Position) : Code → Prop
  | .node n => pos = .nested ∨ pos = .inner ∨
      (statementForceFlow alphanumeric g.formal.raw (lowerStmt n)).falls = true
  | .stmts ns => pos = .nested ∨ pos = .inner ∨
      (blockForceFlow alphanumeric g.formal.raw (lowerStmts ns)).falls = true
  | .operands _ | .turns .. | .whiles .. => True

structure Quiet (alphanumeric : Char → Bool) (g : Setting) (pos : Position) (code : Code)
    (s : Slot) (o : Ending) (s' : Slot) : Prop where
  keeps : KeepsSlot g pos code → s = .promise → s' = .promise
  stays : NoReturn alphanumeric g pos code → o ≠ .returned

/-- A call of a function by name is the same statement and expression. -/
theorem lowerStmt_of_call {n : Cst} {name : String} {nameSpan span : Span} {args : List Arg}
    (h : lowerExpr n = .call (.ident name nameSpan) args span) (hname : name ≠ ":=") :
    lowerStmt n = .expr (lowerExpr n) := by
  cases n with
  | binary operator operatorSpan lhs rhs span' =>
    by_cases hop : operator ∈ assignOperators
    · rw [lowerExpr] at h
      simp only [assignOperators, List.mem_cons, List.not_mem_nil, or_false] at hop
      rcases hop with rfl | rfl | rfl | rfl | rfl | rfl
      · simp [binaryExpression, binOpKind] at h
      · simp [binaryExpression, binOpKind] at h
      · simp [binaryExpression, binOpKind] at h
      · simp [binaryExpression] at h
      · simp [binaryExpression] at h
      · rw [binaryExpression_of_call rfl (by decide) (by decide)] at h
        simp only [Expr.call.injEq, Expr.ident.injEq] at h
        exact (hname h.1.1.symm).elim
    · rw [lowerStmt, lowerExpr]
      simp [tryLowerAssign, hop]
  | braced doubled body span' =>
    rw [lowerExpr] at h
    split at h <;> contradiction
  | functionDefinition | ifStatement | forStatement | whileStatement | repeatStatement | jump =>
    rw [lowerExpr] at h
    contradiction
  | _ => simp [lowerStmt]

theorem falls_expr {e : Expr} :
    (statementForceFlow alphanumeric g.formal.raw (.expr e)).falls =
      (!isReturnCall e && !isDispatchCall e) := by
  rw [statementForceFlow]
  split
  · simp [*]
  · split <;> simp [*]

/-- A call that dispatches ends the walk. -/
theorem not_falls_of_dispatch {n : Cst} (h : isDispatchCall (lowerExpr n) = true) :
    (statementForceFlow alphanumeric g.formal.raw (lowerStmt n)).falls = false := by
  cases hn : lowerExpr n with
  | call func args span =>
    cases func with
    | ident name nameSpan =>
      rw [hn, isDispatchCall] at h
      have hname : name ≠ ":=" := by
        rintro rfl
        exact absurd h (by decide)
      rw [lowerStmt_of_call hn hname, falls_expr, hn, isDispatchCall, h, Bool.not_true,
        Bool.and_false]
    | _ => simp [hn, isDispatchCall] at h
  | _ => simp [hn, isDispatchCall] at h

theorem falls_cons (s : Stmt) (ss : List Stmt) :
    (blockForceFlow alphanumeric g.formal.raw (s :: ss)).falls =
      ((statementForceFlow alphanumeric g.formal.raw s).falls &&
        (blockForceFlow alphanumeric g.formal.raw ss).falls) := by
  rw [blockForceFlow]
  split
  · rfl
  · split <;> rfl

theorem ofArm_ne_outer (pos : Position) : pos.ofArm ≠ .outer := by
  cases pos <;> nofun

theorem noReturn_cons {pos : Position} {n : Cst} {ns : List Cst}
    (h : NoReturn alphanumeric g pos (.stmts (n :: ns))) :
    NoReturn alphanumeric g pos (.node n) ∧ NoReturn alphanumeric g pos (.stmts ns) := by
  rcases h with h | h | h
  · exact ⟨.inl h, .inl h⟩
  · exact ⟨.inr (.inl h), .inr (.inl h)⟩
  · rw [lowerStmts, falls_cons, Bool.and_eq_true] at h
    exact ⟨.inr (.inr h.1), .inr (.inr h.2)⟩

theorem keepsSlot_arm (pos : Position) (n : Cst) : KeepsSlot g pos.ofArm (armCode pos n) := by
  unfold armCode
  split
  · exact ofArm_ne_outer pos
  · exact fun h => (ofArm_ne_outer pos h).elim

/-- An arm is left by `return` only where the `if` does not always fall through. -/
theorem noReturn_arm {pos : Position} {condition consequence arm : Cst} {alternative : Option Cst}
    {span : Span}
    (h : NoReturn alphanumeric g pos (.node (.ifStatement condition consequence alternative span)))
    (harm : arm = consequence ∨ alternative = some arm) :
    NoReturn alphanumeric g pos.ofArm (armCode pos arm) := by
  have hstmts : ∀ ns, pos = .nested ∨ pos = .inner →
      NoReturn alphanumeric g pos.ofArm (.stmts ns) := by
    rintro ns (rfl | rfl)
    · exact .inl rfl
    · exact .inr (.inl rfl)
  unfold armCode
  split
  · rename_i hpos
    rcases h with h | h | h
    · exact hstmts _ (.inl h)
    · exact hstmts _ (.inr h)
    · have hlower := lowered_if pos condition consequence alternative span
      rw [if_pos hpos, lowered_of_isStatement hpos] at hlower
      rw [hlower, statementForceFlow, Bool.and_eq_true] at h
      refine .inr (.inr ?_)
      rcases harm with rfl | rfl
      · exact h.1
      · exact h.2
  · rename_i hpos
    have hinner : pos = .inner := by
      cases pos <;> first | rfl | exact absurd rfl hpos
    subst hinner
    exact .inr (.inl rfl)

/-- A call of `return` by its name ends the walk. -/
theorem not_falls_of_return {function : Cst} {arguments : List CstArg} {span : Span}
    (hhead : headText function = some "return") :
    (statementForceFlow alphanumeric g.formal.raw
      (lowerStmt (.call function arguments span))).falls = false := by
  obtain ⟨headSpan, hident⟩ := lowerExpr_of_headText hhead
  have hlower : lowerExpr (.call function arguments span) =
      .call (.ident "return" headSpan) (lowerArguments arguments) span := by
    rw [lowerExpr, hident]
  rw [lowerStmt_of_call hlower (by decide), hlower, falls_expr]
  rfl

section Quiet

variable (hseen : Seen alphanumeric g)
include hseen

/-- A binding that is allowed where the slot is left alone binds another name. -/
theorem ne_of_mayBind {pos : Position} {x : String} (hx : g.MayBind pos x)
    (hpos : pos = .outer → x ≠ g.name) : x ≠ g.name := by
  intro heq
  rcases hx heq with h | h
  · exact hpos h heq
  · exact hseen.hiddenBind h

theorem ne_of_mayBindEach {pos : Position} {token : String} (hx : g.MayBindEach pos token)
    (hpos : pos = .outer → isStringToken token = false → hasEscape token = false →
      g.symbol token ≠ g.name) : g.symbol token ≠ g.name := by
  have hstring : isStringToken token = false := by
    by_contra h
    exact hseen.hiddenBind (hx.2 (.inr (by simpa using h)))
  have hplain : hasEscape token = false := by
    by_contra h
    exact hseen.hiddenBind (hx.2 (.inl (by simpa using h)))
  exact ne_of_mayBind hseen hx.1 fun hp => hpos hp hstring hplain

variable (hwrites : defaultsMayWrite g.formals (semanticArgumentName g.formal.raw) = false)
include hwrites

theorem quiet_of_reaches {pos : Position} {n : Cst} {s s' : Slot} {t : List Event} {o : Ending}
    (h : g.Reaches pos n s t o s') : Quiet alphanumeric g pos (.node n) s o s' := by
  refine ⟨fun hkeeps hs => ?_, fun hno ho => ?_⟩
  · by_contra hne
    rcases h.bind (hs ▸ hne) with ⟨hpos, hinstalls⟩ | hdefault | hmay
    · exact hkeeps hpos (.inr (.inl hinstalls))
    · exact absurd hdefault (by simp [hwrites])
    · exact hseen.hiddenBind hmay
  · rcases h.leave ho with ⟨hpos, hdispatch⟩ | hmay
    · rcases hno with rfl | rfl | hfalls
      · simp at hpos
      · simp at hpos
      · exact absurd hfalls (by simp [not_falls_of_dispatch hdispatch])
    · exact hseen.hiddenReturn hmay

theorem quiet (horigin : g.origin = .omitted) {pos : Position} {code : Code} {s s' : Slot}
    {t : List Event} {o : Ending} (h : Runs g pos code s t o s') :
    Quiet alphanumeric g pos code s o s' := by
  induction h with
  | literal | nil | noOperands | turnsEnd | jump => exact ⟨fun _ hs => hs, fun _ => nofun⟩
  -- names
  | otherName _ _ hr => exact quiet_of_reaches hseen hwrites hr
  | settledName _ _ hr => exact ⟨fun _ => nofun, (quiet_of_reaches hseen hwrites hr).stays⟩
  | pendingName | omitted | plusReturn => exact ⟨fun _ hs => hs, fun _ => nofun⟩
  | actual _ _ ho | default _ _ ho => exact nomatch horigin.symm.trans ho
  -- sequences
  | last _ ih =>
    exact ⟨fun hk hs => ih.keeps (fun hp => (hk hp).elim) hs, fun hno => ih.stays (noReturn_cons hno).1⟩
  | cons _ _ ih ih' =>
    exact ⟨fun hk hs => ih'.keeps hk (ih.keeps (fun hp => (hk hp).elim) hs),
      fun hno => ih'.stays (noReturn_cons hno).2⟩
  | stop _ _ ih =>
    exact ⟨fun hk hs => ih.keeps (fun hp => (hk hp).elim) hs, fun hno => ih.stays (noReturn_cons hno).1⟩
  | braced _ ih => exact ⟨fun _ hs => ih.keeps nofun hs, fun _ => ih.stays (.inl rfl)⟩
  | parenthesized _ ih => exact ⟨fun _ hs => ih.keeps nofun hs, fun _ => ih.stays (.inr (.inl rfl))⟩
  | operand _ _ ih ih' =>
    exact ⟨fun hk hs => ih'.keeps hk (ih.keeps nofun hs), fun _ => ih'.stays trivial⟩
  | operandStops _ _ ih => exact ⟨fun _ hs => ih.keeps nofun hs, fun _ => ih.stays (.inr (.inl rfl))⟩
  -- code that is not followed
  | opensStops _ _ _ ih => exact ⟨fun _ hs => ih.keeps nofun hs, fun _ => ih.stays trivial⟩
  | opens _ _ hr ih =>
    have hreach := quiet_of_reaches hseen hwrites hr
    exact ⟨fun hk hs => hreach.keeps hk (ih.keeps nofun hs), hreach.stays⟩
  | returns hhead _ _ hhidden _ ih =>
    refine ⟨fun _ hs => ih.keeps nofun hs, fun hno => ?_⟩
    split
    · rename_i ho
      rcases hhidden ho with ⟨rfl, hpos⟩ | hmay
      · rcases hno with rfl | rfl | hfalls
        · simp at hpos
        · simp at hpos
        · exact absurd hfalls (by simp [not_falls_of_return hhead])
      · exact (hseen.hiddenReturn hmay).elim
    · exact ih.stays trivial
  -- the unary plus
  | plusStops _ _ ih => exact ⟨fun _ hs => ih.keeps nofun hs, fun _ => ih.stays (.inr (.inl rfl))⟩
  | plus _ _ ih | plusFails _ _ _ _ ih => exact ⟨fun _ hs => ih.keeps nofun hs, fun _ => nofun⟩
  | plusDispatches _ hr ih =>
    have hreach := quiet_of_reaches hseen hwrites hr
    exact ⟨fun hk hs => hreach.keeps hk (ih.keeps nofun hs), hreach.stays⟩
  -- assignments
  | assignStops _ _ _ ih => exact ⟨fun _ hs => ih.keeps nofun hs, fun _ => ih.stays (.inr (.inl rfl))⟩
  | assign hn hx hmay _ ih =>
    refine ⟨fun hk hs => ?_, fun _ => nofun⟩
    have hne := ne_of_mayBind hseen hmay fun hp heq => hk hp (.inl ⟨_, _, hn, heq ▸ hx⟩)
    rw [Setting.bound, if_neg hne]
    exact ih.keeps nofun hs
  -- short circuits
  | lhsStops _ _ _ ih => exact ⟨fun _ hs => ih.keeps nofun hs, fun _ => ih.stays (.inr (.inl rfl))⟩
  | shortCircuit _ _ _ ho ih =>
    refine ⟨fun _ hs => ih.keeps nofun hs, fun _ => ?_⟩
    rcases ho with rfl | rfl <;> nofun
  | rhsStops _ _ _ _ ih ih' =>
    exact ⟨fun _ hs => ih'.keeps nofun (ih.keeps nofun hs), fun _ => ih'.stays (.inr (.inl rfl))⟩
  | rhs _ _ _ ho ih ih' =>
    refine ⟨fun _ hs => ih'.keeps nofun (ih.keeps nofun hs), fun _ => ?_⟩
    rcases ho with rfl | rfl <;> nofun
  -- conditions
  | conditionStops _ _ ih => exact ⟨fun _ hs => ih.keeps nofun hs, fun _ => ih.stays (.inr (.inl rfl))⟩
  | conditionFails _ _ _ ih | noAlternative _ _ ih =>
    exact ⟨fun _ hs => ih.keeps nofun hs, fun _ => nofun⟩
  | consequence _ _ _ ih ih' =>
    exact ⟨fun _ hs => ih'.keeps (keepsSlot_arm _ _) (ih.keeps nofun hs),
      fun hno => ih'.stays (noReturn_arm hno (.inl rfl))⟩
  | alternative _ _ _ ih ih' =>
    exact ⟨fun _ hs => ih'.keeps (keepsSlot_arm _ _) (ih.keeps nofun hs),
      fun hno => ih'.stays (noReturn_arm hno (.inr rfl))⟩
  -- loops
  | sequenceStops _ _ ih => exact ⟨fun _ hs => ih.keeps nofun hs, fun _ => ih.stays (.inr (.inl rfl))⟩
  | forLoop _ _ ih ih' =>
    refine ⟨fun hk hs => ih'.keeps (fun hp hstring hplain heq => hk hp ?_) (ih.keeps nofun hs),
      fun _ => ih'.stays trivial⟩
    exact .inr (.inr ⟨_, _, _, _, _, rfl, hstring, hplain, heq⟩)
  | turn hmay _ _ _ ih ih' =>
    refine ⟨fun hk hs => ih'.keeps hk (ih.keeps nofun ?_), fun _ => ih'.stays trivial⟩
    rw [Setting.bound, if_neg (ne_of_mayBindEach hseen hmay hk)]
    exact hs
  | turnStops hmay _ _ _ ih =>
    refine ⟨fun hk hs => ih.keeps nofun ?_, fun _ => ih.stays (.inl rfl)⟩
    rw [Setting.bound, if_neg (ne_of_mayBindEach hseen hmay hk)]
    exact hs
  | whileLoop _ ih | repeatLoop _ ih => exact ⟨fun _ hs => ih.keeps trivial hs, fun _ => ih.stays trivial⟩
  | testStops _ _ ih => exact ⟨fun _ hs => ih.keeps nofun hs, fun _ => ih.stays (.inr (.inl rfl))⟩
  | testEnds _ _ ho ih =>
    refine ⟨fun _ hs => ih.keeps nofun hs, fun _ => ?_⟩
    rcases ho with rfl | rfl <;> nofun
  | testBody _ _ _ _ _ ih ih' ih'' =>
    exact ⟨fun _ hs => ih''.keeps trivial (ih'.keeps nofun (ih.keeps nofun hs)),
      fun _ => ih''.stays trivial⟩
  | testBodyEnds _ _ _ _ ih ih' =>
    refine ⟨fun _ hs => ih'.keeps nofun (ih.keeps nofun hs), fun _ => ?_⟩
    split
    · nofun
    · exact ih'.stays (.inl rfl)

end Quiet

/-! ## Forces -/

/-- The value of an expression, returned or not, must force the formal. -/
def MustExpr (alphanumeric : Char → Bool) (g : Setting) (e : Expr) : Prop :=
  valueMustForce alphanumeric g e = true ∨
    expressionMustForce alphanumeric g.formal.raw e = true

def MustStmt (alphanumeric : Char → Bool) (g : Setting) (s : Stmt) : Prop :=
  (statementForceFlow alphanumeric g.formal.raw s).forces = true ∨
    ∃ e, s = .expr e ∧ expressionMustForce alphanumeric g.formal.raw e = true

/-- The analysis takes the code to force the formal. -/
def Must (alphanumeric : Char → Bool) (g : Setting) (pos : Position) : Code → Prop
  | .node n => MustStmt alphanumeric g (lowered pos n)
  | .stmts ns => pos.isStatement = true ∧
      (blockForceFlow alphanumeric g.formal.raw (lowerStmts ns)).forces = true
  | .operands ns => ∃ n ∈ ns, MustExpr alphanumeric g (lowerExpr n)
  | .whiles condition _ => MustExpr alphanumeric g (lowerExpr condition)
  | .turns .. => False

theorem forces_expr {e : Expr} :
    (statementForceFlow alphanumeric g.formal.raw (.expr e)).forces =
      valueMustForce alphanumeric g e := by
  rw [statementForceFlow]
  unfold valueMustForce
  split
  · rfl
  · split <;> simp [*]

theorem forces_assign {target value : Expr} {span : Span} :
    (statementForceFlow alphanumeric g.formal.raw (.assign target value span)).forces =
      valueMustForce alphanumeric g value := by
  rw [statementForceFlow]
  unfold valueMustForce
  split
  · rfl
  · split <;> simp [*]

theorem mustStmt_expr {e : Expr} : MustStmt alphanumeric g (.expr e) ↔ MustExpr alphanumeric g e := by
  simp [MustStmt, MustExpr, forces_expr]

theorem mustStmt_assign {target value : Expr} {span : Span}
    (h : MustStmt alphanumeric g (.assign target value span)) :
    valueMustForce alphanumeric g value = true := by
  rcases h with h | ⟨e, he, -⟩
  · exact forces_assign ▸ h
  · contradiction

/-- What is no call is forced by its value alone. -/
theorem mustExpr_of_not_call {e : Expr} (he : ∀ func args span, e ≠ .call func args span)
    (h : MustExpr alphanumeric g e) : expressionMustForce alphanumeric g.formal.raw e = true := by
  rcases h with h | h
  · unfold valueMustForce at h
    cases e with
    | call func args span => exact (he func args span rfl).elim
    | _ => simpa [isReturnCall, isDispatchCall] using h
  · exact h

theorem mustExpr_inner {n : Cst} :
    Must alphanumeric g .inner (.node n) ↔ MustExpr alphanumeric g (lowerExpr n) := mustStmt_expr

theorem not_must_literal {pos : Position} {n : Cst} {v : Value} (hv : literalValue n = some v) :
    ¬ Must alphanumeric g pos (.node n) := by
  intro h
  rw [Must] at h
  cases n with
  | functionDefinition parameters body span =>
    unfold lowered at h
    split at h
    · rw [lowerStmt] at h
      simp [MustStmt, statementForceFlow] at h
    · rw [lowerExpr, mustStmt_expr] at h
      exact absurd (mustExpr_of_not_call (by simp) h) (by simp [expressionMustForce])
  | number token span =>
    rw [lowered_expr (by simp [lowerStmt]), lowerExpr, mustStmt_expr] at h
    cases token <;>
      exact absurd (mustExpr_of_not_call (by simp [lowerNumber]) h)
        (by simp [lowerNumber, expressionMustForce])
  | logical | string | null | na =>
    rw [lowered_expr (by simp [lowerStmt]), lowerExpr, mustStmt_expr] at h
    exact absurd (mustExpr_of_not_call (by simp) h) (by simp [expressionMustForce])
  | _ => simp [literalValue] at hv

theorem must_name {pos : Position} {n : Cst} {text : String} (hx : nameText n = some text)
    (h : Must alphanumeric g pos (.node n)) : text = g.formal.raw := by
  obtain ⟨span, heq⟩ := lowered_name hx pos
  rw [Must, heq, mustStmt_expr] at h
  simpa [expressionMustForce] using mustExpr_of_not_call (by simp) h

/-- A call is forced by its head, or as a `return` by its first argument. -/
theorem mustExpr_call {func : Expr} {args : List Arg} {span : Span}
    (h : MustExpr alphanumeric g (.call func args span)) :
    expressionMustForce alphanumeric g.formal.raw func = true ∨
      Divergence.identName func = some "return" ∧
        firstMustForce alphanumeric g.formal.raw args = true := by
  rcases h with h | h
  · unfold valueMustForce at h
    split at h
    · rename_i hreturn
      rw [returnedMustForce] at h
      cases func with
      | ident name nameSpan =>
        simp only [isReturnCall, decide_eq_true_eq] at hreturn
        exact .inr ⟨by rw [Divergence.identName, hreturn], h⟩
      | _ => simp [isReturnCall] at hreturn
    · rw [Bool.and_eq_true, expressionMustForce] at h
      exact .inl h.2
  · rw [expressionMustForce] at h
    exact .inl h

theorem firstMustForce_operand {arguments : List CstArg}
    (h : firstMustForce alphanumeric g.formal.raw (lowerArguments arguments) = true) :
    Must alphanumeric g .inner (.operands (arguments.take 1 |>.flatMap CstArg.values)) := by
  match arguments with
  | [] => simp [lowerArguments, firstMustForce] at h
  | .omitted span :: _ =>
    simp [lowerArguments, lowerArg, missingAt, firstMustForce, argMustForce, expressionMustForce] at h
  | .argument name none span :: _ =>
    simp [lowerArguments, lowerArg, firstMustForce, argMustForce, expressionMustForce] at h
  | .argument name (some value) span :: _ =>
    simp only [lowerArguments, lowerArg, firstMustForce, argMustForce] at h
    exact ⟨value, by simp [CstArg.values], .inr h⟩

/-- A subscript that must force the formal is one that is evaluated. -/
theorem subscriptsMustForce_operand {double : Bool} {arguments : List CstArg}
    (h : subscriptsMustForce alphanumeric g.formal.raw (if double then .double else .single)
      (lowerArguments arguments) = true) :
    ∃ n ∈ eagerSubscripts double arguments, MustExpr alphanumeric g (lowerExpr n) := by
  induction arguments with
  | nil => simp [lowerArguments, subscriptsMustForce] at h
  | cons slot slots ih =>
    rw [lowerArguments, subscriptsMustForce, Bool.or_eq_true] at h
    rcases h with h | h
    · match slot with
      | .omitted span =>
        simp [lowerArg, missingAt, subscriptMustForce, expressionMustForce] at h
      | .argument name none span =>
        simp [lowerArg, subscriptMustForce, expressionMustForce] at h
      | .argument name (some value) span =>
        rw [lowerArg, subscriptMustForce, Bool.and_eq_true] at h
        refine ⟨value, ?_, .inr h.2⟩
        have hbare : (double || !isBareName value) = true := by
          cases double with
          | true => rfl
          | false =>
            cases value with
            | identifier => simp [lowerExpr, isEmptySubscript] at h
            | _ => rfl
        simp [eagerSubscripts, CstArg.values, hbare]
    · obtain ⟨n, hn, hmust⟩ := ih h
      refine ⟨n, ?_, hmust⟩
      simp only [eagerSubscripts, List.flatMap_cons, List.filter_append, List.mem_append]
      exact .inr hn

theorem mustForce_binOp (op : BinOpKind) (lhs rhs : Expr) (span : Span) :
    expressionMustForce alphanumeric g.formal.raw (.binOp op lhs rhs span) =
      if isAssignment op && (bindingName lhs).isSome then
        expressionMustForce alphanumeric g.formal.raw rhs
      else if isShortCircuit op then expressionMustForce alphanumeric g.formal.raw lhs
      else expressionMustForce alphanumeric g.formal.raw lhs ||
        expressionMustForce alphanumeric g.formal.raw rhs := by
  cases op <;> rfl

theorem must_binOp {op : BinOpKind} {lhs rhs : Expr} {span : Span}
    (h : MustExpr alphanumeric g (.binOp op lhs rhs span)) :
    expressionMustForce alphanumeric g.formal.raw lhs = true ∨
      expressionMustForce alphanumeric g.formal.raw rhs = true := by
  have hforce := mustExpr_of_not_call (by simp) h
  rw [mustForce_binOp] at hforce
  split at hforce
  · exact .inr hforce
  · split at hforce
    · exact .inl hforce
    · simpa using hforce

/-- An assignment is forced by its value, or by a target that is no name. -/
theorem must_assignment {op : BinOpKind} (hop : isAssignment op = true) {lhs rhs : Expr}
    {span : Span} (h : MustExpr alphanumeric g (.binOp op lhs rhs span)) :
    expressionMustForce alphanumeric g.formal.raw rhs = true ∨
      bindingName lhs = none ∧ expressionMustForce alphanumeric g.formal.raw lhs = true := by
  have hforce := mustExpr_of_not_call (by simp) h
  have hshort : isShortCircuit op = false := by
    cases op <;> first | rfl | contradiction
  rw [mustForce_binOp, hop, hshort, Bool.true_and] at hforce
  split at hforce
  · exact .inl hforce
  · rename_i hnone
    simp only [Bool.false_eq_true, if_false, Bool.or_eq_true] at hforce
    rcases hforce with hl | hr
    · exact .inr ⟨by simpa using hnone, hl⟩
    · exact .inl hr

theorem bindingName_of_boundName {target : Cst} {x : String} (hx : g.boundName target = some x) :
    bindingName (lowerExpr target) ≠ none := by
  cases target with
  | identifier | string =>
    rw [lowerExpr]
    exact nofun
  | _ => simp [Setting.boundName] at hx

theorem must_unary {op : UnaryOpKind} {e : Expr} {span : Span}
    (h : MustExpr alphanumeric g (.unaryOp op e span)) :
    expressionMustForce alphanumeric g.formal.raw e = true := by
  have hforce := mustExpr_of_not_call (by simp) h
  rwa [expressionMustForce] at hforce

theorem mustForce_ident {name : String} {span : Span} :
    expressionMustForce alphanumeric g.formal.raw (.ident name span) = true ↔ name = g.formal.raw := by
  simp [expressionMustForce]

/-- A head that a stub's contract speaks of is neither the formal nor `return`. -/
theorem qualified_of_forcedOperand {function : Cst} {arguments : List CstArg} {value : Cst}
    (h : forcedOperand g.force function arguments = some value) :
    ∃ text span, lowerExpr function = .ident text span ∧ qualifiedForce g.force text ≠ none := by
  unfold forcedOperand forcedArgument at h
  cases hident : lowerExpr function with
  | ident text span =>
    refine ⟨text, span, rfl, fun hnone => ?_⟩
    simp [hident, Divergence.identName, hnone] at h
  | _ => simp [hident, Divergence.identName] at h

theorem not_must_contract {function : Cst} {arguments : List CstArg} {value : Cst} {span : Span}
    {pos : Position} (h : forcedOperand g.force function arguments = some value) :
    ¬ MustStmt alphanumeric g (lowered pos (.call function arguments span)) := by
  intro hmust
  obtain ⟨text, textSpan, hident, hqualified⟩ := qualified_of_forcedOperand h
  rw [lowered_expr (by simp [lowerStmt]), lowerExpr, mustStmt_expr, hident] at hmust
  rcases mustExpr_call hmust with hfunc | ⟨hreturn, -⟩
  · obtain rfl := mustForce_ident.mp hfunc
    exact hqualified g.unqualified
  · obtain rfl := Option.some.inj hreturn
    exact hqualified rfl

theorem must_operatorCall {operator : String} {operatorSpan span : Span} {lhs rhs : Arg}
    (hne : operator ≠ "return")
    (h : MustExpr alphanumeric g (.call (.ident operator operatorSpan) [lhs, rhs] span)) :
    MustExpr alphanumeric g (lowerExpr (.identifier operator operatorSpan)) := by
  rw [lowerExpr]
  rcases mustExpr_call h with hfunc | ⟨hreturn, -⟩
  · exact .inr hfunc
  · exact (hne (Option.some.inj hreturn)).elim

/-- A form that must force the formal does so by what it evaluates first. -/
theorem Opens.must (hseen : Seen alphanumeric g) {pos : Position} {n : Cst} {first : List Cst}
    (h : Opens g pos n first) (hn : Must alphanumeric g pos (.node n)) :
    ∃ m ∈ first, MustExpr alphanumeric g (lowerExpr m) := by
  rw [Must] at hn
  cases h with
  | @call function arguments span _ hreturn _ =>
    rw [lowered_expr (by simp [lowerStmt]), lowerExpr, mustStmt_expr] at hn
    rcases mustExpr_call hn with hfunc | ⟨hreturn', -⟩
    · exact ⟨function, List.mem_cons_self, .inr hfunc⟩
    · exact (hreturn hreturn').elim
  | contract hsome | contractPlus hsome => exact (not_must_contract hsome hn).elim
  | @eager operator operatorSpan lhs rhs span hop =>
    obtain ⟨op, hkind, -⟩ := binOpKind_eager hop
    have hnot := not_assignOperator_of_eager hop
    rw [lowered_binary hnot, binaryExpression_of_kind hnot hkind, mustStmt_expr] at hn
    rcases must_binOp hn with hl | hr
    · exact ⟨lhs, by simp, .inr hl⟩
    · exact ⟨rhs, by simp, .inr hr⟩
  | @lazily operator operatorSpan lhs rhs span hop hmay =>
    obtain ⟨op, hkind, -⟩ := binOpKind_lazy hop
    have hnot := not_assignOperator_of_lazy hop
    rw [lowered_binary hnot, binaryExpression_of_kind hnot hkind, mustStmt_expr] at hn
    obtain ⟨hl, hr⟩ := hseen.lazyOperand hmay
    simpa [hl, hr] using must_binOp hn
  | @eagerly operator operatorSpan lhs rhs span hop =>
    obtain ⟨op, hkind, -⟩ := binOpKind_lazy hop
    have hnot := not_assignOperator_of_lazy hop
    rw [lowered_binary hnot, binaryExpression_of_kind hnot hkind, mustStmt_expr] at hn
    rcases must_binOp hn with hl | hr
    · exact ⟨lhs, by simp, .inr hl⟩
    · exact ⟨rhs, by simp, .inr hr⟩
  | @walrus operatorSpan lhs rhs span hmay =>
    by_cases hstatement : pos.isStatement = true ∧ lhs.isIdentifier = true
    · -- the statement is lowered to an assignment of the value
      rw [lowered, if_pos hstatement.1, lowerStmt] at hn
      simp only [tryLowerAssign, assignOperators, hstatement.2] at hn
      have hvalue := mustStmt_assign hn
      have hnone := hseen.walrus (hmay hstatement.1 hstatement.2)
      exact absurd hvalue (by simp [hnone])
    · rw [lowered_walrus (fun hpos hlhs => hstatement ⟨hpos, hlhs⟩), mustStmt_expr] at hn
      exact ⟨_, List.mem_cons_self, must_operatorCall (by decide) hn⟩
  | @custom operator operatorSpan lhs rhs span hkind hop hne =>
    rw [lowered_binary hop, binaryExpression_of_call hkind (fun h => hop (by simp [h, assignOperators]))
      (fun h => hop (by simp [h, assignOperators])), mustStmt_expr] at hn
    exact ⟨_, List.mem_cons_self, must_operatorCall hne hn⟩
  | @negate operator operand span hop =>
    rw [lowered_expr (by simp [lowerStmt]), lowerExpr, mustStmt_expr] at hn
    refine ⟨operand, List.mem_cons_self, .inr ?_⟩
    rcases hop with rfl | rfl
    · exact must_unary (show MustExpr alphanumeric g (.unaryOp .neg _ span) from hn)
    · exact must_unary (show MustExpr alphanumeric g (.unaryOp .not _ span) from hn)
  | @otherUnary operator operand span hop =>
    rw [lowered_expr (by simp [lowerStmt]), lowerExpr, mustStmt_expr] at hn
    simp only [List.mem_cons, List.not_mem_nil, or_false, not_or] at hop
    rw [lowerUnary, if_neg hop.1, if_neg hop.2.2, if_neg hop.2.1] at hn
    exact absurd (mustExpr_of_not_call (by simp) hn) (by simp [expressionMustForce])
  | @extract operator lhs rhs span =>
    rw [lowered_expr (by simp [lowerStmt]), lowerExpr, lowerExtract, mustStmt_expr] at hn
    refine ⟨lhs, List.mem_cons_self, .inr ?_⟩
    have hforce := mustExpr_of_not_call (by simp) hn
    rw [expressionMustForce] at hforce
    split at hforce <;> simpa [IndexKind.isMember] using hforce
  | @subset double function arguments span hmay =>
    rw [lowered_expr (by simp [lowerStmt]), lowerExpr, mustStmt_expr] at hn
    refine ⟨function, List.mem_cons_self, .inr ?_⟩
    have hforce := mustExpr_of_not_call (by simp) hn
    rw [expressionMustForce, hseen.lazySubscript hmay] at hforce
    simpa using hforce
  | @subsetEager double function arguments span =>
    rw [lowered_expr (by simp [lowerStmt]), lowerExpr, mustStmt_expr] at hn
    have hforce := mustExpr_of_not_call (by simp) hn
    rw [expressionMustForce, Bool.or_eq_true, Bool.and_eq_true] at hforce
    rcases hforce with hbase | ⟨-, hsubscripts⟩
    · exact ⟨function, List.mem_cons_self, .inr hbase⟩
    · obtain ⟨m, hm, hmust⟩ := subscriptsMustForce_operand hsubscripts
      exact ⟨m, List.mem_cons_of_mem _ hm, hmust⟩
  | @replacement _ target value hn' _ _ hmay =>
    rcases lowered_localAssignment hn' pos with ⟨span, heq⟩ | ⟨hpos, span, heq⟩
    · rw [heq] at hn
      exact ⟨value, List.mem_cons_self, .inl (mustStmt_assign hn)⟩
    · rw [heq, mustStmt_expr] at hn
      rcases must_assignment rfl hn with hvalue | ⟨-, htarget⟩
      · exact ⟨value, List.mem_cons_self, .inr hvalue⟩
      · -- the target reads the formal it is a part of
        obtain ⟨rootSpan, hroot⟩ := hseen.innerTarget (hmay hpos) htarget
        refine ⟨_, by rw [hroot]; exact List.mem_cons_of_mem _ List.mem_cons_self, .inr ?_⟩
        rw [lowerExpr]
        exact mustForce_ident.mpr rfl
  | @outward _ target value hn' hmay =>
    refine ⟨value, List.mem_cons_self, .inr ?_⟩
    have hvalue : ∃ span, MustExpr alphanumeric g
        (.binOp .superAssign (lowerExpr target) (lowerExpr value) span) := by
      rcases lowered_outwardAssignment hn' pos with ⟨span, heq⟩ | ⟨span, heq⟩
      · rw [heq] at hn
        exact ⟨span, .inl (mustStmt_assign hn)⟩
      · rw [heq, mustStmt_expr] at hn
        exact ⟨span, hn⟩
    obtain ⟨span, hvalue⟩ := hvalue
    rcases must_assignment rfl hvalue with hvalue | ⟨hname, htarget⟩
    · exact hvalue
    · cases hbound : g.boundName target with
      | none => exact absurd htarget (by simp [hseen.outwardTarget (hmay hbound)])
      | some x => exact (bindingName_of_boundName hbound hname).elim
  | other =>
    rw [lowered_expr (by simp [lowerStmt]), lowerExpr, mustStmt_expr] at hn
    exact absurd (mustExpr_of_not_call (by simp) hn) (by simp [expressionMustForce])

/-! ## The other forms -/

theorem must_assigned {pos : Position} {n target value : Cst} {x : String}
    (hn : localAssignment n = some (target, value)) (hx : g.boundName target = some x)
    (h : Must alphanumeric g pos (.node n)) : Must alphanumeric g .inner (.node value) := by
  rw [Must] at h
  rw [mustExpr_inner]
  rcases lowered_localAssignment hn pos with ⟨span, heq⟩ | ⟨-, span, heq⟩
  · rw [heq] at h
    exact .inl (mustStmt_assign h)
  · rw [heq, mustStmt_expr] at h
    rcases must_assignment rfl h with hvalue | ⟨hname, -⟩
    · exact .inr hvalue
    · exact (bindingName_of_boundName hx hname).elim

theorem must_shortCircuit {operator : String} (hop : operator = "&&" ∨ operator = "||")
    {operatorSpan : Span} {lhs rhs : Cst} {span : Span} {pos : Position}
    (h : Must alphanumeric g pos (.node (.binary operator operatorSpan lhs rhs span))) :
    Must alphanumeric g .inner (.node lhs) := by
  obtain ⟨op, hshort, -, -, -, heq⟩ := lowered_shortCircuit hop operatorSpan lhs rhs span pos
  rw [Must, heq, mustStmt_expr] at h
  rw [mustExpr_inner]
  have hforce := mustExpr_of_not_call (by simp) h
  have hassign : isAssignment op = false := by
    cases op <;> first | rfl | contradiction
  rw [mustForce_binOp, hshort, hassign] at hforce
  exact .inr hforce

theorem must_braced {pos : Position} {doubled : Bool} {body : List Cst} {span : Span}
    (h : Must alphanumeric g pos (.node (.braced doubled body span))) :
    Must alphanumeric g .nested (.stmts body) := by
  refine ⟨rfl, ?_⟩
  have hblock : ∀ {b : List Stmt}, MustExpr alphanumeric g (.block b span) →
      (blockForceFlow alphanumeric g.formal.raw b).forces = true := by
    intro b hb
    have hforce := mustExpr_of_not_call (by simp) hb
    rwa [expressionMustForce] at hforce
  rw [Must, lowered] at h
  split at h
  · rw [lowerStmt, mustStmt_expr] at h
    exact hblock h
  · rw [lowerExpr] at h
    split at h
    · rw [mustStmt_expr] at h
      have houter := hblock h
      rw [blockForceFlow] at houter
      split at houter
      · rename_i hforces
        rw [forces_expr] at hforces
        exact hblock (.inl hforces)
      · split at houter <;> simp [blockForceFlow] at houter
    · rw [mustStmt_expr] at h
      exact hblock h

/-- An `if` forces what its condition does, or what both of its arms do. -/
theorem must_if {pos : Position} {condition consequence : Cst} {alternative : Option Cst}
    {span : Span}
    (h : Must alphanumeric g pos (.node (.ifStatement condition consequence alternative span))) :
    Must alphanumeric g .inner (.node condition) ∨
      Must alphanumeric g pos.ofArm (armCode pos consequence) ∧
        ∃ n, alternative = some n ∧ Must alphanumeric g pos.ofArm (armCode pos n) := by
  rw [Must, lowered_if] at h
  rw [mustExpr_inner]
  unfold armCode
  split at h
  · rename_i hpos
    have hforces : (expressionMustForce alphanumeric g.formal.raw (lowerExpr condition) ||
        (blockForceFlow alphanumeric g.formal.raw (lowerStmts (blockBody consequence))).forces &&
        (elseForceFlow alphanumeric g.formal.raw
          (alternative.map fun n => lowerStmts (blockBody n))).forces) = true := by
      rcases h with h | ⟨e, he, -⟩
      · rwa [statementForceFlow] at h
      · contradiction
    rw [if_pos hpos, Bool.or_eq_true, Bool.and_eq_true] at *
    rcases hforces with hcond | ⟨hthen, helse⟩
    · exact .inl (.inr hcond)
    · refine .inr ⟨⟨isStatement_ofArm.trans hpos, hthen⟩, ?_⟩
      cases alternative with
      | none => simp [elseForceFlow] at helse
      | some n =>
        refine ⟨n, rfl, ?_⟩
        rw [if_pos hpos]
        exact ⟨isStatement_ofArm.trans hpos, helse⟩
  · rename_i hpos
    have harm : ∀ n, expressionMustForce alphanumeric g.formal.raw (lowerExpr n) = true →
        Must alphanumeric g pos.ofArm (.node n) := by
      intro n hn
      rw [Must, lowered, if_neg (by rwa [isStatement_ofArm]), mustStmt_expr]
      exact .inr hn
    rw [mustStmt_expr] at h
    have hforce := mustExpr_of_not_call (by simp) h
    rw [expressionMustForce, Bool.or_eq_true, Bool.and_eq_true] at hforce
    rw [if_neg hpos]
    rcases hforce with hcond | ⟨hthen, helse⟩
    · exact .inl (.inr hcond)
    · refine .inr ⟨harm _ hthen, ?_⟩
      cases alternative with
      | none => simp [optionMustForce] at helse
      | some n =>
        refine ⟨n, rfl, ?_⟩
        rw [if_neg hpos]
        exact harm n helse

theorem not_mustExpr_unknown {span : Span} : ¬ MustExpr alphanumeric g (.unknown span) := fun h =>
  absurd (mustExpr_of_not_call (by simp) h) (by simp [expressionMustForce])

/-- A loop forces what it evaluates before its body. -/
theorem must_for {pos : Position} {token : String} {tokenSpan : Span} {sequence body : Cst}
    {span : Span}
    (h : Must alphanumeric g pos (.node (.forStatement token tokenSpan sequence body span))) :
    Must alphanumeric g .inner (.node sequence) := by
  rw [Must, lowered] at h
  rw [mustExpr_inner]
  split at h
  · rw [lowerStmt] at h
    rcases h with h | ⟨e, he, -⟩
    · rw [statementForceFlow] at h
      exact .inr h
    · contradiction
  · rw [lowerExpr, mustStmt_expr] at h
    exact (not_mustExpr_unknown h).elim

theorem must_while {pos : Position} {condition body : Cst} {span : Span}
    (h : Must alphanumeric g pos (.node (.whileStatement condition body span))) :
    Must alphanumeric g pos (.whiles condition body) := by
  rw [Must, lowered] at h
  split at h
  · rw [lowerStmt] at h
    rcases h with h | ⟨e, he, -⟩
    · rw [statementForceFlow] at h
      exact .inr h
    · contradiction
  · rw [lowerExpr, mustStmt_expr] at h
    exact (not_mustExpr_unknown h).elim

theorem not_must_repeat {pos : Position} {body : Cst} {span : Span} :
    ¬ Must alphanumeric g pos (.node (.repeatStatement body span)) := by
  intro h
  rw [Must, lowered] at h
  split at h
  · rw [lowerStmt] at h
    rcases h with h | ⟨e, he, -⟩
    · simp [statementForceFlow, expressionMustForce] at h
    · contradiction
  · rw [lowerExpr, mustStmt_expr] at h
    exact not_mustExpr_unknown h

/-! ## Statements that are walked past -/

/-- An assignment spans more than its value. -/
def ValueInside (n : Cst) : Prop :=
  ∀ target value, localAssignment n = some (target, value) → (lowerExpr value).span ≠ n.span

/-- What a statement that is walked past rebinds. -/
theorem rebinds_of_value {s : Stmt} {value : Expr}
    (hs : s = .expr value ∨ ∃ target span, s = .assign target value span)
    (hfalls : (statementForceFlow alphanumeric g.formal.raw s).falls = true)
    (hforces : (statementForceFlow alphanumeric g.formal.raw s).forces = false) :
    (statementForceFlow alphanumeric g.formal.raw s).rebinds = statementBinds s g.formal.raw := by
  have hflow : statementForceFlow alphanumeric g.formal.raw s =
      if isReturnCall value then ⟨returnedMustForce alphanumeric g.formal.raw value, false, false⟩
      else if isDispatchCall value then ⟨false, false, false⟩
      else ⟨expressionMustForce alphanumeric g.formal.raw value, true,
        !expressionMustForce alphanumeric g.formal.raw value &&
          statementBinds s g.formal.raw⟩ := by
    rcases hs with rfl | ⟨target, span, rfl⟩ <;> rfl
  rw [hflow] at hfalls hforces ⊢
  split at hfalls
  · contradiction
  · split at hfalls
    · contradiction
    · rename_i hreturn hdispatch
      rw [if_neg hreturn, if_neg hdispatch] at hforces ⊢
      have hvalue : expressionMustForce alphanumeric g.formal.raw value = false := hforces
      simp [hvalue]

theorem lowerStmt_localAssignment {n target value : Cst}
    (hn : localAssignment n = some (target, value)) :
    lowerStmt n = .assign (lowerExpr target) (lowerExpr value) n.span := by
  cases n with
  | binary operator operatorSpan lhs rhs span =>
    simp only [localAssignment] at hn
    split at hn
    · rename_i hop
      simp only [Option.some.injEq, Prod.mk.injEq] at hn
      obtain ⟨rfl, rfl⟩ := hn
      rcases hop with rfl | rfl <;> simp [lowerStmt, tryLowerAssign, assignOperators, Cst.span]
    · split at hn
      · rename_i hop
        simp only [Option.some.injEq, Prod.mk.injEq] at hn
        obtain ⟨rfl, rfl⟩ := hn
        subst hop
        simp [lowerStmt, tryLowerAssign, assignOperators, Cst.span]
      · contradiction
  | _ => simp [localAssignment] at hn

/-- An assignment that binds the formal is one the scan of the statement finds. -/
theorem mayBind_assign (hnames : PlainNames g) {target value : Cst} {span : Span}
    (hx : g.boundName target = some g.name) (hspan : (lowerExpr value).span ≠ span) :
    mayBind (semanticArgumentName g.formal.raw)
      (.stmt (.assign (lowerExpr target) (lowerExpr value) span)) = true := by
  have hmarker : isOutwardMarker span (lowerExpr value) = false := by
    unfold isOutwardMarker
    split
    · rename_i heq
      rw [heq] at hspan
      simpa [Expr.span] using hspan
    · rfl
  have hname : bindingName (lowerExpr target) ≠ none := bindingName_of_boundName hx
  have htarget : (targetName (lowerExpr target)).all
      (· = semanticArgumentName g.formal.raw) = true := by
    cases target with
    | identifier text textSpan =>
      rw [Setting.boundName] at hx
      split at hx
      · contradiction
      · rename_i hstring
        have hsymbol : g.symbol text = g.name := Option.some.inj hx
        rw [lowerExpr, targetName, identifierName]
        split
        · rfl
        · rename_i hplain
          rw [hnames.symbol text (by simpa using hstring) (by simpa using hplain),
            hnames.name] at hsymbol
          simp [hsymbol]
    | string text textSpan =>
      obtain rfl : text = g.name := Option.some.inj hx
      simp [lowerExpr, targetName, hnames.name]
    | _ => simp [Setting.boundName] at hx
  simp [mayBind, frameBinding, hmarker, Option.isSome_iff_ne_none.mpr hname, htarget]

/-- A statement that the analysis walks past does not bind the formal itself. -/
theorem not_ownBinding (hnames : PlainNames g) {n : Cst} (hinside : ValueInside n)
    (hfalls : (statementForceFlow alphanumeric g.formal.raw (lowerStmt n)).falls = true)
    (hforces : (statementForceFlow alphanumeric g.formal.raw (lowerStmt n)).forces = false)
    (hrebinds : (statementForceFlow alphanumeric g.formal.raw (lowerStmt n)).rebinds = false) :
    ¬ OwnBinding g n := by
  rintro (⟨target, value, hn, hx⟩ | hinstalls | ⟨token, tokenSpan, sequence, body, span, rfl, hstring, hplain, heq⟩)
  · have hlower := lowerStmt_localAssignment hn
    have hbinds := rebinds_of_value (.inr ⟨_, _, hlower⟩) hfalls hforces
    have hhit := mayBind_assign hnames hx (hinside target value hn)
    rw [hrebinds, hlower, statementBinds, anyInStmt_of_hit] at hbinds
    · contradiction
    · rw [hhit, Bool.true_or]
  · -- a call of `assign` or `delayedAssign`
    cases hcall : lowerExpr n with
    | call func args span =>
      cases func with
      | ident name nameSpan =>
        have hname : name ≠ ":=" := by
          rintro rfl
          have hnone : installerArity (semanticArgumentName ":=") = none := by decide
          simp [hcall, installsInFrame, hnone] at hinstalls
        have hlower := lowerStmt_of_call hcall hname
        have hbinds := rebinds_of_value (.inl hlower) hfalls hforces
        rw [hrebinds, hlower, statementBinds, anyInStmt] at hbinds
        simp only [Bool.false_eq, Bool.or_eq_false_iff] at hbinds
        rw [anyInExpr_of_hit] at hbinds
        · exact absurd hbinds.2 nofun
        · rw [hinstalls, decide_eq_true rfl, Bool.or_true]
      | _ => simp [hcall, installsInFrame] at hinstalls
    | _ => simp [hcall, installsInFrame] at hinstalls
  · rw [lowerStmt, statementForceFlow] at hforces hrebinds
    have hiter : expressionMustForce alphanumeric g.formal.raw (lowerExpr sequence) = false := hforces
    rw [hnames.symbol token hstring hplain, hnames.name] at heq
    simp [hiter, heq] at hrebinds

/-! ## The run -/

/-- The statements of the body's own block are as the parser makes them. -/
def Inside (pos : Position) : Code → Prop
  | .node n => pos = .outer → ValueInside n
  | .stmts ns => pos = .outer → ∀ n ∈ ns, ValueInside n
  | _ => True

theorem must_cons {pos : Position} {n : Cst} {ns : List Cst}
    (h : Must alphanumeric g pos (.stmts (n :: ns))) :
    Must alphanumeric g pos (.node n) ∨
      (statementForceFlow alphanumeric g.formal.raw (lowerStmt n)).falls = true ∧
      (statementForceFlow alphanumeric g.formal.raw (lowerStmt n)).forces = false ∧
      (statementForceFlow alphanumeric g.formal.raw (lowerStmt n)).rebinds = false ∧
      Must alphanumeric g pos (.stmts ns) := by
  obtain ⟨hpos, h⟩ := h
  rw [lowerStmts, blockForceFlow] at h
  split at h
  · rename_i hforces
    left
    rw [Must, lowered_of_isStatement hpos]
    exact .inl hforces
  · rename_i hforces
    split at h
    · contradiction
    · rename_i hpast
      simp only [Bool.or_eq_true, Bool.not_eq_true', not_or, Bool.not_eq_true,
        Bool.not_eq_false] at hpast
      exact .inr ⟨hpast.1, by simpa using hforces, hpast.2, hpos, h⟩

theorem inside_arm (pos : Position) (n : Cst) : Inside pos.ofArm (armCode pos n) := by
  unfold armCode
  split
  · exact fun h => (ofArm_ne_outer pos h).elim
  · exact fun h => (ofArm_ne_outer pos h).elim

/-- A call of `return` that must force the formal does so by its argument. -/
theorem must_returned {pos : Position} {function : Cst} {arguments : List CstArg} {span : Span}
    {text : String} (hhead : headText function = some text) (hreturn : g.symbol text = "return")
    (h : Must alphanumeric g pos (.node (.call function arguments span))) :
    Must alphanumeric g .inner (.operands (arguments.take 1 |>.flatMap CstArg.values)) := by
  rw [Must, lowered_expr (by simp [lowerStmt]), lowerExpr, mustStmt_expr] at h
  rcases mustExpr_call h with hfunc | ⟨-, hfirst⟩
  · obtain ⟨headSpan, hident⟩ := lowerExpr_of_headText hhead
    rw [hident, mustForce_ident] at hfunc
    exact (g.notReturn (hfunc ▸ hreturn)).elim
  · exact firstMustForce_operand hfirst

theorem not_must_nil {pos : Position} : ¬ Must alphanumeric g pos (.stmts []) := by
  rintro ⟨-, h⟩
  simp [lowerStmts, blockForceFlow] at h

section Run

variable (hseen : Seen alphanumeric g) (hnames : PlainNames g)
  (hwrites : defaultsMayWrite g.formals (semanticArgumentName g.formal.raw) = false)
  (horigin : g.origin = .omitted)
include hseen hnames hwrites horigin

/-- A run of code that must force a missing formal fails or is left by a jump. -/
theorem must_run {pos : Position} {code : Code} {s s' : Slot} {t : List Event} {o : Ending}
    (h : Runs g pos code s t o s') (hs : s = .promise) (hinside : Inside pos code)
    (hmust : Must alphanumeric g pos code) : o.isDone = false ∧ o ≠ .returned := by
  have hquiet := fun {pos : Position} {code : Code} {s s' : Slot} {t : List Event} {o : Ending}
    (h : Runs g pos code s t o s') => quiet hseen hwrites horigin h
  have hin : ∀ {n : Cst}, NoReturn alphanumeric g .inner (.node n) := .inr (.inl rfl)
  induction h with
  | literal hv => exact (not_must_literal hv hmust).elim
  -- names
  | otherName hx hne _ =>
    obtain rfl := must_name hx hmust
    exact (hne rfl).elim
  | settledName | pendingName => exact nomatch hs
  | actual _ _ ho | default _ _ ho => exact nomatch horigin.symm.trans ho
  | omitted | plusReturn | plusFails | conditionFails | jump => exact ⟨rfl, nofun⟩
  -- sequences
  | nil => exact (not_must_nil hmust).elim
  | last _ ih =>
    rcases must_cons hmust with hn | ⟨-, -, -, hnil⟩
    · exact ih hs (fun hp => hinside hp _ List.mem_cons_self) hn
    · exact (not_must_nil hnil).elim
  | cons h _ ih ih' =>
    rcases must_cons hmust with hn | ⟨hfalls, hforces, hrebinds, hns⟩
    · exact absurd (ih hs (fun hp => hinside hp _ List.mem_cons_self) hn).1 nofun
    · have hkeeps := (hquiet h).keeps (fun hp => not_ownBinding hnames
        (hinside hp _ List.mem_cons_self) hfalls hforces hrebinds) hs
      exact ih' hkeeps (fun hp m hm => hinside hp m (List.mem_cons_of_mem _ hm)) hns
  | stop h ho ih =>
    rcases must_cons hmust with hn | ⟨hfalls, -⟩
    · exact ih hs (fun hp => hinside hp _ List.mem_cons_self) hn
    · exact ⟨ho, (hquiet h).stays (.inr (.inr hfalls))⟩
  | braced _ ih => exact ih hs nofun (must_braced hmust)
  | @parenthesized pos inside span _ _ _ _ _ ih =>
    rw [Must, lowered_parenthesized] at hmust
    exact ih hs nofun hmust
  -- operands
  | noOperands =>
    obtain ⟨m, hm, -⟩ := hmust
    exact absurd hm List.not_mem_nil
  | operand h _ ih ih' =>
    obtain ⟨m, hm, hforce⟩ := hmust
    rcases List.mem_cons.mp hm with rfl | hm
    · exact absurd (ih hs nofun (mustExpr_inner.mpr hforce)).1 nofun
    · exact ih' ((hquiet h).keeps nofun hs) trivial ⟨m, hm, hforce⟩
  | operandStops h ho _ => exact ⟨ho, (hquiet h).stays hin⟩
  -- code that is not followed
  | opensStops _ h ho _ => exact ⟨ho, (hquiet h).stays trivial⟩
  | opens hopens _ _ ih => exact absurd (ih hs trivial (hopens.must hseen hmust)).1 nofun
  | returns hhead hreturn hnone _ _ ih =>
    obtain ⟨ho, hne⟩ := ih hs trivial (must_returned hhead hreturn hmust)
    rw [if_neg (by simp [ho])]
    exact ⟨ho, hne⟩
  -- the unary plus
  | plusStops h ho _ => exact ⟨ho, (hquiet h).stays hin⟩
  | plus _ _ ih | plusDispatches _ _ ih =>
    rw [Must, lowered_plus] at hmust
    exact absurd (ih hs nofun hmust).1 nofun
  -- assignments
  | assignStops _ h ho _ => exact ⟨ho, (hquiet h).stays hin⟩
  | assign hn hx _ _ ih => exact absurd (ih hs nofun (must_assigned hn hx hmust)).1 nofun
  -- short circuits
  | lhsStops _ h ho _ => exact ⟨ho, (hquiet h).stays hin⟩
  | shortCircuit hop _ _ _ ih => exact absurd (ih hs nofun (must_shortCircuit hop hmust)).1 nofun
  | rhsStops _ _ h' ho _ _ => exact ⟨ho, (hquiet h').stays hin⟩
  | rhs hop _ _ _ ih _ => exact absurd (ih hs nofun (must_shortCircuit hop hmust)).1 nofun
  -- conditions
  | conditionStops h ho _ => exact ⟨ho, (hquiet h).stays hin⟩
  | consequence h _ _ ih ih' =>
    rcases must_if hmust with hcond | ⟨harm, -⟩
    · exact absurd (ih hs nofun hcond).1 nofun
    · exact ih' ((hquiet h).keeps nofun hs) (inside_arm _ _) harm
  | alternative h _ _ ih ih' =>
    rcases must_if hmust with hcond | ⟨-, n, hn, harm⟩
    · exact absurd (ih hs nofun hcond).1 nofun
    · obtain rfl := Option.some.inj hn
      exact ih' ((hquiet h).keeps nofun hs) (inside_arm _ _) harm
  | noAlternative _ _ ih =>
    rcases must_if hmust with hcond | ⟨-, n, hn, -⟩
    · exact absurd (ih hs nofun hcond).1 nofun
    · exact nomatch hn
  -- loops
  | sequenceStops h ho _ => exact ⟨ho, (hquiet h).stays hin⟩
  | forLoop _ _ ih _ => exact absurd (ih hs nofun (must_for hmust)).1 nofun
  | turnsEnd | turn | turnStops => exact hmust.elim
  | whileLoop _ ih => exact ih hs trivial (must_while hmust)
  | repeatLoop => exact (not_must_repeat hmust).elim
  | testStops h ho _ => exact ⟨ho, (hquiet h).stays hin⟩
  | testEnds _ _ _ ih | testBody _ _ _ _ _ ih _ _ | testBodyEnds _ _ _ _ ih _ =>
    exact absurd (ih hs nofun (mustExpr_inner.mpr hmust)).1 nofun

end Run

/-- A call that omits a required formal does not return, as long as it takes no step that the
analysis misses. -/
theorem required_run (hseen : Seen alphanumeric g) (hnames : PlainNames g)
    (horigin : g.origin = .omitted) {param : Param} (hparam : param.name = g.formal.raw)
    {body : Cst} (hinside : ∀ n ∈ blockBody body, ValueInside n)
    (hrequired : required alphanumeric g.formals (lowerBlock body) param = true) {t : List Event}
    {o : Ending} {s' : Slot} (h : Runs g .outer (.stmts (blockBody body)) .promise t o s') :
    (∀ v, o ≠ .done v) ∧ o ≠ .returned := by
  obtain ⟨name, default, span⟩ := param
  obtain rfl : name = g.formal.raw := hparam
  simp only [required, Bool.and_eq_true, Bool.not_eq_true'] at hrequired
  obtain ⟨⟨-, hwrites⟩, hforces⟩ := hrequired
  rw [lowerBlock_eq] at hforces
  obtain ⟨hdone, hreturned⟩ := must_run hseen hnames hwrites horigin h rfl (fun _ => hinside)
    ⟨rfl, hforces⟩
  refine ⟨?_, hreturned⟩
  rintro v rfl
  contradiction

/-- A call of `function(p) p` that omits `p` fails. -/
theorem required_run_name :
    required Char.isAlphanum [] (lowerBlock formalP) (.mk "p" none nowhere) = true ∧
    (∃ t o s', Runs (soleFormal .omitted fun _ => False) .outer (.stmts [formalP]) .promise t o s') ∧
    ∀ t o s', Runs (soleFormal .omitted fun _ => False) .outer (.stmts [formalP]) .promise t o s' →
      (∀ v, o ≠ .done v) ∧ o ≠ .returned := by
  have hrequired : required Char.isAlphanum [] (lowerBlock formalP) (.mk "p" none nowhere) = true := by
    simp [formalP, lowerBlock, lowerStmt, lowerExpr, required, defaultsMayWrite, blockForceFlow,
      statementForceFlow, isReturnCall, isDispatchCall, expressionMustForce]
  refine ⟨hrequired, ⟨_, _, _, .last (.omitted rfl rfl rfl)⟩, ?_⟩
  intro t o s' h
  have hseen : Seen Char.isAlphanum (soleFormal .omitted fun _ => False) := by
    constructor <;> simp [soleFormal]
  have hnames : PlainNames (soleFormal .omitted fun _ => False) :=
    ⟨fun token hstring _ => if_neg (by simp [hstring]), by decide⟩
  have hname : (Param.mk "p" none nowhere).name =
      (soleFormal .omitted fun _ => False).formal.raw := rfl
  have hinside : ∀ n ∈ blockBody formalP, ValueInside n := by
    simp [blockBody, formalP, ValueInside, localAssignment]
  exact required_run hseen hnames rfl hname hinside hrequired h

/-- A formal `p` that is omitted, where every name that is read and every call is `TRUE`. -/
def omittedAmongTrue : Setting where
  symbol := plainSymbol
  symbol_bare := plainSymbol_bare
  formal := nameP
  formals := [.mk "p" none nowhere, .mk "go" none nowhere]
  notReturn := plainSymbol_p
  origin := .omitted
  force _ _ := none
  unqualified := unqualified_p
  reach s t o s' := t = [] ∧ o = .done (.logical true) ∧ s' = s
  may _ := True

/-- `function(p, go) { go && return(TRUE); p }` returns with `go` true. -/
theorem hidden_return_completes :
    ¬ ∀ (alphanumeric : Char → Bool) (g : Setting), PlainNames g → g.origin = .omitted →
      ∀ (param : Param) (body : Cst) (t : List Event) (o : Ending) (s' : Slot),
      param.name = g.formal.raw → (∀ n ∈ blockBody body, ValueInside n) →
      required alphanumeric g.formals (lowerBlock body) param = true →
      Runs g .outer (.stmts (blockBody body)) .promise t o s' →
      (∀ v, o ≠ .done v) ∧ o ≠ .returned := by
  intro h
  have hnames : PlainNames omittedAmongTrue :=
    ⟨fun token hstring _ => if_neg (by simp [hstring]), by decide⟩
  let go : Cst := .identifier "go" nowhere
  let returns : Cst := .call (.identifier "return" nowhere)
    [.argument none (some (.logical true nowhere)) nowhere] nowhere
  let test : Cst := .binary "&&" nowhere go returns nowhere
  have hrequired : required Char.isAlphanum omittedAmongTrue.formals
      (lowerBlock (.braced false [test, formalP] nowhere)) (.mk "p" none nowhere) = true := by
    have hlower : lowerBlock (.braced false [test, formalP] nowhere) =
        [.expr (.binOp .andAnd (.ident "go" nowhere)
          (.call (.ident "return" nowhere) [.mk none (.logical true nowhere) nowhere] nowhere)
          nowhere), .expr (.ident "p" nowhere)] := by
      simp [lowerBlock, lowerStmts, lowerStmt, lowerExpr, lowerArguments, lowerArg, test, go,
        returns, formalP, tryLowerAssign, assignOperators, binaryExpression, binOpKind]
    rw [hlower]
    decide
  have hgo : Runs omittedAmongTrue .inner (.node go) .promise [.other] (.done (.logical true))
      .promise :=
    .otherName rfl (by decide) ⟨⟨rfl, rfl, rfl⟩, fun hne => (hne rfl).elim, by simp⟩
  have hnone : forcedOperand omittedAmongTrue.force (.identifier "return" nowhere)
      [.argument none (some (.logical true nowhere)) nowhere] = none := by
    have hqualified : qualifiedForce omittedAmongTrue.force "return" = none := rfl
    simp [forcedOperand, forcedArgument, lowerExpr, Divergence.identName, hqualified]
  have hreturns : Runs omittedAmongTrue .inner (.node returns) .promise [] .returned .promise :=
    .returns (o := .done .object) rfl (by decide) hnone (fun _ => .inr trivial)
      (.operand (.literal rfl) .noOperands)
  have hrun : Runs omittedAmongTrue .outer (.stmts [test, formalP]) .promise [.other] .returned
      .promise := .stop (.rhsStops (.inl rfl) hgo hreturns rfl) rfl
  refine (h Char.isAlphanum omittedAmongTrue hnames rfl (.mk "p" none nowhere)
    (.braced false [test, formalP] nowhere) _ _ _ rfl ?_ hrequired hrun).2 rfl
  simp [blockBody, ValueInside, localAssignment, test, formalP]

end Ry.Promise
