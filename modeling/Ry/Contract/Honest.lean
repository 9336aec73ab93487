import Ry.Contract.Eval
import Ry.Contract.Shape

/-! # When a contract is honest

A contract lists the operators its reader saw.  A unary plus that lowering erased is one more
call, of a binding the list does not have, and a namespaced name or a keyword spelled like the
formal is not the formal.  `honest_iff` says that nothing else makes a contract wrong.
-/

namespace Ry.Contract

/-! ## Honest contracts -/

def Demand.rejects : Demand → Storage → Bool
  | .arithmeticOperand, storage => storage = .character || storage = .list || storage = .function
  | .dollarReceiver, storage => isAtomicStorage storage

/-- What the contract promises of every call that supplies the formal. -/
def Honest (params : List Param) (body : Cst) : CallContract → Prop
  | .identity formal => ∀ env : Env, eval env body = env.lookup (formalName params formal)
  | .demand formal demand arithmetic =>
    ∀ env : Env,
      (∀ operator ∈ (CallContract.demand formal demand arithmetic).operators,
        env.isBase operator = true) →
      ∀ v, env.lookup (formalName params formal) = .value v → v.cls = [] →
        demand.rejects v.storage = true → eval env body = .error

def readsReceiver : Cst → Bool
  | .extract _ base _ _ => base.isIdentifier
  | _ => false

/-- The operation is made of the listed operators and of the formal; an operand on the right does
not matter once the receiver on the left has failed. -/
def FaithfulOperation (operators : List String) : Cst → Prop
  | .binary _ _ lhs rhs _ =>
    if isLiteralNode lhs = true then
      (rhs.plusCore.isIdentifier = true ∨ readsReceiver rhs.plusCore = true) ∧
        (rhs.isPlus = true → "+" ∈ operators)
    else
      (lhs.isIdentifier = true ∨ readsReceiver lhs = true) ∧
        (rhs.isPlus = true → "+" ∈ operators ∨ readsReceiver lhs = true)
  | node => readsReceiver node = true

/-- What the contract was read off is what R evaluates. -/
def Faithful (body : Cst) (c : CallContract) : Prop :=
  match c with
  | .identity _ => body.isIdentifier = true
  | .demand .. =>
    (body.isPlus = true → "+" ∈ c.operators) ∧ FaithfulOperation c.operators body.plusCore

/-! ## Operators -/

theorem functionName_eq {operator : String} {op : BinOpKind} (h : binOpKind operator = some op)
    (harithmetic : op.isArithmetic = true) :
    operator ∈ arithmeticOperators ∧ functionName operator = op.symbol := by
  rw [binOpKind.eq_def] at h
  split at h <;> cases h <;> first | exact ⟨by decide, by decide⟩ | cases harithmetic

section Eval

variable {env : Env}

theorem eval_binary {operator : String} {op : BinOpKind} (h : binOpKind operator = some op)
    (harithmetic : op.isArithmetic = true) (hbase : env.isBase op.symbol = true)
    (operatorSpan span : Span) (lhs rhs : Cst) :
    eval env (.binary operator operatorSpan lhs rhs span) =
      (eval env lhs).bind fun v => (eval env rhs).bind fun w =>
        applyArithmetic env op.symbol v w := by
  obtain ⟨hmem, hname⟩ := functionName_eq h harithmetic
  rw [eval, if_neg (not_not.mpr hmem), hname, if_pos hbase]

theorem eval_plus (operand : Cst) (span : Span) :
    eval env (.unary "+" operand span) =
      if env.isBase "+" then (eval env operand).bind (applyUnary env "+")
      else env.masked "+" [operand] := by
  rw [eval, if_neg (by simp)]

theorem eval_dollar (hbase : env.isBase "$" = true) (base : Cst) (name : String) (span : Span) :
    eval env (.extract "$" base name span) =
      (eval env base).bind fun v => applyDollar env v name := by
  rw [eval, if_neg (by simp), if_pos hbase]

/-- A node is its core, or a unary plus over a node with that core. -/
theorem plusCore_cases (node : Cst) :
    (node.isPlus = false ∧ node.plusCore = node) ∨
      ∃ operand span, node = .unary "+" operand span ∧ node.plusCore = operand.plusCore := by
  cases node with
  | unary operator operand span =>
    by_cases hplus : operator = "+"
    · subst hplus
      exact .inr ⟨operand, span, rfl, rfl⟩
    · exact .inl ⟨decide_eq_false hplus, by rw [Cst.plusCore, if_neg hplus]⟩
  | _ => exact .inl ⟨rfl, rfl⟩

/-- A property of the core's value that unary plus keeps. -/
theorem eval_of_plusCore {P : Outcome → Prop} (node : Cst) (hcore : P (eval env node.plusCore))
    (hplus : node.isPlus = true → ∀ operand span, P (eval env operand) →
      P (eval env (.unary "+" operand span))) : P (eval env node) := by
  induction node using Cst.induction with
  | h node ih =>
    rcases plusCore_cases node with ⟨-, heq⟩ | ⟨operand, span, rfl, heq⟩
    · rwa [heq] at hcore
    · have hstep := hplus rfl
      rw [heq] at hcore
      exact hstep operand span (ih operand (by simp [Cst.children]) hcore fun _ => hstep)

theorem eval_error_of_plusCore {node : Cst} (hbase : node.isPlus = true → env.isBase "+" = true)
    (h : eval env node.plusCore = .error) : eval env node = .error := by
  refine eval_of_plusCore (P := fun o => o = .error) node h fun hplus operand span hoperand => ?_
  rw [eval_plus, hbase hplus, if_pos rfl, hoperand, Outcome.bind_error]

/-- A value that base unary plus does not take. -/
theorem eval_or_error_of_plusCore {node : Cst} {v : RValue}
    (hbase : node.isPlus = true → env.isBase "+" = true) (hcls : v.cls = [])
    (hstorage : isNumericStorage v.storage = false) (h : eval env node.plusCore = .value v) :
    eval env node = .value v ∨ eval env node = .error := by
  refine eval_of_plusCore (P := fun o => o = .value v ∨ o = .error) node (.inl h)
    fun hplus operand span hoperand => .inr ?_
  rw [eval_plus, hbase hplus, if_pos rfl]
  rcases hoperand with hoperand | hoperand
  · rw [hoperand, Outcome.bind_value, applyUnary, if_neg (not_not.mpr hcls), hstorage,
      if_neg Bool.false_ne_true]
  · rw [hoperand, Outcome.bind_error]

def IsNumber (o : Outcome) : Prop :=
  ∃ w : RValue, o = .value w ∧ w.cls = [] ∧ isNumericStorage w.storage = true

theorem isNumber_literal {node : Cst} (h : isLiteralNode node = true) : IsNumber (eval env node) := by
  cases node with
  | logical value span => exact ⟨_, rfl, rfl, rfl⟩
  | number token span =>
    cases token with
    | integer value => exact ⟨_, rfl, rfl, rfl⟩
    | double bits => exact ⟨_, rfl, rfl, rfl⟩
    | unsupported => cases h
  | _ => cases h

theorem isNumber_of_plusCore {node : Cst} (hbase : node.isPlus = true → env.isBase "+" = true)
    (h : isLiteralNode node.plusCore = true) : IsNumber (eval env node) := by
  refine eval_of_plusCore node (isNumber_literal h) fun hplus operand span hoperand => ?_
  obtain ⟨w, hw, hcls, hstorage⟩ := hoperand
  rw [eval_plus, hbase hplus, if_pos rfl, hw, Outcome.bind_value, applyUnary,
    if_neg (not_not.mpr hcls), if_pos hstorage]
  refine ⟨_, rfl, hcls, ?_⟩
  show isNumericStorage (if w.storage = .logical then .integer else w.storage) = true
  split
  · rfl
  · exact hstorage

end Eval

/-! ## Faithful contracts are honest -/

section Honest

variable {params : List Param} {formal : Nat} {env : Env} {v : RValue}

theorem eval_identifier {node : Cst} (h : FormalNode params formal node)
    (hidentifier : node.isIdentifier = true) :
    eval env node = env.lookup (formalName params formal) := by
  cases h with
  | identifier text span hname => rw [eval, hname]
  | namespaced package operator name span => cases hidentifier

theorem eval_receiver_error {node : Cst} (h : ReceiverNode params formal node)
    (hreads : readsReceiver node = true) (hbase : env.isBase "$" = true)
    (hlookup : env.lookup (formalName params formal) = .value v) (hcls : v.cls = [])
    (hatomic : isAtomicStorage v.storage = true) : eval env node = .error := by
  obtain ⟨base, name, span, hformal⟩ := h
  rw [eval_dollar hbase, eval_identifier hformal hreads, hlookup, Outcome.bind_value, applyDollar,
    if_neg (not_not.mpr hcls), if_pos hatomic]

theorem rejects_arithmetic (h : Demand.arithmeticOperand.rejects v.storage = true) :
    isNumericStorage v.storage = false ∧ takesPart v = false := by
  rw [takesPart]
  cases hstorage : v.storage <;> rw [hstorage] at h <;> first | exact ⟨rfl, rfl⟩ | cases h

theorem applyArithmetic_left {w : RValue} (operator : String) (hcls : v.cls = []) (hw : w.cls = [])
    (htakes : takesPart v = false) : applyArithmetic env operator v w = .error := by
  rw [applyArithmetic, if_neg (not_or.mpr ⟨not_not.mpr hcls, not_not.mpr hw⟩), htakes,
    Bool.false_and, if_neg Bool.false_ne_true]

theorem applyArithmetic_right {w : RValue} (operator : String) (hcls : v.cls = []) (hw : w.cls = [])
    (htakes : takesPart v = false) : applyArithmetic env operator w v = .error := by
  rw [applyArithmetic, if_neg (not_or.mpr ⟨not_not.mpr hw, not_not.mpr hcls⟩), htakes,
    Bool.and_false, if_neg Bool.false_ne_true]

theorem operand_not_literal {demand : Demand} {node : Cst}
    (h : OperandNode params formal demand node) : isLiteralNode node = false := by
  rcases h with ⟨⟨⟩ | ⟨⟩⟩ | ⟨⟨⟩⟩ <;> rfl

/-- A demanded operand on the left. -/
theorem eval_left_error {demand : Demand} {operator : String} {operatorSpan span : Span}
    {lhs rhs : Cst} {op : BinOpKind} (hop : binOpKind operator = some op)
    (harithmetic : op.isArithmetic = true) (hlhs : OperandNode params formal demand lhs)
    (hrhs : isLiteralNode rhs.plusCore = true)
    (hfaithful : FaithfulOperation (CallContract.demand formal demand (some op)).operators
      (.binary operator operatorSpan lhs rhs span))
    (hbase : ∀ operator ∈ (CallContract.demand formal demand (some op)).operators,
      env.isBase operator = true)
    (hlookup : env.lookup (formalName params formal) = .value v) (hcls : v.cls = [])
    (hrejects : demand.rejects v.storage = true) :
    eval env (.binary operator operatorSpan lhs rhs span) = .error := by
  have hsymbol : env.isBase op.symbol = true := hbase _ (by simp [CallContract.operators])
  rw [eval_binary hop harithmetic hsymbol]
  rw [FaithfulOperation, operand_not_literal hlhs, if_neg Bool.false_ne_true] at hfaithful
  obtain ⟨hread, hplus⟩ := hfaithful
  cases hlhs with
  | formal hformal =>
    have hidentifier : lhs.isIdentifier = true := hread.resolve_right (by cases hformal <;> exact nofun)
    have hrbase : rhs.isPlus = true → env.isBase "+" = true := by
      intro h
      exact hbase _ ((hplus h).resolve_right (by cases hformal <;> exact nofun))
    obtain ⟨w, hw, hwcls, -⟩ := isNumber_of_plusCore hrbase hrhs
    rw [eval_identifier hformal hidentifier, hlookup, Outcome.bind_value, hw, Outcome.bind_value]
    exact applyArithmetic_left _ hcls hwcls (rejects_arithmetic hrejects).2
  | receiver hreceiver =>
    have hdollar : env.isBase "$" = true := hbase _ (by simp [CallContract.operators])
    have hreads : readsReceiver lhs = true := hread.resolve_left (by cases hreceiver; exact nofun)
    rw [eval_receiver_error hreceiver hreads hdollar hlookup hcls hrejects, Outcome.bind_error]

/-- A demanded operand on the right. -/
theorem eval_right_error {demand : Demand} {operator : String} {operatorSpan span : Span}
    {lhs rhs : Cst} {op : BinOpKind} (hop : binOpKind operator = some op)
    (harithmetic : op.isArithmetic = true) (hlhs : isLiteralNode lhs = true)
    (hrhs : OperandNode params formal demand rhs.plusCore)
    (hfaithful : FaithfulOperation (CallContract.demand formal demand (some op)).operators
      (.binary operator operatorSpan lhs rhs span))
    (hbase : ∀ operator ∈ (CallContract.demand formal demand (some op)).operators,
      env.isBase operator = true)
    (hlookup : env.lookup (formalName params formal) = .value v) (hcls : v.cls = [])
    (hrejects : demand.rejects v.storage = true) :
    eval env (.binary operator operatorSpan lhs rhs span) = .error := by
  have hsymbol : env.isBase op.symbol = true := hbase _ (by simp [CallContract.operators])
  rw [eval_binary hop harithmetic hsymbol]
  rw [FaithfulOperation, if_pos hlhs] at hfaithful
  obtain ⟨hread, hplus⟩ := hfaithful
  have hrbase : rhs.isPlus = true → env.isBase "+" = true := fun h => hbase _ (hplus h)
  have hnumber : IsNumber (eval env lhs) := isNumber_literal hlhs
  obtain ⟨w, hw, hwcls, -⟩ := hnumber
  rw [hw, Outcome.bind_value]
  generalize hcore : rhs.plusCore = core at hrhs hread
  cases hrhs with
  | formal hformal =>
    have hidentifier : core.isIdentifier = true := hread.resolve_right (by cases hformal <;> exact nofun)
    have hvalue : eval env rhs.plusCore = .value v := by
      rw [hcore, eval_identifier hformal hidentifier, hlookup]
    obtain ⟨hnumeric, htakes⟩ := rejects_arithmetic hrejects
    rcases eval_or_error_of_plusCore hrbase hcls hnumeric hvalue with h | h
    · rw [h, Outcome.bind_value]
      exact applyArithmetic_right _ hcls hwcls htakes
    · rw [h, Outcome.bind_error]
  | receiver hreceiver =>
    have hdollar : env.isBase "$" = true := hbase _ (by simp [CallContract.operators])
    have hreads : readsReceiver core = true := hread.resolve_left (by cases hreceiver; exact nofun)
    have herror : eval env rhs.plusCore = .error := by
      rw [hcore, eval_receiver_error hreceiver hreads hdollar hlookup hcls hrejects]
    rw [eval_error_of_plusCore hrbase herror, Outcome.bind_error]

theorem honest_of_faithful {body : Cst} {c : CallContract} (hshape : Shape params body c)
    (h : Faithful body c) : Honest params body c := by
  cases hshape with
  | jump kind span formal => cases h
  | identity hformal =>
    intro env
    have hidentifier : body.isIdentifier = true := h
    rcases plusCore_cases body with ⟨-, heq⟩ | ⟨operand, span, rfl, -⟩
    · exact eval_identifier (heq ▸ hformal) hidentifier
    · cases hidentifier
  | receiver hreceiver =>
    intro env hbase v hlookup hcls hrejects
    have hreads : readsReceiver body.plusCore = true := by
      have hoperation := h.2
      generalize body.plusCore = core at hreceiver hoperation
      cases hreceiver
      exact hoperation
    refine eval_error_of_plusCore (fun hplus => hbase _ (h.1 hplus)) ?_
    exact eval_receiver_error hreceiver hreads (hbase _ (by simp [CallContract.operators])) hlookup
      hcls hrejects
  | left hcore hop harithmetic hlhs hrhs =>
    intro env hbase v hlookup hcls hrejects
    refine eval_error_of_plusCore (fun hplus => hbase _ (h.1 hplus)) ?_
    rw [hcore]
    exact eval_left_error hop harithmetic hlhs hrhs (hcore ▸ h.2) hbase hlookup hcls hrejects
  | right hcore hop harithmetic hlhs hrhs =>
    intro env hbase v hlookup hcls hrejects
    refine eval_error_of_plusCore (fun hplus => hbase _ (h.1 hplus)) ?_
    rw [hcore]
    exact eval_right_error hop harithmetic hlhs hrhs (hcore ▸ h.2) hbase hlookup hcls hrejects

end Honest

/-! ## Honest contracts are faithful -/

/-- What a masking operator returns. -/
def shadow : RValue := ⟨.list, 1, ["shadow"], [], []⟩

/-- The listed operators are base and every other binding returns an object whose methods accept
anything. -/
def shadowEnv (operators : List String) : Env where
  lookup _ := .value (scalarOf .character)
  namespaced _ _ _ := .value shadow
  isBase operator := operator ∈ operators
  masked _ _ := .value shadow
  dispatch _ _ := .value shadow
  arithmetic _ _ _ := .value shadow
  field _ _ := .value shadow
  other _ := .value shadow

section Shadow

variable {operators : List String} {params : List Param} {formal : Nat} {node : Cst}

theorem eval_plus_shadow (operand : Cst) (span : Span)
    (h : eval (shadowEnv operators) operand = .value shadow) :
    eval (shadowEnv operators) (.unary "+" operand span) = .value shadow := by
  rw [eval_plus]
  split
  · rw [h]
    rfl
  · rfl

theorem eval_shadow_of_plusCore (h : eval (shadowEnv operators) node.plusCore = .value shadow) :
    eval (shadowEnv operators) node = .value shadow :=
  eval_of_plusCore (P := fun o => o = .value shadow) node h fun _ operand span =>
    eval_plus_shadow operand span

/-- An erased plus that is not listed hides whatever it is applied to. -/
theorem eval_shadow_of_isPlus (hplus : node.isPlus = true) (hlisted : "+" ∉ operators) :
    eval (shadowEnv operators) node = .value shadow := by
  rcases plusCore_cases node with ⟨hnot, -⟩ | ⟨operand, span, rfl, -⟩
  · rw [hplus] at hnot
    cases hnot
  · rw [eval_plus, if_neg]
    · rfl
    · exact fun hbase => hlisted (of_decide_eq_true hbase)

theorem eval_formal_shadow (h : FormalNode params formal node)
    (hnot : node.isIdentifier = false) : eval (shadowEnv operators) node = .value shadow := by
  cases h with
  | identifier text span hname => cases hnot
  | namespaced package operator name span => rfl

theorem eval_receiver_shadow (h : ReceiverNode params formal node)
    (hnot : readsReceiver node = false) (hdollar : "$" ∈ operators) :
    eval (shadowEnv operators) node = .value shadow := by
  obtain ⟨base, name, span, hformal⟩ := h
  rw [eval_dollar (decide_eq_true hdollar), eval_formal_shadow hformal hnot]
  rfl

/-- An operand that is not the formal. -/
theorem eval_operand_shadow {demand : Demand} {arithmetic : Option BinOpKind}
    (h : OperandNode params formal demand node)
    (hnot : node.isIdentifier = false ∧ readsReceiver node = false) :
    eval (shadowEnv (CallContract.demand formal demand arithmetic).operators) node =
      .value shadow := by
  cases h with
  | formal hformal => exact eval_formal_shadow hformal hnot.1
  | receiver hreceiver =>
    exact eval_receiver_shadow hreceiver hnot.2 (by simp [CallContract.operators])

theorem applyArithmetic_shadow (operator : String) (v w : RValue) (h : v = shadow ∨ w = shadow) :
    applyArithmetic (shadowEnv operators) operator v w = .value shadow := by
  rw [applyArithmetic, if_pos]
  · rfl
  · rcases h with rfl | rfl
    · exact .inl nofun
    · exact .inr nofun

/-- A literal, whatever is in front of it, has a value. -/
theorem exists_value_of_literal (operators : List String)
    (h : isLiteralNode node.plusCore = true) :
    ∃ w, eval (shadowEnv operators) node = .value w := by
  by_cases hlisted : "+" ∈ operators
  · have hnumber : IsNumber (eval (shadowEnv operators) node) :=
      isNumber_of_plusCore (fun _ => decide_eq_true hlisted) h
    obtain ⟨w, hw, -⟩ := hnumber
    exact ⟨w, hw⟩
  · cases hplus : node.isPlus with
    | true => exact ⟨shadow, eval_shadow_of_isPlus hplus hlisted⟩
    | false =>
      have hnumber : IsNumber (eval (shadowEnv operators) node) :=
        isNumber_of_plusCore (fun h => absurd (hplus.symm.trans h) nofun) h
      obtain ⟨w, hw, -⟩ := hnumber
      exact ⟨w, hw⟩

variable {demand : Demand} {op : BinOpKind} {operator : String} {operatorSpan span : Span}
  {lhs rhs : Cst}

/-- Without its operands the operation does not fail. -/
theorem eval_left_shadow (hop : binOpKind operator = some op) (harithmetic : op.isArithmetic = true)
    (hlhs : OperandNode params formal demand lhs) (hrhs : isLiteralNode rhs.plusCore = true)
    (h : ¬ FaithfulOperation (CallContract.demand formal demand (some op)).operators
      (.binary operator operatorSpan lhs rhs span)) :
    eval (shadowEnv (CallContract.demand formal demand (some op)).operators)
      (.binary operator operatorSpan lhs rhs span) = .value shadow := by
  rw [eval_binary hop harithmetic (decide_eq_true (by simp [CallContract.operators]))]
  rw [FaithfulOperation, operand_not_literal hlhs, if_neg Bool.false_ne_true, not_and_or] at h
  obtain ⟨w, hw⟩ :=
    exists_value_of_literal (CallContract.demand formal demand (some op)).operators hrhs
  by_cases hread : lhs.isIdentifier = true ∨ readsReceiver lhs = true
  · have hplus := h.resolve_left (not_not.mpr hread)
    rw [Classical.not_imp, not_or, Bool.not_eq_true] at hplus
    obtain ⟨hisPlus, hlisted, hreceiver⟩ := hplus
    cases hlhs with
    | formal hformal =>
      have hidentifier := hread.resolve_right (by rw [hreceiver]; exact nofun)
      rw [eval_identifier hformal hidentifier, eval_shadow_of_isPlus hisPlus hlisted]
      exact applyArithmetic_shadow _ (scalarOf .character) _ (.inr rfl)
    | receiver hreceiverNode =>
      have hidentifier := hread.resolve_right (by rw [hreceiver]; exact nofun)
      cases hreceiverNode
      cases hidentifier
  · rw [not_or, Bool.not_eq_true, Bool.not_eq_true] at hread
    rw [eval_operand_shadow hlhs hread, Outcome.bind_value, hw, Outcome.bind_value]
    exact applyArithmetic_shadow _ _ _ (.inl rfl)

theorem eval_right_shadow (hop : binOpKind operator = some op) (harithmetic : op.isArithmetic = true)
    (hlhs : isLiteralNode lhs = true) (hrhs : OperandNode params formal demand rhs.plusCore)
    (h : ¬ FaithfulOperation (CallContract.demand formal demand (some op)).operators
      (.binary operator operatorSpan lhs rhs span)) :
    eval (shadowEnv (CallContract.demand formal demand (some op)).operators)
      (.binary operator operatorSpan lhs rhs span) = .value shadow := by
  rw [eval_binary hop harithmetic (decide_eq_true (by simp [CallContract.operators]))]
  rw [FaithfulOperation, if_pos hlhs, not_and_or] at h
  have hnumber : IsNumber (eval (shadowEnv (CallContract.demand formal demand (some op)).operators)
      lhs) := isNumber_literal hlhs
  obtain ⟨w, hw, -⟩ := hnumber
  have hshadow : eval (shadowEnv (CallContract.demand formal demand (some op)).operators) rhs =
      .value shadow := by
    rcases h with hread | hplus
    · rw [not_or, Bool.not_eq_true, Bool.not_eq_true] at hread
      exact eval_shadow_of_plusCore (eval_operand_shadow hrhs hread)
    · rw [Classical.not_imp] at hplus
      exact eval_shadow_of_isPlus hplus.1 hplus.2
  rw [hw, Outcome.bind_value, hshadow, Outcome.bind_value]
  exact applyArithmetic_shadow _ _ _ (.inr rfl)

theorem honest_demand_shadow {body : Cst} {arithmetic : Option BinOpKind}
    (h : Honest params body (.demand formal demand arithmetic)) :
    eval (shadowEnv (CallContract.demand formal demand arithmetic).operators) body = .error := by
  refine h _ (fun operator hmem => decide_eq_true hmem) (scalarOf .character) rfl rfl ?_
  cases demand <;> rfl

theorem faithful_of_honest {body : Cst} {c : CallContract} (hshape : Shape params body c)
    (h : Honest params body c) : Faithful body c := by
  by_contra hnot
  have hplus : ∀ {operators : List String}, ¬ (body.isPlus = true → "+" ∈ operators) →
      eval (shadowEnv operators) body = .value shadow := by
    intro operators hnot
    rw [Classical.not_imp] at hnot
    exact eval_shadow_of_isPlus hnot.1 hnot.2
  cases hshape with
  | jump kind span formal =>
    have hvalue := h (shadowEnv [])
    cases hvalue
  | @identity _ formal hformal =>
    have hvalue := h (shadowEnv [])
    have hshadow : eval (shadowEnv []) body = .value shadow := by
      rcases plusCore_cases body with ⟨-, heq⟩ | ⟨operand, span, rfl, -⟩
      · rw [heq] at hformal
        exact eval_formal_shadow hformal (Bool.not_eq_true _ ▸ hnot)
      · exact eval_shadow_of_isPlus rfl List.not_mem_nil
    rw [hshadow] at hvalue
    cases hvalue
  | receiver hreceiver =>
    have herror := honest_demand_shadow h
    rw [Faithful, not_and_or] at hnot
    rcases hnot with hnot | hnot
    · rw [hplus hnot] at herror
      cases herror
    · have hreads : readsReceiver body.plusCore = false := by
        generalize body.plusCore = core at hreceiver hnot
        cases hreceiver
        exact Bool.not_eq_true _ ▸ hnot
      rw [eval_shadow_of_plusCore
        (eval_receiver_shadow hreceiver hreads (by simp [CallContract.operators]))] at herror
      cases herror
  | left hcore hop harithmetic hlhs hrhs =>
    have herror := honest_demand_shadow h
    rw [Faithful, not_and_or] at hnot
    rcases hnot with hnot | hnot
    · rw [hplus hnot] at herror
      cases herror
    · rw [hcore] at hnot
      rw [eval_shadow_of_plusCore (hcore ▸ eval_left_shadow hop harithmetic hlhs hrhs hnot)] at herror
      cases herror
  | right hcore hop harithmetic hlhs hrhs =>
    have herror := honest_demand_shadow h
    rw [Faithful, not_and_or] at hnot
    rcases hnot with hnot | hnot
    · rw [hplus hnot] at herror
      cases herror
    · rw [hcore] at hnot
      rw [eval_shadow_of_plusCore (hcore ▸ eval_right_shadow hop harithmetic hlhs hrhs hnot)] at herror
      cases herror

end Shadow

/-- A contract is right about every call exactly where the operators and the formal it was read
off are those of the source. -/
theorem honest_iff (mayWrite : List Param → String → Bool) (parameters : List CstParam) (body : Cst)
    (span : Span) (c : CallContract)
    (hspanned : (Cst.functionDefinition parameters body span).Spanned)
    (h : derive (lowerParams parameters) mayWrite (lowerBlock body) span = some c) :
    Honest (lowerParams parameters) body c ↔ Faithful body c := by
  have hshape := derive_shape hspanned h
  constructor
  · exact faithful_of_honest hshape
  · exact honest_of_faithful hshape

/-! ## `function(x) +x` -/

def plusParameters : List CstParam := [.mk "x" none ⟨9, 10, 0, 9⟩]

def plusBody : Cst := .unary "+" (.identifier "x" ⟨13, 14, 0, 13⟩) ⟨12, 14, 0, 12⟩

def plusSpan : Span := ⟨0, 14, 0, 0⟩

theorem spanned_plus : (Cst.functionDefinition plusParameters plusBody plusSpan).Spanned := by
  intro part hpart
  rcases hpart.cases with rfl | ⟨child, hchild, hpart⟩
  · rfl
  simp only [Cst.children, plusParameters, List.flatMap_cons, CstParam.defaults,
    Option.toList_none, List.flatMap_nil, List.nil_append, List.mem_singleton] at hchild
  subst hchild
  rcases hpart.cases with rfl | ⟨child, hchild, hpart⟩
  · exact ⟨by decide, rfl⟩
  obtain rfl := List.mem_singleton.mp hchild
  rcases hpart.cases with rfl | ⟨child, hchild, -⟩
  · trivial
  · exact absurd hchild List.not_mem_nil

theorem derive_plus : derive (lowerParams plusParameters) (fun _ _ => false) (lowerBlock plusBody)
    plusSpan = some (.identity 0) := by
  have hparams : lowerParams plusParameters = [.mk "x" none ⟨9, 10, 0, 9⟩] := by
    simp [plusParameters, lowerParams, lowerParam, lowerAlternative]
  have hbody : lowerBlock plusBody = [.expr (.ident "x" ⟨13, 14, 0, 13⟩)] := by
    simp [plusBody, lowerBlock, lowerStmt, lowerExpr, lowerUnary]
  rw [hparams, hbody]
  decide

theorem honest_iff_plus :
    Honest (lowerParams plusParameters) plusBody (.identity 0) ↔
      Faithful plusBody (.identity 0) :=
  honest_iff (fun _ _ => false) plusParameters plusBody plusSpan (.identity 0) spanned_plus
    derive_plus

/-- Base R with `x = TRUE`. -/
def baseEnv : Env where
  lookup _ := .value (scalarOf .logical)
  namespaced _ _ _ := .error
  isBase _ := true
  masked _ _ := .error
  dispatch _ _ := .error
  arithmetic _ _ _ := .error
  field _ _ := .error
  other _ := .error

/-- `+TRUE` is an integer. -/
theorem identity_not_honest :
    ¬ ∀ (mayWrite : List Param → String → Bool) (parameters : List CstParam) (body : Cst)
      (span : Span) (c : CallContract),
      (Cst.functionDefinition parameters body span).Spanned →
      derive (lowerParams parameters) mayWrite (lowerBlock body) span = some c →
        Honest (lowerParams parameters) body c := by
  intro h
  have hvalue := h (fun _ _ => false) plusParameters plusBody plusSpan (.identity 0) spanned_plus
    derive_plus baseEnv
  rw [plusBody, eval_plus] at hvalue
  cases hvalue

end Ry.Contract
