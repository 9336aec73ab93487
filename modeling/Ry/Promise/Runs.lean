import Ry.Promise.Frame
import Ry.Syntax.Lower

/-! # The runs of a function body around one formal

What a call does with the promise of one formal, read off the body's tree: R evaluates the
statements in order, an assignment's value before its target, the operands of an arithmetic
operator from left to right, the object of a subset before its subscripts, a condition before
an arm.  What a call runs, and what reading another name runs, is `reach`: it may do whatever
that relation allows.

The syntax operators are base R's.  `Quirk` lists the steps that are easily overlooked; a
setting says which of them its runs may take.
-/

namespace Ry.Promise

/-- What is known of a value: a logical whose truth is known, another number or logical, or
anything from outside. -/
inductive Value
  | logical (b : Bool)
  | atom
  | text
  | null
  | closure
  | object
deriving DecidableEq

def Value.isNumeric : Value → Bool
  | logical _ | atom => true
  | _ => false

inductive Ending
  | done (v : Value)
  | returned
  | jumped
  | failed
deriving DecidableEq

/-- `original` is the formal's own promise being evaluated; `other` is any other code. -/
inductive Event
  | original
  | bind (name : String)
  | other
deriving DecidableEq

/-- The formal's binding: its promise, that promise while it is evaluated, or a value. -/
inductive Slot
  | promise
  | pending
  | settled
deriving DecidableEq

/-- Where the promise comes from. -/
inductive Origin
  | actual
  | default (e : Cst)
  | omitted

/-- A statement of the body's own block, of an arm of an `if` there, of a block or loop below
those, or no statement. -/
inductive Position
  | outer
  | arm
  | nested
  | inner
deriving DecidableEq

namespace Position

def isStatement : Position → Bool
  | inner => false
  | _ => true

def ofArm : Position → Position
  | outer | arm => arm
  | nested => nested
  | inner => inner

end Position

inductive Quirk
  /-- `name := value`, a call of the function `:=`. -/
  | walrus (value : Cst)
  /-- An assignment to a name that is qualified, in parentheses or behind a plus, which calls a
  replacement function. -/
  | disguisedTarget
  /-- A unary plus on a string, `NULL` or a function, which is an error. -/
  | plusOnNonNumber
  /-- `return(..)` inside an expression, a loop or an inner block, spelled otherwise, or in code
  that is not followed. -/
  | hiddenReturn
  /-- The formal bound inside an expression, an arm or a loop, by the binder of a loop with an
  escape in it, or by code that is not followed. -/
  | hiddenBind
  /-- A pipe or `%in%` whose function leaves its operands alone. -/
  | lazyOperand (lhs rhs : Cst)
  /-- A subset method that leaves its subscripts alone. -/
  | lazySubscript (double : Bool) (arguments : List CstArg)
  /-- A local assignment used as a value, with a target that is no name. -/
  | innerTarget (target : Cst)
  /-- An outward assignment with a target that is no name. -/
  | outwardTarget (target : Cst)

/-- The token is a string's and no name's. -/
def isStringToken (token : String) : Bool :=
  token.toList.head? ∈ [some '"', some (Char.ofNat 39)]

/-- A formal's name as it is spelled in the formals, where no reserved word stands bare. -/
structure FormalName where
  raw : String
  notString : isStringToken raw = false
  notBreak : raw ≠ "break"
  notNext : raw ≠ "next"

/-! ## The contract of a head -/

/-- What a head documented to force its only argument calls that argument, and whether it may
be named. -/
structure ForceSpec where
  param : String
  allowNamed : Bool

def trimColons (text : List Char) : List Char := text.rdropWhile (· = ':')

/-- `qualified_signature`: the contract of a qualified head. -/
def qualifiedForce (force : String → String → Option ForceSpec) (name : String) :
    Option ForceSpec :=
  match rsplitOnceColons name.toList with
  | some (package, function) =>
    force (String.ofList (trimColons package)) (String.ofList function)
  | none => none

/-- Whether the only argument is one the contract speaks of. -/
def acceptsArgument (spec : ForceSpec) (name : Option String) (value : Expr) : Bool :=
  !(name.any fun name => !spec.allowNamed || name != spec.param) &&
    match value with
    | .unknown _ | .missing _ => false
    | .ident name _ => name != "..."
    | _ => true

/-- `forced_argument` -/
def forcedArgument (force : String → String → Option ForceSpec) (func : Expr) (args : List Arg) :
    Option Expr :=
  match Divergence.identName func with
  | none => none
  | some name =>
    match qualifiedForce force name with
    | none => none
    | some spec =>
      match args with
      | [.mk name value _] => if acceptsArgument spec name value then some value else none
      | _ => none

/-- The argument node `forcedArgument` speaks of. -/
def forcedOperand (force : String → String → Option ForceSpec) (function : Cst)
    (arguments : List CstArg) : Option Cst :=
  match forcedArgument force (lowerExpr function) (lowerArguments arguments), arguments with
  | some _, [.argument _ (some value) _] => some value
  | _, _ => none

structure Setting where
  /-- The name a token denotes. -/
  symbol : String → String
  symbol_bare : ∀ token : String, token.toList.head? ≠ some '\x60' → symbol token = token
  formal : FormalName
  formals : List Param
  /-- `return` is base R's. -/
  notReturn : symbol formal.raw ≠ "return"
  origin : Origin
  /-- What the stubs say of a qualified function: the package and the name. -/
  force : String → String → Option ForceSpec
  unqualified : qualifiedForce force formal.raw = none
  /-- What code that is not followed may do: the events, the ending and the slot after it. -/
  reach : Slot → List Event → Ending → Slot → Prop
  may : Quirk → Prop

namespace Setting

variable (g : Setting)

def name : String := g.symbol g.formal.raw

/-- The slot after a binding of `x`. -/
def bound (x : String) (s : Slot) : Slot := if x = g.name then .settled else s

/-- Whether the formal may be bound at `pos`. -/
def MayBind (pos : Position) (x : String) : Prop :=
  x = g.name → pos = .outer ∨ g.may .hiddenBind

/-- Whether the binder of a loop may be bound at `pos`. -/
def MayBindEach (pos : Position) (token : String) : Prop :=
  g.MayBind pos (g.symbol token) ∧
    (hasEscape token = true ∨ isStringToken token = true → g.may .hiddenBind)

/-- The name an assignment to `target` binds. -/
def boundName : Cst → Option String
  | .identifier text _ => if isStringToken text then none else some (g.symbol text)
  | .string value _ => some value
  | _ => none

/-- `Reaches pos n s t o s'`: a run of the code that `n` opens into, which is not followed.  It
binds the formal where `n` installs it or a default of the function does, and leaves the frame
where `n` dispatches. -/
structure Reaches (pos : Position) (n : Cst) (s : Slot) (t : List Event) (o : Ending)
    (s' : Slot) : Prop where
  reach : g.reach s t o s'
  bind : s' ≠ s →
    pos = .outer ∧
        installsInFrame (.expr (lowerExpr n)) = some (semanticArgumentName g.formal.raw) ∨
      defaultsMayWrite g.formals (semanticArgumentName g.formal.raw) = true ∨ g.may .hiddenBind
  leave : o = .returned →
    (pos = .outer ∨ pos = .arm) ∧ isDispatchCall (lowerExpr n) = true ∨ g.may .hiddenReturn

end Setting

/-! ## Forms -/

/-- The text of a name, qualified or not. -/
def nameText : Cst → Option String
  | .identifier text _ => some text
  | .namespaced package operator name _ => some (package ++ operator ++ name)
  | _ => none

def literalValue : Cst → Option Value
  | .logical b _ => some (.logical b)
  | .number .. | .na .. => some .atom
  | .string .. => some .text
  | .null _ => some .null
  | .functionDefinition .. => some .closure
  | _ => none

/-- The statements of a block, or the one statement there is. -/
def blockBody : Cst → List Cst
  | .braced _ body _ => body
  | node => [node]

/-- The target and the value of a local assignment. -/
def localAssignment : Cst → Option (Cst × Cst)
  | .binary operator _ lhs rhs _ =>
    if operator = "<-" ∨ operator = "=" then some (lhs, rhs)
    else if operator = "->" then some (rhs, lhs)
    else none
  | _ => none

/-- The target and the value of an outward assignment. -/
def outwardAssignment : Cst → Option (Cst × Cst)
  | .binary operator _ lhs rhs _ =>
    if operator = "<<-" then some (lhs, rhs) else if operator = "->>" then some (rhs, lhs) else none
  | _ => none

/-- The name whose value an assignment to a part of it changes. -/
def targetRoot : Cst → Option Cst
  | .extract _ lhs _ _ => targetRoot lhs
  | .subset _ function _ _ => targetRoot function
  | .identifier text span => some (.identifier text span)
  | _ => none

def eagerOperators : List String :=
  ["+", "-", "*", "**", "/", "^", "%%", "%/%", ":", "<", "<=", ">", ">=", "==", "!=", "&", "|"]

def lazyOperators : List String := ["%in%", "|>", "%>%", "%T>%", "%<>%"]

/-- The right operand is evaluated whatever it is. -/
def needsRhs (operator : String) (v : Value) : Prop :=
  operator = "&&" ∧ v = .logical true ∨ operator = "||" ∧ v = .logical false

/-- The text of a head, parentheses around it or not. -/
def headText : Cst → Option String
  | .parenthesized inner _ => headText inner
  | node => nameText node

def isBareName : Cst → Bool
  | .identifier .. => true
  | _ => false

/-- The subscripts that are evaluated where no method leaves them alone: a bare name under
`[` may be the empty subscript. -/
def eagerSubscripts (double : Bool) (arguments : List CstArg) : List Cst :=
  (arguments.flatMap CstArg.values).filter fun value => double || !isBareName value

/-! ## Runs -/

section Runs

variable (g : Setting)

/-- `Opens g pos node first`: the form evaluates `first` in order, and then code that is not
followed. -/
inductive Opens (pos : Position) : Cst → List Cst → Prop
  | call {function arguments span} :
      (∀ text, headText function = some text → g.symbol text ≠ "return") →
      Divergence.identName (lowerExpr function) ≠ some "return" →
      forcedOperand g.force function arguments = none →
      Opens pos (.call function arguments span) [function]
  | contract {function arguments span value} :
      forcedOperand g.force function arguments = some value → headText function ≠ none →
      Opens pos (.call function arguments span) [value]
  /-- A head behind a plus is an operand of it. -/
  | contractPlus {function arguments span value} :
      forcedOperand g.force function arguments = some value → headText function = none →
      g.may .plusOnNonNumber → Opens pos (.call function arguments span) []
  | eager {operator operatorSpan lhs rhs span} : operator ∈ eagerOperators →
      Opens pos (.binary operator operatorSpan lhs rhs span) [lhs, rhs]
  | lazily {operator operatorSpan lhs rhs span} : operator ∈ lazyOperators →
      g.may (.lazyOperand lhs rhs) → Opens pos (.binary operator operatorSpan lhs rhs span) []
  | eagerly {operator operatorSpan lhs rhs span} : operator ∈ lazyOperators →
      Opens pos (.binary operator operatorSpan lhs rhs span) [lhs, rhs]
  | walrus {operatorSpan lhs rhs span} :
      (pos.isStatement = true → lhs.isIdentifier = true → g.may (.walrus rhs)) →
      Opens pos (.binary ":=" operatorSpan lhs rhs span) [.identifier ":=" operatorSpan]
  /-- Any other operator is a call of its name. -/
  | custom {operator operatorSpan lhs rhs span} : binOpKind operator = none →
      operator ∉ assignOperators → operator ≠ "return" →
      Opens pos (.binary operator operatorSpan lhs rhs span) [.identifier operator operatorSpan]
  | negate {operator operand span} : operator = "-" ∨ operator = "!" →
      Opens pos (.unary operator operand span) [operand]
  | otherUnary {operator operand span} : operator ∉ ["-", "!", "+"] →
      Opens pos (.unary operator operand span) []
  | extract {operator lhs rhs span} : Opens pos (.extract operator lhs rhs span) [lhs]
  | subset {double function arguments span} : g.may (.lazySubscript double arguments) →
      Opens pos (.subset double function arguments span) [function]
  | subsetEager {double function arguments span} :
      Opens pos (.subset double function arguments span)
        (function :: eagerSubscripts double arguments)
  | replacement {node target value} : localAssignment node = some (target, value) →
      g.boundName target = none →
      (Divergence.identName (lowerExpr target) ≠ none → g.may .disguisedTarget) →
      (pos.isStatement = false → g.may (.innerTarget target)) →
      Opens pos node (value :: (targetRoot target).toList)
  | outward {node target value} : outwardAssignment node = some (target, value) →
      (g.boundName target = none → g.may (.outwardTarget target)) → Opens pos node [value]
  | other {span} : Opens pos (.other span) []

inductive Code
  | node (n : Cst)
  | stmts (ns : List Cst)
  | operands (ns : List Cst)
  | turns (token : String) (body : Cst)
  | whiles (condition body : Cst)

def Ending.isDone : Ending → Bool
  | .done _ => true
  | _ => false

/-- `Runs g pos code s t o s'`: a run of `code` at `pos` that starts with the formal in slot
`s` shows the events `t`, ends with `o` and leaves slot `s'`. -/
inductive Runs : Position → Code → Slot → List Event → Ending → Slot → Prop
  | literal {pos n v s} : literalValue n = some v → Runs pos (.node n) s [] (.done v) s
  -- names
  | otherName {pos n text s t o s'} : nameText n = some text → g.symbol text ≠ g.name →
      g.Reaches pos n s t o s' → Runs pos (.node n) s (.other :: t) o s'
  | settledName {pos n text t o s'} : nameText n = some text → g.symbol text = g.name →
      g.Reaches pos n .settled t o s' → Runs pos (.node n) .settled (.other :: t) o s'
  | pendingName {pos n text} : nameText n = some text → g.symbol text = g.name →
      Runs pos (.node n) .pending [.other] .failed .pending
  | actual {pos n text t o s'} : nameText n = some text → g.symbol text = g.name →
      g.origin = .actual → g.Reaches pos n .settled t o s' →
      Runs pos (.node n) .promise (.original :: t) o s'
  | omitted {pos n text} : nameText n = some text → g.symbol text = g.name →
      g.origin = .omitted → Runs pos (.node n) .promise [.original] .failed .promise
  | default {pos n text e t o s'} : nameText n = some text → g.symbol text = g.name →
      g.origin = .default e → Runs .inner (.node e) .pending t o s' →
      Runs pos (.node n) .promise (.original :: t) o .settled
  -- sequences
  | nil {pos s} : Runs pos (.stmts []) s [] (.done .null) s
  | last {pos n s t o s'} : Runs pos (.node n) s t o s' → Runs pos (.stmts [n]) s t o s'
  | cons {pos n m ns s t v s' t' o s''} : Runs pos (.node n) s t (.done v) s' →
      Runs pos (.stmts (m :: ns)) s' t' o s'' → Runs pos (.stmts (n :: m :: ns)) s (t ++ t') o s''
  | stop {pos n ns s t o s'} : Runs pos (.node n) s t o s' → o.isDone = false →
      Runs pos (.stmts (n :: ns)) s t o s'
  | braced {pos doubled body span s t o s'} : Runs .nested (.stmts body) s t o s' →
      Runs pos (.node (.braced doubled body span)) s t o s'
  | parenthesized {pos inside span s t o s'} : Runs .inner (.node inside) s t o s' →
      Runs pos (.node (.parenthesized inside span)) s t o s'
  | noOperands {s} : Runs .inner (.operands []) s [] (.done .object) s
  | operand {n ns s t v s' t' o s''} : Runs .inner (.node n) s t (.done v) s' →
      Runs .inner (.operands ns) s' t' o s'' → Runs .inner (.operands (n :: ns)) s (t ++ t') o s''
  | operandStops {n ns s t o s'} : Runs .inner (.node n) s t o s' → o.isDone = false →
      Runs .inner (.operands (n :: ns)) s t o s'
  -- forms that end in code that is not followed
  | opensStops {pos n first s t o s'} : Opens g pos n first →
      Runs .inner (.operands first) s t o s' → o.isDone = false → Runs pos (.node n) s t o s'
  | opens {pos n first s t v s' t' o s''} : Opens g pos n first →
      Runs .inner (.operands first) s t (.done v) s' → g.Reaches pos n s' t' o s'' →
      Runs pos (.node n) s (t ++ t') o s''
  -- `return`
  | returns {pos function arguments span text s t o s'} : headText function = some text →
      g.symbol text = "return" → forcedOperand g.force function arguments = none →
      (o.isDone = true →
        (text = "return" ∧ (pos = .outer ∨ pos = .arm)) ∨ g.may .hiddenReturn) →
      Runs .inner (.operands (arguments.take 1 |>.flatMap CstArg.values)) s t o s' →
      Runs pos (.node (.call function arguments span)) s t
        (if o.isDone then .returned else o) s'
  /-- `return` behind a plus: the plus fails. -/
  | plusReturn {pos function arguments span s} : headText function = none →
      Divergence.identName (lowerExpr function) = some "return" →
      Runs pos (.node (.call function arguments span)) s [.other] .failed s
  -- the unary plus
  | plusStops {pos operand span s t o s'} : Runs .inner (.node operand) s t o s' →
      o.isDone = false → Runs pos (.node (.unary "+" operand span)) s t o s'
  | plus {pos operand span s t v s'} : Runs .inner (.node operand) s t (.done v) s' →
      v.isNumeric = true → Runs pos (.node (.unary "+" operand span)) s t (.done v) s'
  | plusFails {pos operand span s t v s'} : Runs .inner (.node operand) s t (.done v) s' →
      v.isNumeric = false → v ≠ .object → g.may .plusOnNonNumber →
      Runs pos (.node (.unary "+" operand span)) s t .failed s'
  | plusDispatches {pos operand span s t s' t' o s''} :
      Runs .inner (.node operand) s t (.done .object) s' →
      g.Reaches pos (.unary "+" operand span) s' t' o s'' →
      Runs pos (.node (.unary "+" operand span)) s (t ++ t') o s''
  -- assignment to a name
  | assignStops {pos n target value s t o s'} : localAssignment n = some (target, value) →
      Runs .inner (.node value) s t o s' → o.isDone = false → Runs pos (.node n) s t o s'
  | assign {pos n target value x s t v s'} : localAssignment n = some (target, value) →
      g.boundName target = some x → g.MayBind pos x →
      Runs .inner (.node value) s t (.done v) s' →
      Runs pos (.node n) s (t ++ [.bind x]) (.done v) (g.bound x s')
  -- short circuits
  | lhsStops {pos operator operatorSpan lhs rhs span s t o s'} :
      operator = "&&" ∨ operator = "||" → Runs .inner (.node lhs) s t o s' → o.isDone = false →
      Runs pos (.node (.binary operator operatorSpan lhs rhs span)) s t o s'
  | shortCircuit {pos operator operatorSpan lhs rhs span s t v o s'} :
      operator = "&&" ∨ operator = "||" → Runs .inner (.node lhs) s t (.done v) s' →
      ¬ needsRhs operator v → o = .done .atom ∨ o = .failed →
      Runs pos (.node (.binary operator operatorSpan lhs rhs span)) s t o s'
  | rhsStops {pos operator operatorSpan lhs rhs span s t v s' t' o s''} :
      operator = "&&" ∨ operator = "||" → Runs .inner (.node lhs) s t (.done v) s' →
      Runs .inner (.node rhs) s' t' o s'' → o.isDone = false →
      Runs pos (.node (.binary operator operatorSpan lhs rhs span)) s (t ++ t') o s''
  | rhs {pos operator operatorSpan lhs rhs span s t v s' t' w o s''} :
      operator = "&&" ∨ operator = "||" → Runs .inner (.node lhs) s t (.done v) s' →
      Runs .inner (.node rhs) s' t' (.done w) s'' → o = .done .atom ∨ o = .failed →
      Runs pos (.node (.binary operator operatorSpan lhs rhs span)) s (t ++ t') o s''
  -- conditions
  | conditionStops {pos condition consequence alternative span s t o s'} :
      Runs .inner (.node condition) s t o s' → o.isDone = false →
      Runs pos (.node (.ifStatement condition consequence alternative span)) s t o s'
  | conditionFails {pos condition consequence alternative span s t v s'} :
      Runs .inner (.node condition) s t (.done v) s' → v ≠ .logical true → v ≠ .logical false →
      Runs pos (.node (.ifStatement condition consequence alternative span)) s t .failed s'
  | consequence {pos condition consequence alternative span s t v s' t' o s''} :
      Runs .inner (.node condition) s t (.done v) s' → v ≠ .logical false →
      Runs pos.ofArm (if pos.isStatement then .stmts (blockBody consequence)
        else .node consequence) s' t' o s'' →
      Runs pos (.node (.ifStatement condition consequence alternative span)) s (t ++ t') o s''
  | alternative {pos condition consequence alternative span s t v s' t' o s''} :
      Runs .inner (.node condition) s t (.done v) s' → v ≠ .logical true →
      Runs pos.ofArm (if pos.isStatement then .stmts (blockBody alternative)
        else .node alternative) s' t' o s'' →
      Runs pos (.node (.ifStatement condition consequence (some alternative) span)) s (t ++ t') o s''
  | noAlternative {pos condition consequence span s t v s'} :
      Runs .inner (.node condition) s t (.done v) s' → v ≠ .logical true →
      Runs pos (.node (.ifStatement condition consequence none span)) s t (.done .null) s'
  -- loops
  | sequenceStops {pos token tokenSpan sequence body span s t o s'} :
      Runs .inner (.node sequence) s t o s' → o.isDone = false →
      Runs pos (.node (.forStatement token tokenSpan sequence body span)) s t o s'
  | forLoop {pos token tokenSpan sequence body span s t v s' t' o s''} :
      Runs .inner (.node sequence) s t (.done v) s' → Runs pos (.turns token body) s' t' o s'' →
      Runs pos (.node (.forStatement token tokenSpan sequence body span)) s (t ++ t') o s''
  | turnsEnd {pos token body s} : Runs pos (.turns token body) s [] (.done .null) s
  | turn {pos token body s t o s' t' o' s''} : g.MayBindEach pos token →
      Runs .nested (.stmts (blockBody body)) (g.bound (g.symbol token) s) t o s' →
      o.isDone = true ∨ o = .jumped → Runs pos (.turns token body) s' t' o' s'' →
      Runs pos (.turns token body) s (.bind (g.symbol token) :: t ++ t') o' s''
  | turnStops {pos token body s t o s'} : g.MayBindEach pos token →
      Runs .nested (.stmts (blockBody body)) (g.bound (g.symbol token) s) t o s' →
      o.isDone = false → o ≠ .jumped →
      Runs pos (.turns token body) s (.bind (g.symbol token) :: t) o s'
  | whileLoop {pos condition body span s t o s'} : Runs pos (.whiles condition body) s t o s' →
      Runs pos (.node (.whileStatement condition body span)) s t o s'
  | repeatLoop {pos body span s t o s'} :
      Runs pos (.whiles (.logical true span) body) s t o s' →
      Runs pos (.node (.repeatStatement body span)) s t o s'
  | testStops {pos condition body s t o s'} : Runs .inner (.node condition) s t o s' →
      o.isDone = false → Runs pos (.whiles condition body) s t o s'
  | testEnds {pos condition body s t v o s'} : Runs .inner (.node condition) s t (.done v) s' →
      v ≠ .logical true → o = .done .null ∨ o = .failed → Runs pos (.whiles condition body) s t o s'
  | testBody {pos condition body s t v s' t' o s'' t'' o' s'''} :
      Runs .inner (.node condition) s t (.done v) s' → v ≠ .logical false →
      Runs .nested (.stmts (blockBody body)) s' t' o s'' → o.isDone = true ∨ o = .jumped →
      Runs pos (.whiles condition body) s'' t'' o' s''' →
      Runs pos (.whiles condition body) s (t ++ t' ++ t'') o' s'''
  | testBodyEnds {pos condition body s t v s' t' o s''} :
      Runs .inner (.node condition) s t (.done v) s' → v ≠ .logical false →
      Runs .nested (.stmts (blockBody body)) s' t' o s'' → o.isDone = false →
      Runs pos (.whiles condition body) s (t ++ t') (if o = .jumped then .done .null else o) s''
  | jump {pos kind span s} : Runs pos (.node (.jump kind span)) s [] .jumped s

end Runs

end Ry.Promise
