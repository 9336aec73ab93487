import Ry.Infer.Diverges
import Ry.Syntax.Walk

/-! # What a `missing()` test proves of a formal

The facts of `supply.rs` about one formal, the decoding of a condition into a fact for each arm,
and what two arms leave behind.
-/

namespace Ry.FormalSupply

/-- What a `missing()` view proves about one formal's value. -/
inductive Supply
  /-- No test dominates: the value may still be the default. -/
  | untested
  /-- The caller supplied the argument.  Reads are safe. -/
  | supplied
  /-- The caller omitted the argument, so a read forwards the default. -/
  | defaulted
deriving DecidableEq

namespace Supply

/-- The fact that holds on both inputs. -/
def merge (a b : Supply) : Supply := if a = b then a else untested

/-- The more specific of two facts, where both must hold. -/
def refine (a b : Supply) : Supply := if a = untested then b else a

def mayReadDefault : Supply → Bool
  | supplied => false
  | untested | defaulted => true

@[simp] theorem mayReadDefault_iff (a : Supply) : a.mayReadDefault = true ↔ a ≠ supplied := by
  cases a <;> simp [mayReadDefault]

/-- Two facts meet in `supplied` only where both are. -/
theorem merge_eq_supplied {a b : Supply} : a.merge b = supplied ↔ a = supplied ∧ b = supplied := by
  cases a <;> cases b <;> decide

end Supply

/-- The state of one formal.  `alive` is `none` when every path rebound the name.  `proxies` holds
the cached tests `m <- missing(p)` and `m <- !missing(p)` by name: whether the binding holds the
negation. -/
structure SupplyPoint where
  alive : Option Supply
  proxies : String → Option Bool

namespace SupplyPoint

def new : SupplyPoint := ⟨some .untested, fun _ => none⟩

/-- A read here may forward the default. -/
def Open (point : SupplyPoint) : Prop := point.alive.any Supply.mayReadDefault = true

instance (point : SupplyPoint) : Decidable point.Open := inferInstanceAs (Decidable (_ = true))

end SupplyPoint

/-- Outcome of decomposing one condition subtree. -/
inductive AtomOutcome
  /-- The facts of the two arms. -/
  | test (thenFact elseFact : Supply)
  /-- The subtree contains no supply test for this formal. -/
  | noInfo
  /-- A supply test in a shape the walker cannot decode. -/
  | mention
deriving DecidableEq

namespace AtomOutcome

def facts : AtomOutcome → Supply × Supply
  | test thenFact elseFact => (thenFact, elseFact)
  | noInfo | mention => (.untested, .untested)

def combineAnd : AtomOutcome → AtomOutcome → AtomOutcome
  | mention, _ | _, mention => mention
  | noInfo, noInfo => noInfo
  | a, b => test (a.facts.1.refine b.facts.1) (a.facts.2.merge b.facts.2)

def combineOr : AtomOutcome → AtomOutcome → AtomOutcome
  | mention, _ | _, mention => mention
  | noInfo, noInfo => noInfo
  | a, b => test (a.facts.1.merge b.facts.1) (a.facts.2.refine b.facts.2)

/-- The facts with the arms exchanged, under a negation. -/
def swapped : AtomOutcome → AtomOutcome
  | test thenFact elseFact => test elseFact thenFact
  | other => other

theorem combineAnd_ne_mention {a b : AtomOutcome} (h : a.combineAnd b ≠ mention) :
    a ≠ mention ∧ b ≠ mention := by
  constructor
  · rintro rfl
    exact h rfl
  · rintro rfl
    cases a <;> exact h rfl

theorem combineOr_ne_mention {a b : AtomOutcome} (h : a.combineOr b ≠ mention) :
    a ≠ mention ∧ b ≠ mention := by
  constructor
  · rintro rfl
    exact h rfl
  · rintro rfl
    cases a <;> exact h rfl

theorem facts_combineAnd {a b : AtomOutcome} (h : a.combineAnd b ≠ mention) :
    (a.combineAnd b).facts = (a.facts.1.refine b.facts.1, a.facts.2.merge b.facts.2) := by
  obtain ⟨ha, hb⟩ := combineAnd_ne_mention h
  cases a <;> cases b <;> first | rfl | contradiction

theorem facts_combineOr {a b : AtomOutcome} (h : a.combineOr b ≠ mention) :
    (a.combineOr b).facts = (a.facts.1.merge b.facts.1, a.facts.2.refine b.facts.2) := by
  obtain ⟨ha, hb⟩ := combineOr_ne_mention h
  cases a <;> cases b <;> first | rfl | contradiction

theorem combineAnd_eq_noInfo {a b : AtomOutcome} (h : a.combineAnd b = noInfo) :
    a = noInfo ∧ b = noInfo := by
  cases a <;> cases b <;> first | exact ⟨rfl, rfl⟩ | cases h

theorem combineOr_eq_noInfo {a b : AtomOutcome} (h : a.combineOr b = noInfo) :
    a = noInfo ∧ b = noInfo := by
  cases a <;> cases b <;> first | exact ⟨rfl, rfl⟩ | cases h

@[simp] theorem swapped_eq_noInfo {a : AtomOutcome} : a.swapped = noInfo ↔ a = noInfo := by
  cases a <;> simp [swapped]

@[simp] theorem swapped_eq_mention {a : AtomOutcome} : a.swapped = mention ↔ a = mention := by
  cases a <;> simp [swapped]

theorem facts_swapped (a : AtomOutcome) : a.swapped.facts = (a.facts.2, a.facts.1) := by
  cases a <;> rfl

end AtomOutcome

/-! ## Tests -/

section Tests

variable (formal : String)

/-- `missing`, bare or namespace-qualified. -/
def isMissingHead (func : Expr) : Bool :=
  (Divergence.identName func).any fun name => Divergence.bareName name = "missing"

def namesFormal : AstNode → Bool
  | .expr (.ident name _) => name = formal
  | _ => false

def referencesFormal (e : Expr) : Bool := anyInExpr .all (namesFormal formal) e

/-- The direct call `missing(<this formal>)`. -/
def isMissingTestCall (func : Expr) (args : List Arg) : Bool :=
  args.length = 1 && isMissingHead func &&
    args.head?.any fun arg => referencesFormal formal arg.value

def isMissingTest : Expr → Bool
  | .call func args _ => isMissingTestCall formal func args
  | _ => false

def supplyTestNode (proxies : String → Option Bool) : AstNode → Bool
  | .expr (.call func args _) => isMissingTestCall formal func args
  | .expr (.ident name _) => (proxies name).isSome
  | _ => false

/-- Whether any subexpression is a `missing(p)` call or a cached test. -/
def mentionsSupplyTest (e : Expr) (point : SupplyPoint) : Bool :=
  anyInExpr .all (supplyTestNode formal point.proxies) e

/-- The test outcome for `missing(p)` under `polarity`. -/
def missingAtom (polarity : Bool) : AtomOutcome :=
  .test (if polarity then .defaulted else .supplied) (if polarity then .supplied else .defaulted)

def mentionAtom (e : Expr) (point : SupplyPoint) : AtomOutcome :=
  if mentionsSupplyTest formal e point then .mention else .noInfo

/-- Decompose a condition under `polarity`, which says whether the enclosing condition asserts the
subtree's truth. -/
def atom (e : Expr) (polarity : Bool) (point : SupplyPoint) : AtomOutcome :=
  match e with
  | .unaryOp .not e _ => atom e (!polarity) point
  | .call func args span =>
    if isMissingTestCall formal func args then missingAtom polarity
    else mentionAtom formal (.call func args span) point
  | .ident name _ =>
    match point.proxies name with
    | some negated => missingAtom (polarity != negated)
    | none => .noInfo
  | .binOp .andAnd lhs rhs _ =>
    let combined := (atom lhs true point).combineAnd (atom rhs true point)
    if polarity then combined else combined.swapped
  | .binOp .orOr lhs rhs _ =>
    let combined := (atom lhs true point).combineOr (atom rhs true point)
    if polarity then combined else combined.swapped
  | other => mentionAtom formal other point
termination_by structural e

/-- The test an assigned value is: `missing(p)`, or its negation. -/
def cachedTest : Expr → Option Bool
  | .unaryOp .not e _ => if isMissingTest formal e then some true else none
  | e => if isMissingTest formal e then some false else none

end Tests

/-! ## Arms -/

/-- The fact an arm begins with.  A dead promise stays dead. -/
def armState (point : SupplyPoint) (supply : Supply) : Option Supply :=
  if point.alive.isSome then some supply else none

/-- A path with no live promise contributes none, and a cached test survives only when both paths
bound the same polarity. -/
def mergePoints (a b : SupplyPoint) : SupplyPoint where
  alive :=
    match a.alive, b.alive with
    | some x, some y => some (x.merge y)
    | none, other | other, none => other
  proxies name := if a.proxies name = b.proxies name then a.proxies name else none

/-- Only arms that reach the continuation contribute their state. -/
def mergeLiveArms (point thenPoint : SupplyPoint) (thenDiverges : Bool) (elsePoint : SupplyPoint)
    (elseDiverges : Bool) : SupplyPoint :=
  match thenDiverges, elseDiverges with
  | true, true => { point with alive := none }
  | true, false => elsePoint
  | false, true => thenPoint
  | false, false => mergePoints thenPoint elsePoint

/-- Where the merged point is open, so is an arm that reaches the continuation. -/
theorem open_mergeLiveArms {point thenPoint elsePoint : SupplyPoint}
    {thenDiverges elseDiverges : Bool}
    (h : (mergeLiveArms point thenPoint thenDiverges elsePoint elseDiverges).Open) :
    (thenDiverges = false ∧ thenPoint.Open) ∨ (elseDiverges = false ∧ elsePoint.Open) := by
  cases thenDiverges <;> cases elseDiverges
  · cases hthen : thenPoint.alive with
    | none =>
      cases helse : elsePoint.alive with
      | none => simp [mergeLiveArms, mergePoints, SupplyPoint.Open, hthen, helse] at h
      | some y =>
        refine .inr ⟨rfl, ?_⟩
        simpa [mergeLiveArms, mergePoints, SupplyPoint.Open, hthen, helse] using h
    | some x =>
      cases helse : elsePoint.alive with
      | none =>
        refine .inl ⟨rfl, ?_⟩
        simpa [mergeLiveArms, mergePoints, SupplyPoint.Open, hthen, helse] using h
      | some y =>
        have hne : x.merge y ≠ .supplied := by
          simpa [mergeLiveArms, mergePoints, SupplyPoint.Open, hthen, helse] using h
        rw [Ne, Supply.merge_eq_supplied, not_and_or] at hne
        simpa [SupplyPoint.Open, hthen, helse] using hne
  · exact .inl ⟨rfl, h⟩
  · exact .inr ⟨rfl, h⟩
  · exact absurd h (by simp [mergeLiveArms, SupplyPoint.Open])

theorem mergePoints_proxies {a b : SupplyPoint} {name : String} {negated : Bool}
    (h : (mergePoints a b).proxies name = some negated) :
    a.proxies name = some negated ∧ b.proxies name = some negated := by
  by_cases heq : a.proxies name = b.proxies name
  · simp only [mergePoints, if_pos heq] at h
    exact ⟨h, heq ▸ h⟩
  · simp [mergePoints, if_neg heq] at h

end Ry.FormalSupply
