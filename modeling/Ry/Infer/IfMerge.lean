import Ry.Infer.Narrow

/-! # Merging the arms of an `if`

`walk_journal_if` walks each arm in place under a snapshot and merges the two deltas into
the restored scope.  The walk of an arm's statements is a function on scopes here.  What
the walker learns of the `if` from its syntax and from the project's tables is an
`IfHeader`, and what it reads off the arms' ends an `Ends`.
-/

namespace Ry

/-- An `if`, beside the walks of its arms. -/
structure IfHeader where
  narrowing : Narrowing
  failedNamespace : Option (String × Bool)
  hasElse : Bool
  /-- The value of a literal condition. -/
  literalCond : Option Bool
  /-- `arm_diverges_for_continuation`, which does not see a `return`. -/
  thenExits : Bool
  elseExits : Bool
  /-- `arm_diverges` -/
  thenDiverges : Bool
  elseDiverges : Bool
  /-- `definitely_assigned_names` -/
  thenAssigned : Finset String
  elseAssigned : Finset String
  /-- The project's own tables bind `return`, or may under an escaped spelling. -/
  returnShadowed : Bool

/-- What the merge reads beside the scopes. -/
structure IfStatement extends IfHeader where
  /-- The names either branch of the narrowing reported. -/
  narrowed : Finset String

/-- How the arms end. -/
structure Ends where
  inLoop : Bool
  thenUnreachable : Bool
  elseUnreachable : Bool

/-- The value each arm's walk returned. -/
structure ArmValues where
  thenValue : RType
  elseValue : RType

namespace IfStatement

variable (c : IfStatement) (ends : Ends)

def thenReaches : Bool := !ends.thenUnreachable

def elseReaches : Bool := c.hasElse && !ends.elseUnreachable

/-- The arm leaves nothing to the continuation, as the continuation views it. -/
def thenLeaves : Bool := (ends.inLoop && ends.thenUnreachable) || c.thenExits

def elseLeaves : Bool := (ends.inLoop && ends.elseUnreachable) || (c.hasElse && c.elseExits)

/-- The arm whose narrowed views are facts of the continuation, its sibling diverging. -/
def continuationArm {A : Type} (thenArm elseArm : A) : Option A :=
  match c.thenLeaves ends, c.hasElse, c.elseLeaves ends with
  | true, true, false | true, false, _ => some elseArm
  | false, true, true => some thenArm
  | _, _, _ => none

end IfStatement

/-- A fact reaches the continuation only if every continuing arm still holds it. -/
def joinFailedNamespaces (base thenSet elseSet : Finset String) (thenDiverges elseDiverges : Bool) :
    Finset String :=
  (base ∪ thenSet ∪ elseSet).filter fun package =>
    (thenDiverges || marked thenSet package) && (elseDiverges || marked elseSet package)

/-- Which arms contribute state to the continuation in the binding merge. -/
def mergingArms (inLoop hasElse thenReaches elseReaches : Bool) : Bool × Bool :=
  if hasElse && thenReaches != elseReaches then (thenReaches, elseReaches)
  else if inLoop && !thenReaches && !hasElse then (false, false)
  else (true, true)

/-- `operator_rebound` of `return`. -/
def operatorRebound (shadowed : Bool) (s : Scope) : Bool :=
  shadowed || s.bindings.hasEscapedNames || (s.get "return").isSome || (s.get "`return`").isSome

/-! ## What is merged of one name -/

structure BindingView where
  ty : Option RType
  narrowed : Bool
  listOrigin : Bool
  defaultParameter : Bool

def BindingState.view (st : BindingState) : BindingView where
  ty := st.ty
  narrowed := st.markers.narrowed
  listOrigin := st.markers.listOrigin
  defaultParameter := st.markers.defaultParameter

namespace BindingView

/-- The view without its default-parameter mark, as the prefilter builds it. -/
def guardPrefilter (v : BindingView) : BranchGuardView := ⟨v.ty, v.narrowed, false⟩

def guard (v : BindingView) : BranchGuardView := ⟨v.ty, v.narrowed, v.defaultParameter⟩

end BindingView

namespace IfStatement

variable (c : IfStatement) (ends : Ends)

/-- The type a name gets from the types its arms gave it anew. -/
def mergedType (name : String) (original thenTy elseTy : Option RType) : Option RType :=
  match thenTy, elseTy with
  | some a, some b =>
    let joined := a.join b
    match original with
    | some parent =>
      if name ∈ c.thenAssigned ∧ name ∈ c.elseAssigned then some joined
      else some (parent.join joined)
    | none => some joined
  | some a, none | none, some a =>
    match original with
    | some parent => some (parent.join a)
    -- the name may be missing
    | none => some RType.unknown
  | none, none => none

/-- Neither an equal type nor a guard's own view is a change. -/
def changedType (name : String) (original : Option RType) (view : BindingView) : Option RType :=
  if name ∈ c.narrowed ∧ view.narrowed then none
  else view.ty.filter fun ty => !original.elim false (·.eq ty)

/-- What the merge of the two views writes: a type, and whether it keeps a list
origin. -/
def mergeViews (name : String) (original : Option RType) (thenView elseView : BindingView) :
    Option (RType × Bool) :=
  if c.hasElse && thenReaches ends != c.elseReaches ends then
    let continuation := if thenReaches ends then thenView else elseView
    (c.changedType name original continuation).map (·, continuation.listOrigin)
  else
    let thenTy := c.changedType name original thenView
    let elseTy := if c.hasElse then c.changedType name original elseView else none
    -- an arm that does not bind the name supplies no value at a later use
    let listOrigin := (thenView.ty.isNone || thenView.listOrigin)
      && (elseView.ty.isNone || elseView.listOrigin)
    (c.mergedType name original thenTy elseTy).map (·, listOrigin)

/-- Some narrowed binding can yield a refinement at all. -/
def nameMayRefine (original : Option RType) (thenView elseView : BindingView) : Bool :=
  original.elim false (·.narrowAwayFromNull.isSome)
    || [thenView, elseView].any fun view =>
      view.guardPrefilter.isUnknownNarrowing
        || original.elim false view.guardPrefilter.isLengthBoundNarrowing

def guardFact (returns : Bool × Bool) (original : Option RType) (originalDefault : Bool)
    (thenView elseView : BindingView) : Option RType :=
  original.bind fun original =>
    UnionGuardViews.continuationRefinement
      { original
        thenView := thenView.guard
        elseView := elseView.guard
        originalDefaultParameter := originalDefault
        thenReturnDiverges := returns.1
        elseReturnDiverges := returns.2
        thenReaches := thenReaches ends
        elseReaches := c.elseReaches ends
        hasElse := c.hasElse }

end IfStatement

namespace Scope

/-- `insert`, and the list origin again where it is kept. -/
def insertMerged (order : IterOrder) (s : Scope) (name : String) :
    Option (RType × Bool) → Scope
  | none => s
  | some (ty, listOrigin) =>
    let s := s.insert order name ty
    if listOrigin then s.markListOrigin name else s

/-- A continuation fact: a type, and whether it is a parameter's default. -/
def insertFact (order : IterOrder) (s : Scope) (name : String) : Option RType × Bool → Scope
  | (some ty, true) => s.insertParameterDefault name ty
  | (some ty, false) => s.insert order name ty
  | (none, _) => s

end Scope

/-! ## The deltas -/

namespace BranchDelta

/-- What the branch left of a name; `base` is the restored scope. -/
def lexicalDefinition (d : BranchDelta) (base : Scope) (name : String) : Option Span :=
  (d.changed.lookup name).elim (base.lexicalDefinitions.lookup name) (·.lexicalDefinition)

def boxObject (d : BranchDelta) (base : Scope) (name : String) : Option BoxObject :=
  (d.changed.lookup name).elim (base.boxObjects.lookup name) (·.boxObject)

def boxObjectNames (d : BranchDelta) : Finset String :=
  d.changed.keys.filter fun name => ((d.changed.lookup name).bind (·.boxObject)).isSome

def binding (d : BranchDelta) (base : Scope) (name : String) (original : Option RType) :
    BindingView :=
  (d.changed.lookup name).elim
    ⟨original, marked base.narrowedBindings name, marked base.listOriginBindings name,
      marked base.defaultParameterBindings name⟩
    (·.view)

/-- The branch may have replaced an asserted binding. -/
def replacesScalar (d : BranchDelta) (name : String) : Bool :=
  (d.changed.lookup name).elim false (!·.markers.scalarAsserted)

def loopVector (d : BranchDelta) (base : Scope) (name : String) : Bool :=
  (d.changed.lookup name).elim (marked base.loopVectorBindings name) (·.markers.loopVector)

def loopVectorNames (d : BranchDelta) : Finset String :=
  d.changed.keys.filter fun name => (d.changed.lookup name).elim false (·.markers.loopVector)

/-- A project `return` binding in the arm itself is an ordinary call that continues. -/
def bindsReturn (d : BranchDelta) : Bool :=
  ["return", "`return`"].any fun name => (d.changed.lookup name).isSome

end BranchDelta

/-- For each name with a box object on some path, the object every path agrees on, or
`opaqueCall`.  A `none` path is the scope before the branch. -/
def joinBoxProvenance (order : IterOrder) (s : Scope) (paths : List (Option BranchDelta)) :
    List (String × Option BoxObject) :=
  let names := paths.foldl
    (fun names path => path.elim names fun delta => names ∪ delta.boxObjectNames) s.boxObjects.keys
  (order.list names).filterMap fun name =>
    match paths.map (·.elim (s.boxObjects.lookup name) (·.boxObject s name)) with
    | [] => none
    | first :: others =>
      some (name, if others.all (· == first) then first else some .opaqueCall)

/-- The two finished arms. -/
structure Deltas where
  thenDelta : BranchDelta
  elseDelta : BranchDelta
  thenFailed : Finset String
  elseFailed : Finset String

namespace Deltas

variable (d : Deltas) (c : IfStatement) (order : IterOrder)

def ends (s : Scope) : Ends :=
  ⟨s.loopFrame.isSome, d.thenDelta.unreachable, d.elseDelta.unreachable⟩

/-- `then_delta`'s entries and the rest of `else_delta`'s. -/
def changedNames : List String :=
  order.list d.thenDelta.changed.keys
    ++ (order.list d.elseDelta.changed.keys).filter fun name =>
      (d.thenDelta.changed.lookup name).isNone

/-- Drop an adopted declaration identity if a reaching branch may bind the name to a
different definition. -/
def forgetLexical (s : Scope) (name : String) : Scope :=
  let original := s.lexicalDefinitions.lookup name
  let thenAgrees := !IfStatement.thenReaches (d.ends s)
    || d.thenDelta.lexicalDefinition s name == original
  let elseAgrees := !c.elseReaches (d.ends s)
    || d.elseDelta.lexicalDefinition s name == original
  if !thenAgrees || !elseAgrees then s.forgetLexicalDefinition name else s

def forgetLexicals (s : Scope) : Scope :=
  ((d.changedNames order).filter fun name => (s.lexicalDefinitions.lookup name).isSome).foldl
    (d.forgetLexical c) s

def boxPaths (s : Scope) : List (Option BranchDelta) :=
  (if IfStatement.thenReaches (d.ends s) then [some d.thenDelta] else [])
    ++ (if !c.hasElse then [none] else if c.elseReaches (d.ends s) then [some d.elseDelta] else [])

/-- An assertion made before the `if` is lost to a continuing arm that may have
replaced its binding. -/
def losesScalar (s : Scope) (name : String) : Bool :=
  (!c.thenLeaves (d.ends s) && d.thenDelta.replacesScalar name)
    || (c.hasElse && !c.elseLeaves (d.ends s) && d.elseDelta.replacesScalar name)

def loseScalars (s : Scope) : Scope :=
  (order.list (s.scalarAssertedBindings.filter (d.losesScalar c s ·))).foldl
    Scope.clearScalarAsserted s

def joinNamespaces (s : Scope) : Scope :=
  { s with
    failedNamespaces := joinFailedNamespaces s.failedNamespaces d.thenFailed d.elseFailed
      (c.thenLeaves (d.ends s)) (c.elseLeaves (d.ends s)) }

/-- A proven vector alternative survives when any continuing arm still carries it. -/
def keepsLoopVector (s : Scope) (name : String) : Bool :=
  (!c.thenLeaves (d.ends s) && c.literalCond != some false && d.thenDelta.loopVector s name)
    || (!c.elseLeaves (d.ends s) && c.literalCond != some true
      && if c.hasElse then d.elseDelta.loopVector s name else marked s.loopVectorBindings name)

def loopVectorsAfter (s : Scope) : Finset String :=
  (s.loopVectorBindings ∪ d.thenDelta.loopVectorNames ∪ d.elseDelta.loopVectorNames).filter
    (d.keepsLoopVector c s ·)

def continuationFacts (s : Scope) : List (String × Option RType × Bool) :=
  (c.continuationArm (d.ends s) d.thenDelta d.elseDelta).elim [] fun delta =>
    (order.list c.narrowed).map fun name =>
      let binding := delta.binding s name (s.get name)
      (name, binding.ty, binding.defaultParameter)

def guardMayRefine (s : Scope) : Bool :=
  decide (∃ name ∈ c.narrowed, IfStatement.nameMayRefine (s.get name)
    (d.thenDelta.binding s name (s.get name)) (d.elseDelta.binding s name (s.get name)) = true)

/-- Which arm exits through a `return` that the continuation view does not see. -/
def returnDiverges (s : Scope) : Bool × Bool :=
  let guard := d.guardMayRefine c s && !operatorRebound c.returnShadowed s
  (guard && !c.thenLeaves (d.ends s) && !d.thenDelta.bindsReturn && c.thenDiverges,
    guard && !c.elseLeaves (d.ends s) && !d.elseDelta.bindsReturn
      && (c.hasElse && c.elseDiverges))

def unionGuardFacts (s : Scope) : List (String × RType) :=
  (order.list c.narrowed).filterMap fun name =>
    (c.guardFact (d.ends s) (d.returnDiverges c s) (s.get name)
      (marked s.defaultParameterBindings name) (d.thenDelta.binding s name (s.get name))
      (d.elseDelta.binding s name (s.get name))).map (name, ·)

/-- Facts that one path may have changed under an equal type go; what unmodeled code may
have done in a continuing arm stays. -/
def dropFacts (s : Scope) : Scope :=
  let s := s.clearOpsFacts.clearKnownStrings.clearConditionAliases
  { s with
    uncertainty := s.uncertainty.or
      ((d.thenDelta.uncertainty.continuing (c.thenLeaves (d.ends s))).or
        (d.elseDelta.uncertainty.continuing (c.elseLeaves (d.ends s)))) }

/-- One pass of the merge loop.  The source leaves the loop where this passes over the
name. -/
def mergeBinding (s : Scope) (name : String) : Scope :=
  if s.loopFrame.isSome && !IfStatement.thenReaches (d.ends s) && !c.hasElse then s
  else
    let original := s.get name
    s.insertMerged order name (c.mergeViews (d.ends s) name original
      (d.thenDelta.binding s name original) (d.elseDelta.binding s name original))

/-- Unknown is absorbing, so an arm the merge takes that lost the mask's entry-time types
loses them here. -/
def maskBindings (s : Scope) : Scope :=
  let merging := mergingArms s.loopFrame.isSome c.hasElse (IfStatement.thenReaches (d.ends s))
    (c.elseReaches (d.ends s))
  if merging.1 && d.thenDelta.dataMaskEnvUnknown || merging.2 && d.elseDelta.dataMaskEnvUnknown
  then s.invalidateDataMaskEnv else s

/-- The scope before anything is written to its names. -/
def settle (s : Scope) : Scope :=
  d.joinNamespaces c (d.loseScalars c order (d.forgetLexicals c order s))

/-- Stream the bindings of the deltas into the scope. -/
def mergeBindings (s : Scope) : Scope :=
  d.maskBindings c ((d.changedNames order).foldl (d.mergeBinding c order) (d.dropFacts c s))

/-- The continuation's facts, captured before the merge. -/
def installFacts (captured s : Scope) : Scope :=
  let s := (d.continuationFacts c order captured).foldl
    (fun s fact => s.insertFact order fact.1 fact.2) s
  (d.unionGuardFacts c order captured).foldl (fun s fact => s.insertNarrowed fact.1 fact.2) s

/-- Afterwards the loop vectors are those captured before the merge. -/
def setLoopVectors (captured s : Scope) : Scope :=
  let loopVectors := d.loopVectorsAfter c captured
  let s := (order.list (s.loopVectorBindings \ loopVectors)).foldl Scope.clearLoopVector s
  (order.list loopVectors).foldl Scope.markLoopVector s

/-- No route reaches the continuation of two arms that are dead. -/
def closePath (s : Scope) : Scope :=
  if c.hasElse && d.thenDelta.unreachable && d.elseDelta.unreachable then
    { s with unreachable := true }
  else s

/-- Merge the deltas into the restored scope. -/
def merge (s : Scope) : Scope :=
  let forgotten := d.forgetLexicals c order s
  let boxProvenance := joinBoxProvenance order forgotten (d.boxPaths c forgotten)
  let settled := d.settle c order s
  let s := d.installFacts c order settled (d.mergeBindings c order settled)
  d.closePath c ((d.setLoopVectors c order settled s).applyBoxProvenance boxProvenance)

/-- The value of the `if`. -/
def value (values : ArmValues) : RType :=
  match d.thenDelta.unreachable, c.hasElse && d.elseDelta.unreachable with
  | true, false => values.elseValue
  | false, true => values.thenValue
  | _, _ => values.thenValue.join values.elseValue

end Deltas

/-- One arm, walked under a snapshot. -/
structure WalkedArm where
  /-- The scope restored. -/
  base : Scope
  delta : BranchDelta
  /-- The failed namespaces at the arm's end. -/
  failed : Finset String
  narrowed : List String

/-- An arm's scope as its walk finds it, and the names the condition narrowed. -/
def Scope.enterArm (s : Scope) (h : IfHeader) (branch : NarrowingBranch) : Scope × List String :=
  let (s, names) := s.applyNarrowingBranch h.narrowing branch
  (s.applyFailedNamespaceBranch h.failedNamespace branch, names)

/-- One arm of `walk_journal_if`. -/
def Scope.walkArm (s : Scope) (h : IfHeader) (branch : NarrowingBranch) (arm : Scope → Scope) :
    WalkedArm :=
  let (s, mark) := s.beginSnapshot
  let (s, narrowed) := s.enterArm h branch
  let s := arm s
  let failed := s.failedNamespaces
  let (base, delta) := { s with failedNamespaces := ∅ }.finishSnapshot mark
  { base, delta, failed, narrowed }

/-- The walk of the else arm; without one nothing is walked. -/
def IfHeader.elseWalk (h : IfHeader) (elseArm : Scope → Scope) : Scope → Scope :=
  if h.hasElse then elseArm else id

/-- Both arms walked: the restored scope, the deltas, and what the merge reads beside
them. -/
def walkArms (h : IfHeader) (thenArm elseArm : Scope → Scope) (s : Scope) :
    Scope × Deltas × IfStatement :=
  let thenWalked := s.walkArm h .thenBranch thenArm
  let elseWalked := thenWalked.base.walkArm h .elseBranch (h.elseWalk elseArm)
  (elseWalked.base,
    { thenDelta := thenWalked.delta
      elseDelta := elseWalked.delta
      thenFailed := thenWalked.failed
      elseFailed := elseWalked.failed },
    { h with narrowed := thenWalked.narrowed.toFinset ∪ elseWalked.narrowed.toFinset })

/-- The scope after `walk_journal_if`. -/
def walkJournalIf (order : IterOrder) (h : IfHeader) (thenArm elseArm : Scope → Scope)
    (s : Scope) : Scope :=
  let (s, d, c) := walkArms h thenArm elseArm s
  d.merge c order s

/-- The value of the `if`. -/
def journalIfValue (h : IfHeader) (values : ArmValues) (thenArm elseArm : Scope → Scope)
    (s : Scope) : RType :=
  let (_, d, c) := walkArms h thenArm elseArm s
  d.value c values

end Ry
