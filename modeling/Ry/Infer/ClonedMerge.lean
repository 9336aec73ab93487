import Ry.Infer.IfMerge

/-! # The cloned-scope reference

`walk_cloned_if`: each arm is walked on its own full copy of the scope, and the two final
scopes are merged back.  The source keeps it beside its tests, to be compared with the
journal's merge.
-/

namespace Ry

def Scope.bindingView (s : Scope) (name : String) : BindingView :=
  ⟨s.get name, marked s.narrowedBindings name, marked s.listOriginBindings name,
    marked s.defaultParameterBindings name⟩

/-- The two final scopes. -/
structure ClonedArms where
  thenScope : Scope
  elseScope : Scope

namespace ClonedArms

variable (a : ClonedArms) (c : IfStatement) (order : IterOrder)

def ends (s : Scope) : Ends :=
  ⟨s.loopFrame.isSome, a.thenScope.unreachable, a.elseScope.unreachable⟩

/-- The same join as `joinBoxProvenance`, over whole branch scopes. -/
def boxProvenance (s : Scope) : List (String × Option BoxObject) :=
  let paths := (if !a.thenScope.unreachable then [a.thenScope.boxObjects] else [])
    ++ (if !c.hasElse then [s.boxObjects]
      else if !a.elseScope.unreachable then [a.elseScope.boxObjects] else [])
  let names := paths.foldl (fun names path => names ∪ path.keys) s.boxObjects.keys
  (order.list names).filterMap fun name =>
    match paths.map (·.lookup name) with
    | [] => none
    | first :: others =>
      some (name, if others.all (· == first) then first else some .opaqueCall)

/-! ## `merge_branch_bindings` -/

def dropFacts (s : Scope) : Scope :=
  let s := s.clearOpsFacts.clearKnownStrings.clearConditionAliases
  { s with
    uncertainty := s.uncertainty.or
      { a.thenScope.uncertainty.or a.elseScope.uncertainty with dynamicBindings := false } }

def maskBindings (s : Scope) : Scope :=
  let merging := mergingArms s.loopFrame.isSome c.hasElse (IfStatement.thenReaches (a.ends s))
    (c.elseReaches (a.ends s))
  if merging.1 && a.thenScope.dataMaskEnvUnknown || merging.2 && a.elseScope.dataMaskEnvUnknown
  then s.invalidateDataMaskEnv else s

def forgetLexical (s : Scope) (name : String) : Scope :=
  let original := s.lexicalDefinitions.lookup name
  let thenAgrees := !IfStatement.thenReaches (a.ends s)
    || a.thenScope.lexicalDefinitions.lookup name == original
  let elseAgrees := if c.hasElse then
      !c.elseReaches (a.ends s) || a.elseScope.lexicalDefinitions.lookup name == original
    else true
  if !thenAgrees || !elseAgrees then s.forgetLexicalDefinition name else s

def forgetLexicals (s : Scope) : Scope :=
  (order.list s.lexicalDefinitions.keys).foldl (a.forgetLexical c) s

/-- The continuation is the only route forward. -/
def takeContinuation (continuation s : Scope) (name : String) : Scope :=
  let view := continuation.bindingView name
  s.insertMerged order name ((c.changedType name (s.get name) view).map (·, view.listOrigin))

/-- The names that differ from the parent in some arm. -/
def branchNames (s : Scope) : Finset String :=
  (a.thenScope.bindings.map.keys.filter fun name =>
      (c.changedType name (s.get name) (a.thenScope.bindingView name)).isSome)
    ∪ if c.hasElse then a.elseScope.bindings.map.keys.filter fun name =>
      (c.changedType name (s.get name) (a.elseScope.bindingView name)).isSome else ∅

def mergeName (s : Scope) (name : String) : Scope :=
  let thenView := a.thenScope.bindingView name
  let elseView := a.elseScope.bindingView name
  let thenTy := c.changedType name (s.get name) thenView
  let elseTy := if c.hasElse then c.changedType name (s.get name) elseView else none
  let thenOrigin := thenView.ty.isNone || thenView.listOrigin
  let elseOrigin := elseView.ty.isNone || elseView.listOrigin
  s.insertMerged order name
    ((c.mergedType name (s.get name) thenTy elseTy).map (·, thenOrigin && elseOrigin))

def mergeBranchBindings (s : Scope) : Scope :=
  let s := a.maskBindings c (a.dropFacts s)
  if s.loopFrame.isSome && !IfStatement.thenReaches (a.ends s) && !c.hasElse then s
  else
    let s := a.forgetLexicals c order s
    if c.hasElse && IfStatement.thenReaches (a.ends s) != c.elseReaches (a.ends s) then
      let continuation := if IfStatement.thenReaches (a.ends s) then a.thenScope else a.elseScope
      (order.list continuation.bindings.map.keys).foldl (takeContinuation c order continuation) s
    else (order.list (a.branchNames c s)).foldl (a.mergeName c order) s

/-! ## `walk_cloned_if` -/

def retainScalars (s : Scope) : Scope :=
  { s with
    scalarAssertedBindings := s.scalarAssertedBindings.filter fun name =>
      (c.thenLeaves (a.ends s) || marked a.thenScope.scalarAssertedBindings name)
        && (!c.hasElse || c.elseLeaves (a.ends s)
          || marked a.elseScope.scalarAssertedBindings name) }

def joinNamespaces (s : Scope) : Scope :=
  { s with
    failedNamespaces := joinFailedNamespaces s.failedNamespaces a.thenScope.failedNamespaces
      a.elseScope.failedNamespaces (c.thenLeaves (a.ends s)) (c.elseLeaves (a.ends s))
    uncertainty := s.uncertainty.or
      ((a.thenScope.uncertainty.continuing (c.thenLeaves (a.ends s))).or
        (a.elseScope.uncertainty.continuing (c.elseLeaves (a.ends s)))) }

def loopVectorsAfter (base : Finset String) (s : Scope) : Finset String :=
  (if !c.thenLeaves (a.ends s) && c.literalCond != some false
    then a.thenScope.loopVectorBindings else ∅)
    ∪ if !c.elseLeaves (a.ends s) && c.literalCond != some true then
        if c.hasElse then a.elseScope.loopVectorBindings else base
      else ∅

def copyContinuationNarrowing (continuation s : Scope) : Scope :=
  (order.list c.narrowed).foldl
    (fun s name => s.insertFact order name
      (continuation.get name, marked continuation.defaultParameterBindings name)) s

/-- The types and default marks of the narrowed names before the merge. -/
def guardMayRefine (base : Scope) : Bool :=
  decide (∃ name ∈ c.narrowed, IfStatement.nameMayRefine (base.get name)
    (a.thenScope.bindingView name) (a.elseScope.bindingView name) = true)

def bindsReturn (arm s : Scope) : Bool :=
  ["return", "`return`"].any fun name => !(arm.get name == s.get name)

/-- `s` is the merged scope, `base` the one before. -/
def returnDiverges (base s : Scope) : Bool × Bool :=
  let guard := a.guardMayRefine c base && !operatorRebound c.returnShadowed s
  (guard && !c.thenLeaves (a.ends s) && !bindsReturn a.thenScope s && c.thenDiverges,
    guard && !c.elseLeaves (a.ends s) && !bindsReturn a.elseScope s
      && (c.hasElse && c.elseDiverges))

def insertGuardFacts (base : Scope) (returns : Bool × Bool) (s : Scope) : Scope :=
  (order.list c.narrowed).foldl
    (fun s name =>
      (c.guardFact (a.ends s) returns (base.get name) (marked base.defaultParameterBindings name)
        (a.thenScope.bindingView name) (a.elseScope.bindingView name)).elim s
        (s.insertNarrowed name ·)) s

/-- Merge the arms' final scopes back into `s`. -/
def merge (base : Scope) : Scope :=
  let boxProvenance := a.boxProvenance c order base
  let s := a.mergeBranchBindings c order base
  let s := a.joinNamespaces c (a.retainScalars c s)
  let loopVectors := a.loopVectorsAfter c base.loopVectorBindings s
  let s := (c.continuationArm (a.ends s) a.thenScope a.elseScope).elim s
    (copyContinuationNarrowing c order · s)
  let s := a.insertGuardFacts c order base (a.returnDiverges c base s) s
  let s := { s with loopVectorBindings := loopVectors }.applyBoxProvenance boxProvenance
  if c.hasElse && a.thenScope.unreachable && a.elseScope.unreachable then
    { s with unreachable := true }
  else s

end ClonedArms

/-- A full copy of the scope, which starts its own history. -/
def Scope.clone (s : Scope) : Scope := { s with journal := ⟨[], 0⟩ }

/-- `walk_cloned_if` -/
def walkClonedIf (order : IterOrder) (h : IfHeader) (thenArm elseArm : Scope → Scope)
    (s : Scope) : Scope :=
  let (thenScope, thenNarrowed) := s.clone.enterArm h .thenBranch
  let (elseScope, elseNarrowed) := s.clone.enterArm h .elseBranch
  let a : ClonedArms :=
    { thenScope := thenArm thenScope, elseScope := h.elseWalk elseArm elseScope }
  let c : IfStatement := { h with narrowed := thenNarrowed.toFinset ∪ elseNarrowed.toFinset }
  a.merge c order s

end Ry
