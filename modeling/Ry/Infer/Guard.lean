import Ry.Core.Join

/-! # What a null guard leaves

An `if` whose condition tests a binding for `NULL` partitions the binding's type: one
arm holds `NULL`, the other the rest.  The branch merge takes neither narrowed view up;
what it may install afterwards is decided here, from the type before the `if` and the
view each arm left.
-/

namespace Ry

namespace RType

/-- The type without its `NULL` member, for a type that has one. -/
def narrowAwayFromNull (t : RType) : Option RType :=
  match t.mode with
  | .null => some unknown
  | .union =>
    match t.members with
    | none => none
    | some members =>
      if members.any (·.mode == .null) then some (ofMembers (members.filter (·.mode != .null)))
      else none
  | _ => none

mutual
/-- Strengthen a type's length, and every union member's, with a proven lower bound;
and whether anything changed. -/
def refineLengthAtLeast (min : Nat) : RType → RType × Bool
  | ⟨mode, length, cls, columns, fnSig, members, valueFacts⟩ =>
    let refined := length.refineAtLeast min
    let (refinedMembers, membersChanged) := refineMembers? min members
    (⟨mode, refined, cls, columns, fnSig, if membersChanged then refinedMembers else members,
      valueFacts⟩, refined != length || membersChanged)
termination_by structural t => t
def refineMembers? (min : Nat) : Option (List RType) → Option (List RType) × Bool
  | none => (none, false)
  | some members =>
    let (refined, changed) := refineMembers min members
    (some refined, changed)
termination_by structural o => o
def refineMembers (min : Nat) : List RType → List RType × Bool
  | [] => ([], false)
  | m :: ms =>
    let (m, changed) := refineLengthAtLeast min m
    let (ms, changed') := refineMembers min ms
    (m :: ms, changed || changed')
termination_by structural l => l
end

end RType

/-- One arm's recorded view of a guard-narrowed binding. -/
structure BranchGuardView where
  ty : Option RType
  narrowed : Bool
  defaultParameter : Bool

namespace BranchGuardView

/-- The guard proved the recorded type wrong on this arm's path. -/
def isUnknownNarrowing (v : BranchGuardView) : Bool :=
  v.narrowed && v.ty.elim false (·.eq RType.unknown)

/-- The guard only raised the length lower bound on this arm's path. -/
def isLengthBoundNarrowing (v : BranchGuardView) (original : RType) : Bool :=
  v.narrowed && v.ty.elim false fun ty =>
    match ty.length with
    | .atLeast min =>
      let (refined, changed) := original.refineLengthAtLeast min
      changed && refined.eq ty
    | _ => false

/-- The view is exactly the guard's non-null remainder. -/
def isComplementView (complement : RType) (v : BranchGuardView) : Bool :=
  v.narrowed && v.ty.elim false (·.eq complement)

/-- The type the arm rebound the binding to: a non-narrowing write of another type. -/
def rebindViewType (original : RType) (v : BranchGuardView) : Option RType :=
  v.ty.filter fun ty => !v.narrowed && !ty.eq original

end BranchGuardView

structure UnionGuardViews where
  original : RType
  thenView : BranchGuardView
  elseView : BranchGuardView
  originalDefaultParameter : Bool
  thenReturnDiverges : Bool
  elseReturnDiverges : Bool
  thenReaches : Bool
  elseReaches : Bool
  hasElse : Bool

namespace UnionGuardViews

/-- `union_guard_refinement_shapes` -/
def refinementShapes (v : UnionGuardViews) (complement : RType) : Option RType :=
  if v.thenReturnDiverges && !v.elseReturnDiverges then
    if v.elseView.isComplementView complement then some complement
    else v.elseView.rebindViewType v.original
  else if v.elseReturnDiverges && !v.thenReturnDiverges then
    if v.thenView.isComplementView complement then some complement
    else v.thenView.rebindViewType v.original
  else if !v.thenReturnDiverges && !v.elseReturnDiverges && v.thenReaches
      && (v.elseReaches || !v.hasElse) then
    match v.thenView.rebindViewType v.original, v.elseView.isComplementView complement with
    | some rebound, true => some (rebound.join complement)
    | _, _ =>
      match v.elseView.rebindViewType v.original, v.thenView.isComplementView complement with
      | some rebound, true => some (complement.join rebound)
      | _, _ => none
  else none

/-- The arm whose path is the only one left by a `return(...)` in the other. -/
def surviving (v : UnionGuardViews) : Option BranchGuardView :=
  match v.thenReturnDiverges, v.elseReturnDiverges with
  | true, false => some v.elseView
  | false, true => some v.thenView
  | _, _ => none

/-- The replacement shape over a pure-`NULL` original. -/
def nullRebind (v : UnionGuardViews) (complement : RType) : Option RType :=
  match v.thenView.rebindViewType v.original, v.elseView.isComplementView complement with
  | some rebound, true => some rebound
  | _, _ =>
    match v.elseView.rebindViewType v.original, v.thenView.isComplementView complement with
    | some rebound, true => some rebound
    | _, _ => none

/-- The exact continuation refinement a guard proves for one narrowed binding, if one
is representable (`union_guard_continuation_refinement`). -/
def continuationRefinement (v : UnionGuardViews) : Option RType :=
  if v.surviving.elim false (·.isUnknownNarrowing) then some RType.unknown
  else
    let defaulted := v.originalDefaultParameter || v.thenView.defaultParameter
      || v.elseView.defaultParameter
    match v.surviving.filter fun view => !defaulted && view.isLengthBoundNarrowing v.original with
    | some view => view.ty
    | none =>
      match v.original.narrowAwayFromNull with
      | none => none
      | some complement =>
        match v.original.mode with
        | .union => if defaulted then none else v.refinementShapes complement
        | .null =>
          if v.thenReturnDiverges != v.elseReturnDiverges then v.refinementShapes complement
          else if v.thenReturnDiverges || !v.thenReaches || (!v.elseReaches && v.hasElse) then none
          else (v.nullRebind complement).map fun rebound =>
            -- the caller-supplied path holds an unmodeled value
            if defaulted then RType.unknown else rebound
        | _ => none

end UnionGuardViews

end Ry
