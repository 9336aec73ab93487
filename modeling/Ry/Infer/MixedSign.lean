import Ry.Contract.Derive
import Ry.Infer.Args
import Ry.Infer.Diverges
import Ry.Scope.State
import Mathlib.Algebra.Order.Field.Rat
import Mathlib.Algebra.Order.Ring.Abs

/-! # Subscripts of both signs

`mixed_sign_sequence_findings` of `infer/index.rs` and what it asks: whether `:`, `seq`, `seq.int`
and `rlang::seq2` still mean the base functions (`resolve.rs`, `custom_operator.rs`), which whole
numbers their endpoints are, and where the sequence ends.
-/

namespace Ry

/-! ## The value of an `f64` -/

/-- The finite number that the bits of an `f64` stand for. -/
def f64Value (bits : UInt64) : Option ℚ :=
  let exponent := bits.toNat / 2 ^ 52 % 2 ^ 11
  let fraction : Nat := bits.toNat % 2 ^ 52
  let magnitude : ℚ :=
    if exponent = 0 then (fraction : ℚ) / 2 ^ 1074
    else if exponent < 1075 then (2 ^ 52 + fraction) / 2 ^ (1075 - exponent)
    else (2 ^ 52 + fraction) * 2 ^ (exponent - 1075)
  if exponent = 2047 then none
  else if 2 ^ 63 ≤ bits.toNat then some (-magnitude) else some magnitude

/-- `-1.5`, and an infinity -/
example : f64Value 0xBFF8000000000000 = some (-3 / 2) ∧ f64Value 0x7FF0000000000000 = none := by
  decide +kernel

/-- A finite whole number inside R's integer range. -/
def wholeInIntRange : Option ℚ → Option Int
  | some value => if value.den = 1 ∧ |value| ≤ 2147483647 then some value.num else none
  | none => none

/-! ## What the names of a call are known to mean -/

inductive SpecialCallProvenance
  | proven
  | ordinary
  | unknown
  | ambientUncertainty
deriving DecidableEq, Repr

/-- What the checker has on record about names, besides the scope. -/
structure NameTables where
  functions : Finset String
  knownVars : Finset String
  hasEscapedBindingNames : Bool
  hasEscapedOperatorNames : Bool
  hasEscapedSlotNames : Bool
  escapedExternalBindings : Bool
  escapedOperatorBindings : Bool
  escapedSlotBindings : Bool
  importedFrom : Table String String
  externalBindings : Finset String
  /-- The packages that the user has stubs for. -/
  userStubs : Finset String
  /-- The functions of a package that has stubs. -/
  packageTypeshed : String → Option (Finset String)
  bareLoaded : Finset String
  baseBeforeSearchPath : Bool
  sourceText : Span → Option String

/-- The name between backticks. -/
def quotedName (name : String) : String := "`" ++ name ++ "`"

/-- `is_atomic` -/
def Mode.isAtomic : Mode → Bool
  | .logical | .integer | .double | .complex | .character | .raw => true
  | _ => false

def Scope.isParameter (s : Scope) (name : String) : Bool := decide (name ∈ s.parameterBindings)

namespace NameTables

variable (c : NameTables) (s : Scope)

/-- No caller here has assignments of its own to add. -/
def literalBindingsMayShadowPackage (names : List String) (expectedPackage : String) : Bool :=
  if c.hasEscapedBindingNames || c.escapedExternalBindings || s.bindings.hasEscapedNames then true
  else names.any fun name =>
    (s.get name).isSome
      || decide (name ∈ c.functions)
      || decide (name ∈ c.knownVars)
      || (c.importedFrom.lookup name).any (· != expectedPackage)
      || (decide (name ∈ c.externalBindings) && (c.importedFrom.lookup name).isNone)

def literalBindingsMayBeShadowed (names : List String) : Bool :=
  c.literalBindingsMayShadowPackage s names "base"

def operatorRebound (symbol : String) : Bool :=
  c.literalBindingsMayBeShadowed s [symbol, quotedName symbol]

/-- Explicit replacement evidence, not absence of dynamic dispatch. -/
def hasExplicitOperatorMask (symbol quoted : String) : Bool :=
  let names := [symbol, quoted]
  let escaped :=
    if symbol = "@" ∨ symbol = "@<-" then
      c.hasEscapedSlotNames || c.escapedSlotBindings || s.uncertainty.escapedSlotNames
    else c.hasEscapedOperatorNames || c.escapedOperatorBindings
  let bound := names.findSome? s.get
  let projectFunction := names.any fun name => decide (name ∈ c.functions)
  let imported := names.any fun name =>
    (c.importedFrom.lookup name).any (· != "base")
      || (decide (name ∈ c.externalBindings) && (c.importedFrom.lookup name).isNone)
  let knownProjectBinding := names.any fun name => decide (name ∈ c.knownVars)
  let localMayCall := bound.any (·.mode.mayBeFunction) || names.any s.isParameter
  escaped || localMayCall || projectFunction || imported || (knownProjectBinding && bound.isNone)

def searchPathMayMaskBase : Bool :=
  s.searchPathUnknown || (!c.baseBeforeSearchPath && decide (c.bareLoaded ≠ ∅))

/-- A name that only an actual package contract describes. -/
def contracted (package name : String) : SpecialCallProvenance :=
  if (c.packageTypeshed package).any (fun functions => decide (name ∈ functions)) then .ordinary
  else .unknown

/-- A text in call position is never a qualified name. -/
def calledByText (callee : Expr) (name : String) : Bool :=
  match callee with
  | .string .. => (rsplitOnceColons name.toList).isSome
  | _ => false

/-- A user's stubs may describe another function. -/
def unlessStubbed (package : String) : SpecialCallProvenance :=
  if package ∈ c.userStubs ∨ "base" ∈ c.userStubs then .ordinary else .proven

def specialCallProvenanceAfterEffects (originalName : String) (originalCallee : Expr)
    (semanticName lookupName package : String) (effectsUnknown : Bool) : SpecialCallProvenance :=
  if originalName ≠ semanticName ∨ calledByText originalCallee semanticName then .unknown
  else
    match rsplitOnceColons semanticName.toList with
    | some (package', _) =>
      let qualifier := String.ofList (package'.rdropWhile (· = ':'))
      if effectsUnknown || c.literalBindingsMayBeShadowed s ["::", "`::`", ":::", "`:::`"] then
        .unknown
      else if qualifier ≠ package then c.contracted qualifier lookupName
      else c.unlessStubbed package
    | none =>
      if s.isParameter semanticName then .unknown
      else if semanticName ∈ c.functions ∨ ((s.get semanticName).any (·.fnSig.isSome)) then .ordinary
      else
        match (c.importedFrom.lookup semanticName).filter (· != package) with
        | some imported => c.contracted imported semanticName
        | none =>
          if effectsUnknown
              || c.literalBindingsMayShadowPackage s [semanticName, quotedName semanticName] package
          then .unknown
          else
            let explicitImport := c.importedFrom.lookup semanticName == some package
            if s.dataMaskUnknown || (!explicitImport && c.searchPathMayMaskBase s)
            then .ambientUncertainty
            else c.unlessStubbed package

def specialCallProvenance (originalName : String) (originalCallee : Expr)
    (semanticName lookupName package : String) : SpecialCallProvenance :=
  c.specialCallProvenanceAfterEffects s originalName originalCallee semanticName lookupName package
    false

/-! ## The endpoints -/

def i64TryFrom (value : Int) : Option Int :=
  if -2 ^ 63 ≤ value ∧ value < 2 ^ 63 then some value else none

/-- Only the least `i64` has no negation. -/
def checkedNeg (value : Int) : Option Int := if value = -2 ^ 63 then none else some (-value)

def sequenceStraddlesZero (first last : Int) : Bool :=
  (decide (0 < first) && decide (last < 0)) || (decide (first < 0) && decide (0 < last))

/-- The last term that is reached, if the step leads towards `stop` at all. -/
def sequenceLastTerm (start stop step : Int) : Option Int :=
  if step = 0 then none
  else
    let steps := (stop - start).tdiv step
    if steps < 0 then none else i64TryFrom (start + steps * step)

/-- The one number that a binding's exact value facts pin. -/
def pinnedNumber (ty : RType) : Option Int :=
  if (ty.length = .one ∨ ty.length = .known 1) ∧ (ty.mode = .integer ∨ ty.mode = .double)
      ∧ ty.cls.isClassless ∧ ty.valueFacts.allValuesKnown ∧ ¬ ty.valueFacts.priorNa
      ∧ ty.valueFacts.newNa = .none
  then
    match ty.valueFacts.numericBounds with
    | some (low, high) => if low = high then wholeInIntRange (f64Value low) else none
    | none => none
  else none

/-- A whole number in R's integer range that the expression is proven to evaluate to. -/
def provenIntegralEndpoint (allowIdent : Bool) : Expr → Option Int
  -- an `i64` is in range if its `f64` is, and then both are the same number
  | .integer value _ => wholeInIntRange (some value)
  | .double bits _ => wholeInIntRange (f64Value bits)
  | .unaryOp .neg e _ =>
    if c.operatorRebound s "-" || c.hasExplicitOperatorMask s "-" "`-`" then none
    else (provenIntegralEndpoint allowIdent e).bind checkedNeg
  | .ident name _ =>
    if allowIdent then
      if s.isParameter name || decide (name ∈ s.defaultParameterBindings)
          || decide (name ∈ s.narrowedBindings) then none
      else (s.get name).bind pinnedNumber
    else none
  | _ => none

/-! ## The sequences -/

/-- The endpoint from a matched call: of the argument bound to the parameter, else the default. -/
def seqEndpoint (matched : ArgumentMatch) (args : List Arg) (param : Nat) (allowIdent : Bool)
    (default : Option Int) : Option Int :=
  match matched.argForParam param with
  | some arg => (args[arg]?).bind fun a => c.provenIntegralEndpoint s allowIdent a.value
  | none => default

def matchArguments (paramNames : List String) (args : List Arg) : ArgumentMatch :=
  matchArgumentNames paramNames (args.map Arg.name)

def seqFormals : List String := ["from", "to", "by", "length.out", "along.with", "..."]

/-- Where the sequence ends: at `to`, or at the last term that a proven `by` reaches. -/
def seqLast (matched : ArgumentMatch) (args : List Arg) (allowIdent : Bool) (start stop : Int) :
    Option Int :=
  match matched.argForParam 2 with
  | some byArg =>
    ((args[byArg]?).bind fun arg => c.provenIntegralEndpoint s allowIdent arg.value).bind
      fun step => sequenceLastTerm start stop step
  | none => some stop

/-- `seq` and `seq.int` -/
def seqEnds (args : List Arg) (allowIdent : Bool) : Option (Int × Int) := do
  let matched := matchArguments seqFormals args
  if !matched.isOneToOne || (matched.argForParam 3).isSome || (matched.argForParam 4).isSome then none
  else
    let start ← c.seqEndpoint s matched args 0 allowIdent (some 1)
    let stop ← c.seqEndpoint s matched args 1 allowIdent (some 1)
    let last ← c.seqLast s matched args allowIdent start stop
    if sequenceStraddlesZero start last then some (start, last) else none

/-- `rlang::seq2`, which has no defaults and does not descend -/
def seq2Ends (args : List Arg) (allowIdent : Bool) : Option (Int × Int) := do
  let matched := matchArguments ["from", "to"] args
  if !matched.isOneToOne then none
  else
    let start ← c.seqEndpoint s matched args 0 allowIdent none
    let stop ← c.seqEndpoint s matched args 1 allowIdent none
    if start < 0 ∧ 0 < stop then some (start, stop) else none

def calleeName : Expr → Option String
  | .ident name _ => some name
  | .string name _ => some name
  | _ => none

/-- The first and last terms of a sequence expression proven to contain both a positive and a
negative whole number. -/
def provenMixedSignSequence (allowIdent : Bool) : Expr → Option (Int × Int)
  | .binOp .colon lhs rhs _ =>
    if c.hasExplicitOperatorMask s ":" "`:`" || c.operatorRebound s ":" then none
    else do
      let start ← c.provenIntegralEndpoint s allowIdent lhs
      let stop ← c.provenIntegralEndpoint s allowIdent rhs
      if sequenceStraddlesZero start stop then some (start, stop) else none
  | .call func args _ =>
    match calleeName func with
    | none => none
    | some name =>
      let lookup := Divergence.bareName name
      if lookup = "seq" ∨ lookup = "seq.int" then
        if c.specialCallProvenance s name func name lookup "base" = .proven then
          c.seqEnds s args allowIdent
        else none
      else if lookup = "seq2" then
        if c.specialCallProvenance s name func name lookup "rlang" = .proven then
          c.seq2Ends s args allowIdent
        else none
      else none
  | _ => none

/-! ## The findings -/

/-- The receiver is proven to use base subsetting. -/
def receiverOk (receiver : RType) (kind : IndexKind) : Bool :=
  let plainAtomic := receiver.cls.isClassless && receiver.mode.isAtomic
  match kind with
  | .single =>
    (plainAtomic || (receiver.cls.isClassless && decide (receiver.mode = .list)))
      && !c.operatorRebound s "[" && !c.operatorRebound s "[<-"
  | .double => plainAtomic && !c.operatorRebound s "[[" && !c.operatorRebound s "[[<-"
  | .dollar | .slot => false

def mixedSignMessage (kind : IndexKind) (spelling : String) (first last : Int) : String :=
  let runs := "sequence index " ++ spelling ++ " runs from " ++ toString first ++ " to "
    ++ toString last
  match kind with
  | .double =>
    runs ++ "; `[[` on an atomic vector takes one positive subscript, so this always errors"
  | _ =>
    runs ++ ", mixing positive and negative subscripts; `[` errors with \"only 0's may be mixed "
      ++ "with negative subscripts\""

/-- The finding on one subscript.  Identifier endpoints count only in the first: an earlier
subscript may change a binding that a later one reads. -/
def subscriptFinding (kind : IndexKind) : Arg × Nat → Option (Span × String)
  | (.mk (some _) _ _, _) => none
  | (.mk none (.missing _) _, _) => none
  | (.mk none value _, position) =>
    (c.provenMixedSignSequence s (position == 0) value).map fun (first, last) =>
      let spelling := match c.sourceText value.span with
        | some text => "`" ++ text ++ "`"
        | none => "this sequence"
      (value.span, mixedSignMessage kind spelling first last)

def mixedSignSequenceFindings (receiver : RType) (kind : IndexKind) (args : List Arg) :
    List (Span × String) :=
  if c.receiverOk s receiver kind then args.zipIdx.filterMap (c.subscriptFinding s kind) else []

end NameTables

end Ry
