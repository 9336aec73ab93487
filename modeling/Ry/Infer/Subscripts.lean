import Ry.Core.Values
import Ry.Infer.Matching
import Ry.Infer.MixedSign
import Ry.Lib.Progression

/-! # What R makes of a sequence as a subscript

The other side of `MixedSign`: what the sequence functions of R give, with S3 methods for `seq`;
what `[` and `[[` do with a subscript of both signs; and which states of a running program a
scope describes (`Describes`).

A function is the relation between its actual arguments and the values it may give.  A call that
stops gives none.
-/

namespace Ry

open Progression

/-! ## Values -/

def Storage.isNumber (storage : Storage) : Prop := storage = .integer ∨ storage = .double

instance (storage : Storage) : Decidable storage.isNumber := by
  unfold Storage.isNumber
  infer_instance

/-- An R value with the numbers it holds, where it is a vector of such.  An `NA`, a `NaN` and an
infinity are no number. -/
structure NumberedValue extends RValue where
  numbers : List (Option ℚ)
  counted : storage.isNumber → numbers.length = length

namespace NumberedValue

/-- The whole numbers `l`, without a class. -/
structure Is (v : NumberedValue) (l : List Int) : Prop where
  storage : v.storage.isNumber
  cls : v.cls = []
  numbers : v.numbers = l.map fun n : Int => some (n : ℚ)

/-- A sequence that contains both a negative and a positive whole number. -/
def Mixed (v : NumberedValue) : Prop := ∃ l, v.Is l ∧ Progression.Mixed l

/-- Subscripts are truncated towards zero. -/
def subscripts (v : NumberedValue) : List (Option Int) :=
  v.numbers.map (·.map fun q => q.num.tdiv q.den)

/-- The classes that S3 dispatch goes through. -/
def implicitClass (v : NumberedValue) : List String :=
  if v.cls = [] then
    match v.storage with
    | .integer => ["integer", "numeric"]
    | .double => ["double", "numeric"]
    | .logical => ["logical"]
    | .complex => ["complex"]
    | .character => ["character"]
    | .raw => ["raw"]
    | .list => ["list"]
    | .null => ["NULL"]
    | .function => ["function"]
    | .environment => ["environment"]
    | .language => ["call"]
  else v.cls

def negated (v : NumberedValue) : NumberedValue :=
  { v with
    numbers := v.numbers.map (·.map fun q => -q)
    counted := fun h => by rw [List.length_map, v.counted h] }

theorem Is.negated {v : NumberedValue} {l : List Int} (h : v.Is l) :
    v.negated.Is (l.map fun n => -n) where
  storage := h.storage
  cls := h.cls
  numbers := by
    show v.numbers.map (·.map fun q => -q) = _
    rw [h.numbers, List.map_map, List.map_map]
    refine List.map_congr_left fun n _ => ?_
    simp

theorem Is.subscripts {v : NumberedValue} {l : List Int} (h : v.Is l) :
    v.subscripts = l.map some := by
  rw [NumberedValue.subscripts, h.numbers, List.map_map]
  refine List.map_congr_left fun n _ => ?_
  simp

end NumberedValue

/-! ## The functions -/

/-- The tagged actual arguments, and a value. -/
abbrev RFunction := List (Option String × NumberedValue) → NumberedValue → Prop

namespace RFunction

/-- Unary, on numbers without a class. -/
def minus : RFunction := fun actuals v =>
  ∀ w, actuals = [(none, w)] → w.storage.isNumber → w.cls = [] → v = w.negated

/-- Between whole numbers. -/
def colon : RFunction := fun actuals v =>
  ∀ w w' start stop, actuals = [(none, w), (none, w')] → w.Is [start] → w'.Is [stop] →
    v.Is (span start stop)

/-- An actual is for the formal. -/
def Supplied (c : RCall) (formal : Nat) : Prop := ∃ i, c.binds i formal = true

/-- The whole number that the formal stands for. -/
inductive Endpoint (c : RCall) (actuals : List (Option String × NumberedValue)) (formal : Nat)
    (default : Option Int) : Int → Prop
  | supplied (i : Nat) (tag : Option String) (v : NumberedValue) (n : Int)
      (hbinds : c.binds i formal = true) (hactual : actuals[i]? = some (tag, v)) (hv : v.Is [n]) :
      Endpoint c actuals formal default n
  | omitted (n : Int) (hfree : ¬ Supplied c formal) (hdefault : default = some n) :
      Endpoint c actuals formal default n

def seqDefaultFormals : List String := ["from", "to", "by", "length.out", "along.with", "..."]

/-- `seq.default`, where the actuals are endpoints and a step.  A lone `from` is where the
sequence from 1 ends. -/
def seqDefault : RFunction := fun actuals v =>
  let c : RCall := ⟨seqDefaultFormals, actuals.map Prod.fst⟩
  c.Accepted ∧
    ((∀ i < actuals.length, ∃ formal < 3, c.binds i formal = true) →
      ∀ start stop, Endpoint c actuals 0 (some 1) start → Endpoint c actuals 1 (some 1) stop →
        (¬ Supplied c 2 → actuals.length = 1 ∧ Supplied c 0 → v.Is (span 1 start)) ∧
        (¬ Supplied c 2 → ¬ (actuals.length = 1 ∧ Supplied c 0) → v.Is (span start stop)) ∧
        ∀ step, Endpoint c actuals 2 none step → ∃ l, StepsTo start stop step l ∧ v.Is l)

/-- `UseMethod("seq")`: by the first actual, whatever its tag. -/
def seq (method : String → Option RFunction) : RFunction := fun actuals v =>
  match actuals.head?.bind fun actual => actual.2.implicitClass.findSome? method with
  | some function => function actuals v
  | none => seqDefault actuals v

/-- A primitive dispatches on a class attribute only. -/
def seqInt : RFunction := fun actuals v =>
  (∀ actual ∈ actuals.head?, actual.2.cls = []) → seqDefault actuals v

/-- `rlang::seq2` -/
def seq2 : RFunction := fun actuals v =>
  let c : RCall := ⟨["from", "to"], actuals.map Prod.fst⟩
  c.Accepted ∧
    ∀ start stop, Endpoint c actuals 0 none start → Endpoint c actuals 1 none stop →
      v.Is (if stop < start then [] else span start stop)

/-- What packages define of these functions. -/
def ofPackage (method : String → Option RFunction) : String → String → Option RFunction
  | "base", "-" => some minus
  | "base", ":" => some colon
  | "base", "seq" => some (seq method)
  | "base", "seq.int" => some seqInt
  | "rlang", "seq2" => some seq2
  | _, _ => none

end RFunction

/-! ## Indexing -/

inductive IndexFailure
  | mixedSigns | notOne | dimensions | other

/-- What reading or replacing does besides choosing places: the extents of the receiver (its
length for one subscript, its dimensions for several), the subscripts that are no numbers, the
access itself, the way into a list, and `NULL`. -/
structure Access where
  extents : List Nat
  unnumbered : Nat → RValue → Except IndexFailure (List (Option Nat))
  finish : List (List (Option Nat)) → Except IndexFailure RValue
  recursive : List (Option NumberedValue) → Except IndexFailure RValue
  null : Except IndexFailure RValue

/-- The places among `extent` that a numeric subscript of `[` chooses, from zero. -/
def places (extent : Nat) (l : List (Option Int)) : Except IndexFailure (List (Option Nat)) :=
  if l.any (·.any (· < 0)) then
    if l.any (·.all (0 < ·)) then .error .mixedSigns
    else .ok (((List.range extent).filter fun k : Nat => !l.contains (some (-(k + 1 : Int)))).map some)
  else .ok ((l.filter (· != some 0)).map (·.map fun n => n.toNat - 1))

namespace Access

variable (a : Access)

def ofSingle (extent : Nat) (v : NumberedValue) : Except IndexFailure (List (Option Nat)) :=
  if v.storage.isNumber then places extent v.subscripts
  else a.unnumbered extent v.toRValue

/-- A subscript of `[[` on an atomic vector is one element. -/
def ofDouble (extent : Nat) (v : NumberedValue) : Except IndexFailure (List (Option Nat)) :=
  if v.storage.isNumber then
    if v.subscripts.length ≠ 1 then .error .notOne else places extent v.subscripts
  else a.unnumbered extent v.toRValue

/-- The places along every extent; an omitted subscript chooses all. -/
def resolve (place : Nat → NumberedValue → Except IndexFailure (List (Option Nat))) :
    List Nat → List (Option NumberedValue) → Except IndexFailure (List (List (Option Nat)))
  | [], [] => .ok []
  | extent :: extents, none :: subs => do
    let rest ← resolve place extents subs
    .ok ((List.range extent).map some :: rest)
  | extent :: extents, some v :: subs => do
    let here ← place extent v
    let rest ← resolve place extents subs
    .ok (here :: rest)
  | _, _ => .error .dimensions

/-- `[` and `[[` of base on a value without a class. -/
def index (kind : IndexKind) (x : RValue) (subs : List (Option NumberedValue)) :
    Except IndexFailure RValue :=
  if x.storage = .null then a.null
  else
    match kind with
    | .single => (resolve a.ofSingle a.extents subs).bind a.finish
    | .double =>
      if x.storage = .list then a.recursive subs
      else (resolve a.ofDouble a.extents subs).bind a.finish
    | .dollar | .slot => .error .other

end Access

/-- An index function: a receiver, and what its subscripts gave. -/
abbrev Indexer := RValue → List (Option NumberedValue) → Except IndexFailure RValue

/-- Base's own function, which may dispatch on a class attribute. -/
def Indexer.IsBase (f : Indexer) (kind : IndexKind) : Prop :=
  ∃ access : RValue → Access, ∀ x subs, x.cls = [] → f x subs = (access x).index kind x subs

/-! ## A moment of a running program -/

structure Moment where
  binding : String → Option NumberedValue
  called : String → RFunction
  /-- `package::name`, by its spelling. -/
  qualified : String → RFunction
  /-- The visible methods for `seq`, by class. -/
  seqMethod : String → Option RFunction
  /-- Reading, and with `true` replacing. -/
  index : IndexKind → Bool → Indexer
  /-- The values of the expressions that are not sequences. -/
  other : Expr → NumberedValue → Prop

namespace Moment

variable (m : Moment)

/-- The function that a call's head finds. -/
def head : Expr → Option RFunction
  | .ident name _ =>
    some (if (rsplitOnceColons name.toList).isSome then m.qualified name else m.called name)
  | .string name _ => some (m.called name)
  | _ => none

mutual
/-- The values that an expression may give. -/
def gives : Expr → NumberedValue → Prop
  | .integer value _, v => v.Is [value]
  | .double bits _, v => v.storage = .double ∧ v.cls = [] ∧ v.numbers = [f64Value bits]
  | .ident name _, v => m.binding name = some v
  | .unaryOp .neg e _, v => ∃ w, gives e w ∧ m.called "-" [(none, w)] v
  | .binOp .colon lhs rhs _, v =>
    ∃ w w', gives lhs w ∧ gives rhs w' ∧ m.called ":" [(none, w), (none, w')] v
  | .call func args sp, v =>
    match m.head func with
    | some function => ∃ actuals, givesAll args actuals ∧ function actuals v
    | none => m.other (.call func args sp) v
  | e, v => m.other e v
termination_by structural e => e
def givesAll : List Arg → List (Option String × NumberedValue) → Prop
  | [], [] => True
  | arg :: args, actual :: actuals => givesArg arg actual ∧ givesAll args actuals
  | _, _ => False
termination_by structural args => args
def givesArg : Arg → Option String × NumberedValue → Prop
  | .mk name value _, actual => actual.1 = name ∧ gives value actual.2
termination_by structural arg => arg
end

def packageFunction : String → String → Option RFunction := RFunction.ofPackage m.seqMethod

end Moment

/-! ## What a scope describes -/

/-- The values a type describes.  Nothing is known about the class of a value whose type stands
in for the result of a method. -/
def RType.presents (t : RType) (v : RValue) : Bool :=
  (if t.cls.storageProxy then { t with cls := .unknown } else t).describes v

/-- The exact extrema bound every number. -/
def ValueFacts.Bound (f : ValueFacts) (numbers : List (Option ℚ)) : Prop :=
  f.allValuesKnown = true → f.priorNa = false → f.newNa = .none →
    ∀ low high, f.numericBounds = some (low, high) →
      ∀ lo hi, f64Value low = some lo → f64Value high = some hi →
        ∀ x ∈ numbers, ∃ q, x = some q ∧ lo ≤ q ∧ q ≤ hi

/-- A data mask may hold a column of the name before the binding that the scope has. -/
def Scope.maskShadows (s : Scope) (name : String) : Bool :=
  match s.dataMask with
  | some frame =>
    (s.dataMaskUnknown || frame.columnsFirst)
      && (frame.env.get name).isSome && decide (name ∉ frame.columns)
  | none => false

def indexSymbol : IndexKind → Bool → String
  | .single, false => "["
  | .single, true => "[<-"
  | .double, false => "[["
  | .double, true => "[[<-"
  | .dollar, false => "$"
  | .dollar, true => "$<-"
  | .slot, false => "@"
  | .slot, true => "@<-"

/-- The moments that the tables and the scope describe.  An operator without a binding on record
is base's own; any other name may also be masked from the search path. -/
structure Describes (c : NameTables) (s : Scope) (m : Moment) : Prop where
  binding : ∀ name t v, s.get name = some t → m.binding name = some v →
    name ∉ s.parameterBindings → name ∉ s.defaultParameterBindings → name ∉ s.narrowedBindings →
    s.maskShadows name = false → t.presents v.toRValue = true ∧ t.valueFacts.Bound v.numbers
  operator : ∀ symbol ∈ ["-", ":"], c.operatorRebound s symbol = false →
    c.hasExplicitOperatorMask s symbol (quotedName symbol) = false →
      some (m.called symbol) = m.packageFunction "base" symbol
  standard : ∀ name ∈ ["seq", "seq.int"], s.isParameter name = false →
    c.literalBindingsMayShadowPackage s [name, quotedName name] "base" = false →
    s.dataMaskUnknown = false → c.searchPathMayMaskBase s = false →
      some (m.called name) = m.packageFunction "base" name
  imported : ∀ package name function, m.packageFunction package name = some function →
    c.importedFrom.lookup name = some package → s.isParameter name = false →
    c.literalBindingsMayShadowPackage s [name, quotedName name] package = false →
    s.dataMaskUnknown = false → m.called name = function
  /-- Base has no `seq2`. -/
  absent : c.importedFrom.lookup "seq2" = none → s.isParameter "seq2" = false →
    c.literalBindingsMayShadowPackage s ["seq2", quotedName "seq2"] "rlang" = false →
    s.dataMaskUnknown = false → c.searchPathMayMaskBase s = false →
    c.baseBeforeSearchPath = false → ∀ actuals v, ¬ m.called "seq2" actuals v
  /-- `::` and `:::`; more colons do not parse. -/
  qualified : ∀ package, ∀ name ∈ ["seq", "seq.int", "seq2"], ∀ function k,
    m.packageFunction package name = some function →
    c.literalBindingsMayBeShadowed s ["::", "`::`", ":::", "`:::`"] = false →
      m.qualified (String.ofList (package.toList ++ List.replicate (k + 2) ':' ++ name.toList)) =
        function
  index : ∀ kind replacing, c.operatorRebound s (indexSymbol kind replacing) = false →
    (m.index kind replacing).IsBase kind

end Ry
