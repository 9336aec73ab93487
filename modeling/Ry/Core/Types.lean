import Mathlib.Data.List.Forall2
import Mathlib.Tactic.Common

/-! # The R type lattice

`Mode`, `Length`, `ClassVector`, the record schema, the function signature and the
`RType` that carries them, with the equality and the control-flow join of
`ry-core`'s `types.rs`.

`RType` is a nested inductive type: a schema's columns, a signature's parameters
and a union's members are types again.  The recursive functions below therefore
come as mutual blocks with one function for each layer of nesting.  A later proof
needs neither the layers nor the recursor: `RType.induction` is the induction
principle over a type's direct parts, and `agree_iff` reads the comparison as a
conjunction with `List.Forall₂`.

The source's `==` is `RType.eq`, a `Bool`, because it is not identity: it ignores
`ClassVector.storageProxy`.  Lean's `=` on types is identity, marker included.
-/

namespace Ry

/-- What `typeof()` would return, as far as inference can tell. -/
inductive Mode
  | logical | integer | double | complex | character | raw
  | list
  | null
  | function
  | environment
  | language
  /-- Inference gave up: the value may be any R value. -/
  | opaqueMode
  /-- Two or more modes; the alternatives are `RType.members`. -/
  | union
deriving DecidableEq, Repr

namespace Mode

def isUnknown : Mode → Bool
  | opaqueMode => true
  | _ => false

/-- A known value without vector storage. -/
def isKnownNonVector : Mode → Bool
  | environment | language => true
  | _ => false

def isUnknownOrNonVector (m : Mode) : Bool := m.isUnknown || m.isKnownNonVector

/-- The value may be callable (conservative for unions). -/
def mayBeFunction : Mode → Bool
  | function | opaqueMode | union => true
  | _ => false

end Mode

/-- Length of a value, as far as inference can tell. -/
inductive Length
  | zero
  | one
  | known (n : Nat)
  /-- May be anything, zero included. -/
  | unknown
  | nonempty
  | atLeast (n : Nat)
deriving DecidableEq, Repr

namespace Length

/-- The canonical length claiming only "at least `n`". -/
def lowerBound : Nat → Length
  | 0 => unknown
  | 1 => nonempty
  | n => atLeast n

def exact : Length → Option Nat
  | zero => some 0
  | one => some 1
  | known n => some n
  | unknown | nonempty | atLeast _ => none

/-- The smallest length this variant allows. -/
def minPossible : Length → Nat
  | zero | unknown => 0
  | one | nonempty => 1
  | known n | atLeast n => n

/-- Least upper bound at a control-flow merge. -/
def join (a b : Length) : Length :=
  if a = b then a
  else if a.exact.isSome && a.exact == b.exact then a
  else lowerBound (min a.minPossible b.minPossible)

def provenAboveOne : Length → Bool
  | known n => 1 < n
  | atLeast _ => true
  | _ => false

/-- Strengthen with a proven lower bound; exact lengths stay. -/
def refineAtLeast (a : Length) (n : Nat) : Length :=
  if a.exact.isSome then a else lowerBound (max a.minPossible n)

end Length

/-- The S3 class attribute: up to four names.  The source keeps a four-slot array
and a count; every constructor fills the slots from the left, so the names are a
list with its bound. -/
structure ClassVector where
  names : List String
  bound : names.length ≤ 4
  /-- `false`: the class could not be determined. -/
  known : Bool
  /-- The names come from a passing class test, which proves the test held and
  not the whole class vector. -/
  guarded : Bool
  /-- Stands in for an unmodeled S3 method's result; exported facts report the
  class as unknown. -/
  storageProxy : Bool
deriving DecidableEq, Repr

namespace ClassVector

/-- The source's `==`, which ignores `storageProxy`. -/
def eq (a b : ClassVector) : Bool :=
  a.names == b.names && a.known == b.known && a.guarded == b.guarded

/-- Known to carry no class attribute. -/
def empty : ClassVector := ⟨[], by decide, true, false, false⟩

def asStorageProxy : ClassVector := { empty with storageProxy := true }

def single (name : String) : ClassVector := ⟨[name], by simp, true, false, false⟩

/-- The class named by a passing class test. -/
def guard (name : String) : ClassVector := { single name with guarded := true }

def unknown : ClassVector := ⟨[], by decide, false, false, false⟩

/-- Truncates to the first four names. -/
def fromSlice (names : List String) : ClassVector :=
  ⟨names.take 4, List.length_take_le 4 names, true, false, false⟩

def contains (c : ClassVector) (name : String) : Bool := c.names.contains name

def isUnknown (c : ClassVector) : Bool := !c.known

/-- Proven to carry no class attribute (not unknown, not guarded). -/
def isClassless (c : ClassVector) : Bool := c.known && !c.guarded && c.names.isEmpty

def hasKnownClass (c : ClassVector) : Bool := c.known && !c.names.isEmpty

@[simp] theorem eq_iff (a b : ClassVector) :
    a.eq b = true ↔ a.names = b.names ∧ a.known = b.known ∧ a.guarded = b.guarded := by
  simp [eq, and_assoc]

end ClassVector

/-- What is known about an `NA` a coercion introduced. -/
inductive NewNaProvenance
  | none | possible | provenContains | provenOnly
deriving DecidableEq, Repr

/-- The provenance of a value that is either `a` or `b`. -/
def NewNaProvenance.join (a b : NewNaProvenance) : NewNaProvenance :=
  if a = b then a
  else match a, b with
    | .provenOnly, .provenContains | .provenContains, .provenOnly => .provenContains
    | _, _ => .possible

/-- Bounded value evidence for numeric coercion. -/
structure ValueFacts where
  /-- Exact extrema, as `f64` bit patterns. -/
  numericBounds : Option (UInt64 × UInt64)
  allValuesKnown : Bool
  priorNa : Bool
  newNa : NewNaProvenance
deriving DecidableEq

namespace ValueFacts

def default : ValueFacts := ⟨Option.none, false, false, .none⟩

/-- The facts that hold for a value that is either `a` or `b`. -/
def join (a b : ValueFacts) : ValueFacts where
  numericBounds := if a.numericBounds = b.numericBounds then a.numericBounds else Option.none
  allValuesKnown := a.allValuesKnown && b.allValuesKnown
    && decide (a.numericBounds = b.numericBounds) && a.priorNa == b.priorNa
    && decide (a.newNa = b.newNa)
  priorNa := a.priorNa || b.priorNa
  newNa := a.newNa.join b.newNa

end ValueFacts

/-- Schema of a record-like value: ordered named columns. -/
structure ColumnSchema (T : Type) where
  columns : List (String × T)
  complete : Bool
  locallyConstructed : Bool

/-- Inferred signature of a function value. -/
structure FunctionSignature (T : Type) where
  params : List T
  returnType : T

/-- A fully described R type. -/
structure RType where
  mode : Mode
  length : Length
  cls : ClassVector
  columns : Option (ColumnSchema RType)
  fnSig : Option (FunctionSignature RType)
  /-- The alternatives of a union (`mode = .union`), `none` otherwise. -/
  members : Option (List RType)
  valueFacts : ValueFacts

/-- `MAX_UNION_MEMBERS` -/
def maxUnionMembers : Nat := 4

namespace RType

/-- The direct parts of a type: column types, parameter and return types, union
members. -/
def parts (t : RType) : List RType :=
  (t.columns.elim [] fun s => s.columns.map Prod.snd)
    ++ (t.fnSig.elim [] fun s => s.returnType :: s.params)
    ++ t.members.getD []

/-- Induction over a type's direct parts. -/
theorem induction {P : RType → Prop} (h : ∀ t : RType, (∀ p ∈ t.parts, P p) → P t) (t : RType) :
    P t := by
  apply @RType.rec P
    (fun s => ∀ p ∈ s.elim [] (fun s => s.columns.map Prod.snd), P p)
    (fun s => ∀ p ∈ s.elim [] (fun s => s.returnType :: s.params), P p)
    (fun s => ∀ p ∈ s.getD [], P p)
    (fun s => ∀ p ∈ s.columns.map Prod.snd, P p)
    (fun s => ∀ p ∈ s.returnType :: s.params, P p)
    (fun l => ∀ p ∈ l, P p)
    (fun l => ∀ p ∈ l.map Prod.snd, P p)
    (fun c => P c.2)
  case mk =>
    intro mode length cls columns fnSig members facts hc hf hm
    refine h _ fun p hp => ?_
    simp only [parts, List.mem_append] at hp
    rcases hp with (hp | hp) | hp
    · exact hc p hp
    · exact hf p hp
    · exact hm p hp
  all_goals simp_all

/-! ## Comparison -/

mutual
/-- Structural comparison; `facts` says whether the value evidence counts. -/
def agree (facts : Bool) : RType → RType → Bool
  | ⟨mode, length, cls, columns, fnSig, members, valueFacts⟩, t =>
    decide (mode = t.mode) && decide (length = t.length) && cls.eq t.cls
      && agreeSchema? facts columns t.columns && agreeSig? facts fnSig t.fnSig
      && agreeMembers? facts members t.members
      && (!facts || decide (valueFacts = t.valueFacts))
termination_by structural t => t
def agreeSchema? (facts : Bool) :
    Option (ColumnSchema RType) → Option (ColumnSchema RType) → Bool
  | some a, some b => agreeSchema facts a b
  | none, none => true
  | _, _ => false
termination_by structural s => s
def agreeSchema (facts : Bool) : ColumnSchema RType → ColumnSchema RType → Bool
  | ⟨columns, complete, locallyConstructed⟩, b =>
    agreeColumns facts columns b.columns && complete == b.complete
      && locallyConstructed == b.locallyConstructed
termination_by structural s => s
def agreeColumns (facts : Bool) : List (String × RType) → List (String × RType) → Bool
  | a :: as, b :: bs => agreeColumn facts a b && agreeColumns facts as bs
  | [], [] => true
  | _, _ => false
termination_by structural l => l
def agreeColumn (facts : Bool) : String × RType → String × RType → Bool
  | (name, t), b => name == b.1 && agree facts t b.2
termination_by structural c => c
def agreeSig? (facts : Bool) :
    Option (FunctionSignature RType) → Option (FunctionSignature RType) → Bool
  | some a, some b => agreeSig facts a b
  | none, none => true
  | _, _ => false
termination_by structural s => s
def agreeSig (facts : Bool) : FunctionSignature RType → FunctionSignature RType → Bool
  | ⟨params, returnType⟩, b =>
    agreeList facts params b.params && agree facts returnType b.returnType
termination_by structural s => s
def agreeMembers? (facts : Bool) : Option (List RType) → Option (List RType) → Bool
  | some a, some b => agreeList facts a b
  | none, none => true
  | _, _ => false
termination_by structural s => s
def agreeList (facts : Bool) : List RType → List RType → Bool
  | a :: as, b :: bs => agree facts a b && agreeList facts as bs
  | [], [] => true
  | _, _ => false
termination_by structural l => l
end

/-- The source's `==`. -/
def eq (a b : RType) : Bool := agree true a b

/-- Equal structure whatever the value evidence.  The source also answers `true`
for two pointers to one shared part, which agrees with itself anyway. -/
def sameShape (a b : RType) : Bool := agree false a b

theorem agreeList_iff (facts : Bool) (as bs : List RType) :
    agreeList facts as bs = true ↔ List.Forall₂ (fun a b => agree facts a b = true) as bs := by
  induction as generalizing bs with
  | nil => cases bs <;> simp [agreeList]
  | cons a as ih => cases bs <;> simp [agreeList, ih]

theorem agreeColumns_iff (facts : Bool) (as bs : List (String × RType)) :
    agreeColumns facts as bs = true ↔
      List.Forall₂ (fun a b => a.1 = b.1 ∧ agree facts a.2 b.2 = true) as bs := by
  induction as generalizing bs with
  | nil => cases bs <;> simp [agreeColumns]
  | cons a as ih =>
    obtain ⟨name, t⟩ := a
    cases bs <;> simp [agreeColumns, agreeColumn, ih]

@[simp] theorem rel_some_some {A B : Type} {R : A → B → Prop} {a : A} {b : B} :
    Option.Rel R (some a) (some b) ↔ R a b :=
  ⟨fun h => by cases h; assumption, .some⟩

@[simp] theorem rel_none_none {A B : Type} {R : A → B → Prop} : Option.Rel R none none :=
  .none

@[simp] theorem not_rel_some_none {A B : Type} {R : A → B → Prop} {a : A} :
    ¬ Option.Rel R (some a) none := nofun

@[simp] theorem not_rel_none_some {A B : Type} {R : A → B → Prop} {b : B} :
    ¬ Option.Rel R none (some b) := nofun

/-- The comparison, read part by part. -/
theorem agree_iff (facts : Bool) (a b : RType) :
    agree facts a b = true ↔
      a.mode = b.mode ∧ a.length = b.length ∧ a.cls.eq b.cls = true
      ∧ Option.Rel (fun s s' => List.Forall₂
          (fun c c' => c.1 = c'.1 ∧ agree facts c.2 c'.2 = true) s.columns s'.columns
          ∧ s.complete = s'.complete ∧ s.locallyConstructed = s'.locallyConstructed)
          a.columns b.columns
      ∧ Option.Rel (fun s s' => List.Forall₂ (fun p p' => agree facts p p' = true) s.params s'.params
          ∧ agree facts s.returnType s'.returnType = true) a.fnSig b.fnSig
      ∧ Option.Rel (List.Forall₂ (fun m m' => agree facts m m' = true)) a.members b.members
      ∧ (facts = true → a.valueFacts = b.valueFacts) := by
  obtain ⟨mode, length, cls, columns, fnSig, members, valueFacts⟩ := a
  have hschema : agreeSchema? facts columns b.columns = true ↔
      Option.Rel (fun s s' => List.Forall₂
          (fun c c' => c.1 = c'.1 ∧ agree facts c.2 c'.2 = true) s.columns s'.columns
          ∧ s.complete = s'.complete ∧ s.locallyConstructed = s'.locallyConstructed)
        columns b.columns := by
    rcases columns with _ | ⟨cs, k, l⟩ <;> rcases b.columns with _ | s' <;>
      simp [agreeSchema?, agreeSchema, agreeColumns_iff, and_assoc]
  have hsig : agreeSig? facts fnSig b.fnSig = true ↔
      Option.Rel (fun s s' => List.Forall₂ (fun p p' => agree facts p p' = true) s.params s'.params
          ∧ agree facts s.returnType s'.returnType = true) fnSig b.fnSig := by
    rcases fnSig with _ | ⟨ps, r⟩ <;> rcases b.fnSig with _ | s' <;>
      simp [agreeSig?, agreeSig, agreeList_iff]
  have hmembers : agreeMembers? facts members b.members = true ↔
      Option.Rel (List.Forall₂ (fun m m' => agree facts m m' = true)) members b.members := by
    rcases members with _ | ms <;> rcases b.members with _ | ms' <;>
      simp [agreeMembers?, agreeList_iff]
  simp only [agree, Bool.and_eq_true, decide_eq_true_eq, hschema, hsig, hmembers,
    Bool.or_eq_true, Bool.not_eq_true', and_assoc]
  cases facts <;> simp

end RType

/-- How an injection site splices its argument. -/
inductive InjectionMode
  | splice | full
deriving DecidableEq

end Ry
