import Ry.Core.Ast
import Ry.Core.JoinOrder
import Ry.Core.JoinSound
import Ry.Core.Lengths

/-! # Arithmetic and comparison of types

`arith_for` and `compare` distribute over the members of unions and join what the pairs of
members give.  The result is the error only where every pair is one, and otherwise describes
what each pair that succeeds does (`operation_spec`).
-/

namespace Ry

namespace Mode

/-- Shared numeric promotion for binary arithmetic. -/
def arithResult : Mode → Mode → Option Mode
  | raw, _ | _, raw => none
  | opaqueMode, _ | environment, _ | _, opaqueMode | _, environment => some opaqueMode
  -- unions are distributed before; a stray one is taken for unknown
  | union, _ | _, union => some opaqueMode
  | language, _ | _, language => none
  | character, _ | _, character => none
  | list, _ | _, list => none
  | function, _ | _, function => none
  | complex, _ | _, complex => some complex
  | double, _ | _, double => some double
  | integer, _ | _, integer => some integer
  | logical, logical | logical, null | null, logical | null, null => some integer

def compareResult : Mode → Mode → Option Mode
  | opaqueMode, _ | environment, _ | language, _
  | _, opaqueMode | _, environment | _, language => some opaqueMode
  | union, _ | _, union => some opaqueMode
  | list, _ | _, list => none
  | function, _ | _, function => none
  | _, _ => some logical

theorem not_union_arithResult {a b m : Mode} (h : a.arithResult b = some m) : m ≠ .union := by
  cases a <;> cases b <;> cases h <;> decide

theorem not_union_compareResult {a b m : Mode} (h : a.compareResult b = some m) :
    m ≠ .union := by
  cases a <;> cases b <;> cases h <;> decide

end Mode

namespace RType

/-- The length proves an element. -/
def provenNonempty : Length → Bool
  | .one | .nonempty | .atLeast _ => true
  | .known n => 1 ≤ n
  | _ => false

/-- The length of an arithmetic result; `NULL` is empty whatever its length says. -/
def arithLength (self rhs : RType) : Length :=
  if self.mode = .null || rhs.mode = .null then .zero else self.length.binary rhs.length

/-- Arithmetic of two types that are no unions. -/
def arithAtomic (op : BinOpKind) (self rhs : RType) : Option RType :=
  let classless := self.cls.isClassless && rhs.cls.isClassless
  -- an operand that may own an `Ops` method proves nothing
  if self.mode = .environment || rhs.mode = .environment
      || (self.mode = .language || rhs.mode = .language) && !classless then some unknown
  else do
    let mode ← self.mode.arithResult rhs.mode
    let length := arithLength self rhs
    let mode := if (op = .div || op = .pow) && mode = .integer then .double else mode
    if (op = .mod || op = .idiv) && (self.mode = .complex || rhs.mode = .complex)
        && length ≠ .zero then
      if provenNonempty self.length && provenNonempty rhs.length then none else some unknown
    else
      let cls :=
        if classless then
          if self.cls.storageProxy || rhs.cls.storageProxy then .asStorageProxy else .empty
        else .unknown
      some { new mode length with cls := cls }

def compareAtomic (self rhs : RType) : Option RType := do
  let mode ← self.mode.compareResult rhs.mode
  some (new mode (self.length.binary rhs.length))

/-- The types an operand is distributed over. -/
def operands (t : RType) : List RType :=
  match t.members with
  | some ms => if t.mode = .union then ms else [t]
  | none => [t]

/-- Distribute a binary operation over union members, joining what succeeds. -/
def distribute (op : RType → RType → Option RType) (lhs rhs : RType) : Option RType :=
  match lhs.operands.flatMap fun l => rhs.operands.filterMap (op l) with
  | [] => none
  | t :: ts => some (ts.foldl join t)

def arithFor (self rhs : RType) (op : BinOpKind) : Option RType :=
  if !op.isArithmetic then none else distribute (arithAtomic op) self rhs

def compare (self rhs : RType) : Option RType := distribute compareAtomic self rhs

/-! ## Distribution -/

theorem distribute_eq_none_iff (op : RType → RType → Option RType) (lhs rhs : RType) :
    distribute op lhs rhs = none ↔
      ∀ l ∈ lhs.operands, ∀ r ∈ rhs.operands, op l r = none := by
  have hnil : distribute op lhs rhs = none ↔
      (lhs.operands.flatMap fun l => rhs.operands.filterMap (op l)) = [] := by
    unfold distribute
    split <;> simp_all
  simp [hnil, List.flatMap_eq_nil_iff, List.filterMap_eq_nil_iff]

/-- What an operation over single types gives: no union, no schema and no signature. -/
structure Single (t : RType) : Prop where
  mode : t.mode ≠ .union
  members : t.members = none
  columns : t.columns = none
  fnSig : t.fnSig = none

theorem Single.plain {t : RType} (h : t.Single) : t.PlainUnion := fun hu => (h.mode hu).elim

theorem single_new {m : Mode} (hm : m ≠ .union) (l : Length) (c : ClassVector) :
    Single { new m l with cls := c } := ⟨hm, rfl, rfl, rfl⟩

theorem single_unknown : Single unknown := ⟨by decide, rfl, rfl, rfl⟩

/-- Joining a list of plain unions describes what each of them does. -/
theorem describes_foldl_join {ts : List RType} {t : RType} (ht : t.PlainUnion)
    (hts : ∀ u ∈ ts, u.PlainUnion) {v : RValue}
    (hv : t.describes v = true ∨ ∃ u ∈ ts, u.describes v = true) :
    (ts.foldl join t).describes v = true := by
  induction ts generalizing t with
  | nil => simpa using hv
  | cons u ts ih =>
    rw [List.forall_mem_cons] at hts
    refine ih (ht.join hts.1) hts.2 ?_
    rcases hv with hv | ⟨w, hw, hv⟩
    · exact .inl (describes_join_left ht u hv)
    · rcases List.mem_cons.mp hw with rfl | hw
      · exact .inl (describes_join_right t hts.1 hv)
      · exact .inr ⟨w, hw, hv⟩

theorem distribute_covers {op : RType → RType → Option RType}
    (hop : ∀ l r out, op l r = some out → out.Single) {lhs rhs t : RType}
    (h : distribute op lhs rhs = some t) {l r out : RType} (hl : l ∈ lhs.operands)
    (hr : r ∈ rhs.operands) (hout : op l r = some out) {v : RValue} (hv : out.describes v = true) :
    t.describes v = true := by
  have hmem : out ∈ lhs.operands.flatMap fun l => rhs.operands.filterMap (op l) :=
    List.mem_flatMap.mpr ⟨l, hl, List.mem_filterMap.mpr ⟨r, hr, hout⟩⟩
  have hsingle : ∀ u ∈ lhs.operands.flatMap fun l => rhs.operands.filterMap (op l),
      u.PlainUnion := by
    intro u hu
    obtain ⟨l, -, hu⟩ := List.mem_flatMap.mp hu
    obtain ⟨r, -, hu⟩ := List.mem_filterMap.mp hu
    exact (hop l r u hu).plain
  unfold distribute at h
  split at h
  · cases h
  · rename_i u us hus
    rw [hus] at hmem hsingle
    obtain rfl := Option.some.inj h
    rw [List.forall_mem_cons] at hsingle
    refine describes_foldl_join hsingle.1 hsingle.2 ?_
    rcases List.mem_cons.mp hmem with rfl | hmem
    · exact .inl hv
    · exact .inr ⟨out, hmem, hv⟩

/-- Arithmetic gives the unknown type, or a vector of the recycled length. -/
theorem arithAtomic_cases {op : BinOpKind} {l r out : RType}
    (h : arithAtomic op l r = some out) :
    out = unknown ∨ ∃ m c, m ≠ .union ∧ out = { new m (arithLength l r) with cls := c } := by
  simp only [arithAtomic] at h
  split at h
  · exact .inl (Option.some.inj h).symm
  · obtain ⟨m, hm, h⟩ := Option.bind_eq_some_iff.mp h
    split at h
    · split at h
      · cases h
      · exact .inl (Option.some.inj h).symm
    · refine .inr ⟨_, _, ?_, (Option.some.inj h).symm⟩
      split
      · decide
      · exact Mode.not_union_arithResult hm

theorem compareAtomic_cases {l r out : RType} (h : compareAtomic l r = some out) :
    ∃ m, m ≠ .union ∧ out = new m (l.length.binary r.length) := by
  obtain ⟨m, hm, h⟩ := Option.bind_eq_some_iff.mp h
  exact ⟨m, Mode.not_union_compareResult hm, (Option.some.inj h).symm⟩

end RType

/-- An arithmetic or comparison operator. -/
inductive Operator
  | arith (op : BinOpKind) (h : op.isArithmetic = true)
  | comparison

namespace Operator

open RType

/-- The operation on types that are no unions. -/
def atomic : Operator → RType → RType → Option RType
  | arith op _ => arithAtomic op
  | comparison => compareAtomic

def apply : Operator → RType → RType → Option RType
  | arith op _ => fun l r => l.arithFor r op
  | comparison => RType.compare

theorem apply_eq (o : Operator) (l r : RType) : o.apply l r = distribute o.atomic l r := by
  cases o with
  | arith op h => simp [apply, arithFor, h, atomic]
  | comparison => rfl

theorem single_atomic (o : Operator) {l r out : RType} (h : o.atomic l r = some out) :
    out.Single := by
  cases o with
  | arith op _ =>
    rcases arithAtomic_cases h with rfl | ⟨m, c, hm, rfl⟩
    · exact single_unknown
    · exact single_new hm _ c
  | comparison =>
    obtain ⟨m, hm, rfl⟩ := compareAtomic_cases h
    exact single_new hm _ .empty

/-- A pair's result has the length R recycles its operands to; `NULL` has none. -/
theorem length_atomic (o : Operator) {l r out : RType} (h : o.atomic l r = some out) {m n : Nat}
    (hm : l.length.describes m = true) (hn : r.length.describes n = true)
    (hl : l.length ≠ .atLeast 0) (hr : r.length ≠ .atLeast 0)
    (hlnull : l.mode = .null → m = 0) (hrnull : r.mode = .null → n = 0) :
    out.length.describes (Length.recycled m n) = true := by
  have hbinary := Length.describes_binary hl hr hm hn
  cases o with
  | arith op _ =>
    rcases arithAtomic_cases h with rfl | ⟨mode, c, -, rfl⟩
    · exact Length.describes_unknown _
    · simp only [new, arithLength]
      split
      · rename_i hnull
        have hzero : Length.recycled m n = 0 := by
          simp only [Bool.or_eq_true, decide_eq_true_eq] at hnull
          rcases hnull with h | h
          · simp [hlnull h, Length.recycled]
          · simp [hrnull h, Length.recycled]
        rw [hzero]
        rfl
      · exact hbinary
  | comparison =>
    obtain ⟨mode, -, rfl⟩ := compareAtomic_cases h
    exact hbinary

end Operator

namespace RType

/-- A storage each mode but a union's allows. -/
def storageOf : Mode → Storage
  | .logical => .logical | .integer => .integer | .double => .double | .complex => .complex
  | .character => .character | .raw => .raw | .list => .list | .null => .null
  | .function => .function | .environment => .environment | .language => .language
  | .opaqueMode | .union => .null

theorem describes_storageOf (m : Mode) : m.describes (storageOf m) = true := by
  cases m <;> rfl

theorem describes_names (c : ClassVector) : c.describes c.names = true := by
  have htake : c.names.take 4 = c.names := List.take_of_length_le c.bound
  unfold ClassVector.describes
  split
  · rfl
  · split <;> simp [htake]

/-- Every length a single type allows is one of a value it describes. -/
theorem Single.exists_value {t : RType} (h : t.Single) {n : Nat}
    (hn : t.length.describes n = true) : ∃ v, t.describes v = true ∧ v.length = n := by
  refine ⟨⟨storageOf t.mode, n, t.cls.names, [], []⟩, ?_, rfl⟩
  obtain ⟨mode, length, cls, columns, fnSig, members, facts⟩ := t
  obtain ⟨hmode, -, rfl, rfl⟩ := h
  dsimp only at hmode hn
  simp [describes, describesUnder, describes_storageOf, hn, hmode, describes_names,
    describesSchema?, describesSig?]

/-- Both directions of the error, and that the result covers every pair that succeeds: the
values its type describes, and the lengths R recycles the members to. -/
theorem operation_spec (o : Operator) (lhs rhs : RType) :
    (o.apply lhs rhs = none ↔ ∀ l ∈ lhs.operands, ∀ r ∈ rhs.operands, o.atomic l r = none) ∧
    ∀ t, o.apply lhs rhs = some t → ∀ l ∈ lhs.operands, ∀ r ∈ rhs.operands, ∀ out,
      o.atomic l r = some out →
      (∀ v, out.describes v = true → t.describes v = true) ∧
      ∀ m n, l.length.describes m = true → r.length.describes n = true →
        l.length ≠ .atLeast 0 → r.length ≠ .atLeast 0 →
        (l.mode = .null → m = 0) → (r.mode = .null → n = 0) →
        t.length.describes (Length.recycled m n) = true := by
  rw [o.apply_eq]
  refine ⟨distribute_eq_none_iff _ lhs rhs, fun t ht l hl r hr out hout => ?_⟩
  have hcovers : ∀ v, out.describes v = true → t.describes v = true := fun v =>
    distribute_covers (fun _ _ _ => o.single_atomic) ht hl hr hout
  refine ⟨hcovers, fun m n hm hn hlspell hrspell hlnull hrnull => ?_⟩
  have hlength := o.length_atomic hout hm hn hlspell hrspell hlnull hrnull
  obtain ⟨v, hv, hvn⟩ := (o.single_atomic hout).exists_value hlength
  rw [← hvn]
  exact length_of_describesUnder (hcovers v hv)

end RType
end Ry
