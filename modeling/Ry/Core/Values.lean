import Ry.Core.Join

/-! # What a type says about a value

The checker's types are claims about R values.  An `RValue` is an R value as far as
a type can speak about it: its storage, length, class attribute, the elements a
record schema names, and, for a function, what its calls return.

`RType.describes` reads a type as a set of values.  A union's own class, set by
`structure()` or a class test on a value whose members were already joined, applies
to every member and takes the place of the members' classes.  The value evidence
and the export marker of a class claim nothing, as the source's own comparison
ignores both.
-/

namespace Ry

/-- How a value is stored; the answer of `typeof()`. -/
inductive Storage
  | logical | integer | double | complex | character | raw
  | list
  | null
  | function
  | environment
  | language
deriving DecidableEq, Repr

/-- An R value, as far as a type speaks about it. -/
structure RValue where
  storage : Storage
  length : Nat
  /-- The class attribute, empty when there is none. -/
  cls : List String
  /-- The elements, under the key a record schema gives them. -/
  fields : List (String × RValue)
  /-- What calls of a function value return. -/
  results : List RValue

namespace Mode

/-- The storages a mode allows.  A union's are those of its members. -/
def describes : Mode → Storage → Bool
  | logical, .logical | integer, .integer | double, .double | complex, .complex
  | character, .character | raw, .raw | list, .list | null, .null
  | function, .function | environment, .environment | language, .language => true
  | opaqueMode, _ | union, _ => true
  | _, _ => false

end Mode

namespace Length

def describes (l : Length) (n : Nat) : Bool :=
  match l.exact with
  | some k => n == k
  | none => l.minPossible ≤ n

theorem describes_lowerBound (k n : Nat) : (lowerBound k).describes n = true ↔ k ≤ n := by
  rcases k with _ | _ | k <;> simp [lowerBound, describes, exact, minPossible]

theorem minPossible_le {l : Length} {n : Nat} (h : l.describes n = true) : l.minPossible ≤ n := by
  cases l <;> simp_all [describes, exact, minPossible] <;> exact of_decide_eq_true h

/-- A join allows every length its left side allows. -/
theorem describes_join_left {a : Length} (b : Length) {n : Nat} (h : a.describes n = true) :
    (a.join b).describes n = true := by
  unfold join
  split
  · exact h
  · split
    · exact h
    · rw [describes_lowerBound]
      exact Nat.le_trans (Nat.min_le_left _ _) (minPossible_le h)

theorem describes_join_right (a : Length) {b : Length} {n : Nat} (h : b.describes n = true) :
    (a.join b).describes n = true := by
  unfold join
  split
  · rename_i hab
    exact hab ▸ h
  · split
    · rename_i _ hexact
      simp only [Bool.and_eq_true, beq_iff_eq] at hexact
      simp only [describes, ← hexact.2] at h
      obtain ⟨k, hk⟩ := Option.isSome_iff_exists.mp hexact.1
      simpa [describes, hk] using h
    · rw [describes_lowerBound]
      exact Nat.le_trans (Nat.min_le_right _ _) (minPossible_le h)

/-- The fold a union's length is computed with allows what each member allows. -/
theorem describes_foldl_join (ls : List Length) (init : Length) {n : Nat}
    (h : init.describes n = true ∨ ∃ l ∈ ls, l.describes n = true) :
    (ls.foldl join init).describes n = true := by
  induction ls generalizing init with
  | nil => simpa using h
  | cons l ls ih =>
    refine ih _ ?_
    rcases h with h | ⟨k, hk, h⟩
    · exact .inl (describes_join_left l h)
    · rcases List.mem_cons.mp hk with rfl | hk
      · exact .inl (describes_join_right init h)
      · exact .inr ⟨k, hk, h⟩

end Length

namespace ClassVector

/-- The class attributes a class claim allows.  A passing class test proves the
names it saw and not that there are no others; four stored names may be the first
four of more. -/
def describes (c : ClassVector) (attr : List String) : Bool :=
  if !c.known then true
  else if c.guarded then c.names.all attr.contains
  else c.names == attr.take 4

theorem describes_congr {a b : ClassVector} (h : a.eq b = true) (attr : List String) :
    a.describes attr = b.describes attr := by
  obtain ⟨hn, hk, hg⟩ := (eq_iff a b).mp h
  simp [describes, hn, hk, hg]

@[simp] theorem describes_unknown (attr : List String) : unknown.describes attr = true := rfl

end ClassVector

namespace RType

/-- The class claim a union's members are read under: the class set on the union
itself, when there is one, in place of their own. -/
def outerClass (outer : Option ClassVector) (cls : ClassVector) : Option ClassVector :=
  outer <|> if cls.isClassless then none else some cls

mutual
/-- Whether the type describes `v`, with `outer` standing for the class a union
around it carries. -/
def describesUnder (outer : Option ClassVector) : RType → RValue → Bool
  | ⟨mode, length, cls, columns, fnSig, members, _⟩, v =>
    mode.describes v.storage && length.describes v.length
      && if mode = .union then describesMembers? (outerClass outer cls) members v
        else (outer.getD cls).describes v.cls && describesSchema? columns v
          && describesSig? fnSig v
termination_by structural t => t
def describesSchema? : Option (ColumnSchema RType) → RValue → Bool
  | none, _ => true
  | some s, v => describesSchema s v
termination_by structural s => s
/-- A complete schema names every element in order; an incomplete one claims the
elements it names. -/
def describesSchema : ColumnSchema RType → RValue → Bool
  | ⟨columns, complete, _⟩, v =>
    if complete then describesColumns columns v.fields else describesSome columns v.fields
termination_by structural s => s
def describesColumns : List (String × RType) → List (String × RValue) → Bool
  | c :: cs, f :: fs => describesColumn c f && describesColumns cs fs
  | [], [] => true
  | _, _ => false
termination_by structural l => l
def describesSome : List (String × RType) → List (String × RValue) → Bool
  | [], _ => true
  | c :: cs, fs => fs.any (describesColumn c) && describesSome cs fs
termination_by structural l => l
def describesColumn : String × RType → String × RValue → Bool
  | (name, t), f => name == f.1 && describesUnder none t f.2
termination_by structural c => c
def describesSig? : Option (FunctionSignature RType) → RValue → Bool
  | none, _ => true
  | some s, v => describesSig s v
termination_by structural s => s
/-- The signature's parameters are defaults and call-site evidence; only its return
type claims something about the function value. -/
def describesSig : FunctionSignature RType → RValue → Bool
  | ⟨_, returnType⟩, v => v.results.all (describesUnder none returnType)
termination_by structural s => s
def describesMembers? (outer : Option ClassVector) : Option (List RType) → RValue → Bool
  | none, _ => false
  | some ms, v => describesMembers outer ms v
termination_by structural s => s
def describesMembers (outer : Option ClassVector) : List RType → RValue → Bool
  | [], _ => false
  | m :: ms, v => describesUnder outer m v || describesMembers outer ms v
termination_by structural l => l
end

/-- The values a type describes. -/
def describes (t : RType) (v : RValue) : Bool := describesUnder none t v

theorem describesMembers_iff (outer : Option ClassVector) (ms : List RType) (v : RValue) :
    describesMembers outer ms v = true ↔ ∃ m ∈ ms, describesUnder outer m v = true := by
  induction ms with
  | nil => simp [describesMembers]
  | cons m ms ih => simp [describesMembers, ih]

theorem describesColumns_iff (cs : List (String × RType)) (fs : List (String × RValue)) :
    describesColumns cs fs = true ↔
      List.Forall₂ (fun c f => c.1 = f.1 ∧ describesUnder none c.2 f.2 = true) cs fs := by
  induction cs generalizing fs with
  | nil => cases fs <;> simp [describesColumns]
  | cons c cs ih =>
    obtain ⟨name, t⟩ := c
    cases fs <;> simp [describesColumns, describesColumn, ih]

theorem describesSome_iff (cs : List (String × RType)) (fs : List (String × RValue)) :
    describesSome cs fs = true ↔
      ∀ c ∈ cs, ∃ f ∈ fs, c.1 = f.1 ∧ describesUnder none c.2 f.2 = true := by
  induction cs with
  | nil => simp [describesSome]
  | cons c cs ih =>
    obtain ⟨name, t⟩ := c
    simp [describesSome, describesColumn, ih]

/-! ## The comparison respects the reading -/

/-- Two types describe the same values, whatever equal class claims they are read
under. -/
def SameValues (a b : RType) : Prop :=
  ∀ outer outer' v, Option.Rel (fun c c' => ClassVector.eq c c' = true) outer outer' →
    describesUnder outer a v = describesUnder outer' b v

theorem SameValues.describes {a b : RType} (h : SameValues a b) (v : RValue) :
    describesUnder none a v = describesUnder none b v :=
  h none none v .none

theorem describesMembers_congr {as bs : List RType} (h : List.Forall₂ SameValues as bs)
    {outer outer' : Option ClassVector}
    (ho : Option.Rel (fun c c' => ClassVector.eq c c' = true) outer outer') (v : RValue) :
    describesMembers outer as v = describesMembers outer' bs v := by
  induction h with
  | nil => rfl
  | cons hab _ ih => simp [describesMembers, hab outer outer' v ho, ih]

theorem describesColumns_congr {as bs : List (String × RType)}
    (h : List.Forall₂ (fun a b => a.1 = b.1 ∧ SameValues a.2 b.2) as bs)
    (fs : List (String × RValue)) : describesColumns as fs = describesColumns bs fs := by
  induction h generalizing fs with
  | nil => rfl
  | @cons a b _ _ hab _ ih =>
    obtain ⟨name, t⟩ := a
    obtain ⟨name', t'⟩ := b
    obtain ⟨rfl, ht⟩ := hab
    cases fs with
    | nil => rfl
    | cons f fs => simp [describesColumns, describesColumn, ht.describes f.2, ih]

theorem describesSome_congr {as bs : List (String × RType)}
    (h : List.Forall₂ (fun a b => a.1 = b.1 ∧ SameValues a.2 b.2) as bs)
    (fs : List (String × RValue)) : describesSome as fs = describesSome bs fs := by
  induction h with
  | nil => rfl
  | @cons a b _ _ hab _ ih =>
    obtain ⟨name, t⟩ := a
    obtain ⟨name', t'⟩ := b
    obtain ⟨rfl, ht⟩ := hab
    have hcolumn : describesColumn (name, t) = describesColumn (name, t') := by
      funext f
      simp [describesColumn, ht.describes f.2]
    simp [describesSome, hcolumn, ih]

/-- Equal class claims put equal claims on a union's members. -/
theorem outerClass_congr {outer outer' : Option ClassVector} {cls cls' : ClassVector}
    (ho : Option.Rel (fun c c' => ClassVector.eq c c' = true) outer outer')
    (hc : cls.eq cls' = true) :
    Option.Rel (fun c c' => ClassVector.eq c c' = true) (outerClass outer cls)
      (outerClass outer' cls') := by
  cases ho with
  | some h => exact .some h
  | none =>
    obtain ⟨hn, hk, hg⟩ := (ClassVector.eq_iff _ _).mp hc
    have hclassless : cls.isClassless = cls'.isClassless := by
      simp [ClassVector.isClassless, hn, hk, hg]
    simp only [outerClass, hclassless]
    split
    · exact .none
    · exact .some hc

/-- Two types of one shape describe the same values. -/
theorem sameValues_of_sameShape {a b : RType} (h : a.sameShape b = true) : SameValues a b := by
  induction a using RType.induction generalizing b with
  | h a ih =>
    obtain ⟨hmode, hlength, hcls, hcolumns, hsig, hmembers, -⟩ := (agree_iff false a b).mp h
    obtain ⟨mode, length, cls, columns, fnSig, members, facts⟩ := a
    obtain ⟨mode', length', cls', columns', fnSig', members', facts'⟩ := b
    dsimp only at hmode hlength hcls hcolumns hsig hmembers
    subst hmode hlength
    have hschema : ∀ v, describesSchema? columns v = describesSchema? columns' v := by
      intro v
      cases hcolumns with
      | none => rfl
      | @some s s' hs =>
        obtain ⟨cs, complete, _⟩ := s
        obtain ⟨cs', complete', _⟩ := s'
        obtain ⟨hcs, rfl, -⟩ := hs
        have hcs : List.Forall₂ (fun c c' => c.1 = c'.1 ∧ SameValues c.2 c'.2) cs cs' :=
          ((List.forall₂_and_left _ _).mpr ⟨fun c hc => hc, hcs⟩).imp fun c c' hcc =>
            ⟨hcc.2.1, ih c.2 (mem_parts_column rfl hcc.1) hcc.2.2⟩
        simp [describesSchema?, describesSchema, describesColumns_congr hcs,
          describesSome_congr hcs]
    have hfn : ∀ v, describesSig? fnSig v = describesSig? fnSig' v := by
      intro v
      cases hsig with
      | none => rfl
      | @some s s' hs =>
        obtain ⟨ps, r⟩ := s
        obtain ⟨ps', r'⟩ := s'
        have hr : SameValues r r' := ih r (by simp [parts]) hs.2
        simp [describesSig?, describesSig, funext hr.describes]
    intro outer outer' v ho
    have hms : describesMembers? (outerClass outer cls) members v
        = describesMembers? (outerClass outer' cls') members' v := by
      cases hmembers with
      | none => rfl
      | @some ms ms' hms =>
        have hms : List.Forall₂ SameValues ms ms' :=
          ((List.forall₂_and_left _ _).mpr ⟨fun m hm => hm, hms⟩).imp fun m m' hmm =>
            ih m (mem_parts_member rfl hmm.1) hmm.2
        exact describesMembers_congr hms (outerClass_congr ho hcls) v
    have hattr : (outer.getD cls).describes v.cls = (outer'.getD cls').describes v.cls := by
      cases ho with
      | none => exact ClassVector.describes_congr hcls v.cls
      | some h => exact ClassVector.describes_congr h v.cls
    simp only [describesUnder, hschema, hfn, hms, hattr]

/-- Types of one shape describe the same values. -/
theorem describes_congr {a b : RType} (h : a.sameShape b = true) (v : RValue) :
    a.describes v = b.describes v :=
  (sameValues_of_sameShape h).describes v

end RType

end Ry
