import Ry.Core.JoinSound
import Ry.Declared.Compare
import Ry.Infer.Matching

/-! # A verdict is never false

A declared predicate is a set of R values, and so is an inferred type.  `Evidence.Sound` says
what a verdict claims about two such sets; the two ways of combining verdicts keep it, so the
comparison has it as soon as its leaves do.

`class()` of a value without a class attribute depends on what a type does not record, such as
dimensions, so the implicit class is an arbitrary function.
-/

namespace Ry.Declared

/-! ## What verdicts claim -/

section Evidence

variable {V : Type}

/-- `compatible` claims that every value of the first set is in the second, `incompatible` that
none is. -/
def Evidence.Sound (e : Evidence) (described satisfies : V → Prop) : Prop :=
  (e = .compatible → ∀ v, described v → satisfies v) ∧
    (e = .incompatible → ∀ v, described v → ¬ satisfies v)

theorem Evidence.sound_insufficient (described satisfies : V → Prop) :
    Evidence.Sound .insufficient described satisfies := by
  constructor <;> intro h <;> cases h

theorem Evidence.sound_compatible {described satisfies : V → Prop}
    (h : ∀ v, described v → satisfies v) :
    Evidence.Sound .compatible described satisfies := by
  constructor
  · exact fun _ => h
  · intro h
    cases h

theorem Evidence.sound_incompatible {described satisfies : V → Prop}
    (h : ∀ v, described v → ¬ satisfies v) :
    Evidence.Sound .incompatible described satisfies := by
  constructor
  · intro h
    cases h
  · exact fun _ => h

theorem Evidence.sound_ite {p : Prop} [Decidable p] {e e' : Evidence}
    {described satisfies : V → Prop} (h : p → e.Sound described satisfies)
    (h' : ¬ p → e'.Sound described satisfies) :
    (if p then e else e').Sound described satisfies := by
  by_cases hp : p
  · rw [if_pos hp]
    exact h hp
  · rw [if_neg hp]
    exact h' hp

/-- A value of each of several sets, against one predicate. -/
theorem sound_combineAll {I : Type} {members : List I} {verdict : I → Evidence}
    {described : I → V → Prop} {satisfies : V → Prop}
    (h : ∀ i ∈ members, (verdict i).Sound (described i) satisfies) :
    (combineAll (members.map verdict)).Sound (fun v => ∃ i ∈ members, described i v)
      satisfies := by
  unfold combineAll
  refine Evidence.sound_ite (fun _ => Evidence.sound_insufficient _ _) fun _ => ?_
  refine Evidence.sound_ite (fun hall => ?_) fun _ => ?_
  · refine Evidence.sound_compatible ?_
    rintro v ⟨i, hi, hv⟩
    exact (h i hi).1 (hall _ (List.mem_map_of_mem hi)) v hv
  · refine Evidence.sound_ite (fun hall => ?_) fun _ => Evidence.sound_insufficient _ _
    refine Evidence.sound_incompatible ?_
    rintro v ⟨i, hi, hv⟩
    exact (h i hi).2 (hall _ (List.mem_map_of_mem hi)) v hv

/-- A value of one set, against several predicates of which one suffices. -/
theorem sound_combineAny {I : Type} {parts : List I} {verdict : I → Evidence}
    {described : V → Prop} {satisfies : I → V → Prop}
    (h : ∀ i ∈ parts, (verdict i).Sound described (satisfies i)) :
    (combineAny (parts.map verdict)).Sound described fun v => ∃ i ∈ parts, satisfies i v := by
  unfold combineAny
  refine Evidence.sound_ite (fun hmem => ?_) fun _ => ?_
  · refine Evidence.sound_compatible fun v hv => ?_
    obtain ⟨i, hi, hcompatible⟩ := List.mem_map.mp hmem
    exact ⟨i, hi, (h i hi).1 hcompatible v hv⟩
  · refine Evidence.sound_ite (fun hall => ?_) fun _ => Evidence.sound_insufficient _ _
    refine Evidence.sound_incompatible ?_
    rintro v hv ⟨i, hi, hsatisfies⟩
    exact (h i hi).2 (hall.2 _ (List.mem_map_of_mem hi)) v hv hsatisfies

end Evidence

/-! ## What a predicate says -/

def AtomicMode.storage : AtomicMode → Storage
  | .logical => .logical
  | .integer => .integer
  | .double => .double
  | .complex => .complex
  | .character => .character
  | .raw => .raw
  | .list => .list
  | .null => .null

def DeclaredLength.allows : DeclaredLength → Nat → Prop
  | .exact expected, n => n = expected
  | .nonempty, n => 0 < n

/-- What `class()` returns. -/
def effectiveClass (implicitClass : RValue → List String) (v : RValue) : List String :=
  if v.cls = [] then implicitClass v else v.cls

mutual
def TypeExpr.satisfied (implicitClass : RValue → List String) : TypeExpr → RValue → Prop
  | .unknown, _ => True
  | .exactClass expected, v => effectiveClass implicitClass v = [expected]
  | .atomic mode length, v => v.storage = mode.storage ∧ ∀ declared ∈ length, declared.allows v.length
  | .union alternatives, v => anySatisfied implicitClass alternatives v
termination_by structural constraint => constraint
def anySatisfied (implicitClass : RValue → List String) : List TypeExpr → RValue → Prop
  | [], _ => False
  | part :: parts, v => part.satisfied implicitClass v ∨ anySatisfied implicitClass parts v
termination_by structural parts => parts
end

theorem anySatisfied_iff (implicitClass : RValue → List String) (parts : List TypeExpr)
    (v : RValue) :
    anySatisfied implicitClass parts v ↔ ∃ part ∈ parts, part.satisfied implicitClass v := by
  induction parts with
  | nil => simp [anySatisfied]
  | cons part parts ih => simp [anySatisfied, ih]

theorem compareAlternatives_eq (t : RType) (parts : List TypeExpr) :
    compareAlternatives t parts = parts.map (compareOne t) := by
  induction parts with
  | nil => rfl
  | cons part parts ih => rw [compareAlternatives, ih, List.map_cons]

theorem compareActualAlternatives_eq (t : RType) (expression : Expr) (parts : List TypeExpr) :
    compareActualAlternatives t expression parts = parts.map (compareActual t expression) := by
  induction parts with
  | nil => rfl
  | cons part parts ih => rw [compareActualAlternatives, ih, List.map_cons]

theorem compareMembers_eq (constraint : TypeExpr) (members : List RType) :
    compareMembers constraint members = members.map (compare constraint) := by
  induction members with
  | nil => rfl
  | cons member members ih => rw [compareMembers, ih, List.map_cons]

/-- Induction over a predicate and its alternatives. -/
theorem TypeExpr.induction {P : TypeExpr → Prop} (unknown : P .unknown)
    (exactClass : ∀ expected, P (.exactClass expected))
    (atomic : ∀ mode length, P (.atomic mode length))
    (union : ∀ alternatives, (∀ part ∈ alternatives, P part) → P (.union alternatives))
    (constraint : TypeExpr) : P constraint := by
  apply @TypeExpr.rec P (fun parts => ∀ part ∈ parts, P part)
  case unknown => exact unknown
  case exactClass => exact exactClass
  case atomic => exact atomic
  case union => exact fun alternatives h => union alternatives h
  case nil => exact fun part h => absurd h List.not_mem_nil
  case cons =>
    intro part parts hpart hparts other hother
    rcases List.mem_cons.mp hother with rfl | hother
    · exact hpart
    · exact hparts other hother

/-! ## The comparison -/

theorem sound_compareClass (cls : ClassVector) (expected : String)
    (implicitClass : RValue → List String) :
    (compareClass cls expected).Sound (fun v => cls.describes v.cls = true)
      fun v => effectiveClass implicitClass v = [expected] := by
  unfold compareClass
  split
  · exact Evidence.sound_insufficient _ _
  · rename_i hclass
    simp only [Bool.or_eq_true, Bool.not_eq_true', decide_eq_true_eq, not_or, Bool.not_eq_true,
      Bool.not_eq_false, List.isEmpty_iff, Nat.not_le] at hclass
    obtain ⟨⟨⟨hknown, hguarded⟩, hnames⟩, hlength⟩ := hclass
    -- fewer than four names are the whole attribute
    have heffective : ∀ v : RValue, cls.describes v.cls = true →
        effectiveClass implicitClass v = cls.names := by
      intro v hv
      simp only [ClassVector.describes, hknown, hguarded, Bool.not_true, Bool.false_eq_true,
        if_false, beq_iff_eq] at hv
      have htake : v.cls.take 4 = v.cls := by
        refine List.take_of_length_le ?_
        have hlen := congrArg List.length hv
        rw [List.length_take] at hlen
        omega
      rw [htake] at hv
      rw [effectiveClass, if_neg (hv ▸ hnames), hv]
    refine Evidence.sound_ite (fun heq => ?_) fun hne => ?_
    · refine Evidence.sound_compatible fun v hv => ?_
      rw [heffective v hv, heq]
    · refine Evidence.sound_incompatible fun v hv => ?_
      rw [heffective v hv]
      exact hne

theorem sound_exactLength {k expected : Nat} {actual : Length}
    (hactual : ∀ n, actual.describes n = true → n = k) :
    (if k = expected then Evidence.compatible else .incompatible).Sound
      (fun n => actual.describes n = true) (DeclaredLength.exact expected).allows := by
  refine Evidence.sound_ite (fun heq => ?_) fun hne => ?_
  · refine Evidence.sound_compatible fun n hn => ?_
    exact (hactual n hn).trans heq
  · refine Evidence.sound_incompatible fun n hn hallows => ?_
    exact hne ((hactual n hn).symm.trans hallows)

theorem eq_of_describes_exact {actual : Length} {k n : Nat} (hexact : actual.exact = some k)
    (h : actual.describes n = true) : n = k := by
  rw [Length.describes, hexact] at h
  exact of_decide_eq_true h

theorem sound_compareLength (actual : Length) (declared : DeclaredLength)
    (hlength : actual ≠ .atLeast 0) :
    (compareLength actual declared).Sound (fun n => actual.describes n = true) declared.allows := by
  have hleast : ∀ n, actual.describes n = true → actual.minPossible ≤ n := fun n hn =>
    Length.minPossible_le hn
  cases declared with
  | exact expected =>
    cases actual with
    | zero =>
      refine Evidence.sound_ite (fun heq => ?_) fun hne => ?_
      · refine Evidence.sound_compatible fun n hn => ?_
        exact (eq_of_describes_exact rfl hn).trans heq.symm
      · refine Evidence.sound_incompatible fun n hn hallows => hne ?_
        exact (show n = expected from hallows).symm.trans (eq_of_describes_exact rfl hn)
    | one =>
      refine Evidence.sound_ite (fun heq => ?_) fun hne => ?_
      · refine Evidence.sound_compatible fun n hn => ?_
        exact (eq_of_describes_exact rfl hn).trans heq.symm
      · refine Evidence.sound_incompatible fun n hn hallows => hne ?_
        exact (show n = expected from hallows).symm.trans (eq_of_describes_exact rfl hn)
    | known k => exact sound_exactLength fun n => eq_of_describes_exact rfl
    | unknown => exact Evidence.sound_insufficient _ _
    | nonempty =>
      refine Evidence.sound_ite (fun heq => ?_) fun _ => Evidence.sound_insufficient _ _
      refine Evidence.sound_incompatible fun n hn hallows => ?_
      have hpos : 1 ≤ n := hleast n hn
      have hn0 : n = expected := hallows
      omega
    | atLeast k =>
      refine Evidence.sound_ite (fun hlt => ?_) fun _ => Evidence.sound_insufficient _ _
      refine Evidence.sound_incompatible fun n hn hallows => ?_
      have hk : k ≤ n := hleast n hn
      have hn0 : n = expected := hallows
      omega
  | nonempty =>
    cases actual with
    | zero =>
      refine Evidence.sound_incompatible fun n hn hallows => ?_
      have hn0 : n = 0 := eq_of_describes_exact rfl hn
      exact absurd hallows (by rw [hn0]; exact lt_irrefl 0)
    | known k =>
      cases k with
      | zero =>
        refine Evidence.sound_incompatible fun n hn hallows => ?_
        have hn0 : n = 0 := eq_of_describes_exact rfl hn
        exact absurd hallows (by rw [hn0]; exact lt_irrefl 0)
      | succ k => exact Evidence.sound_compatible fun n hn => (Nat.succ_pos k).trans_le (hleast n hn)
    | one => exact Evidence.sound_compatible fun n hn => hleast n hn
    | nonempty => exact Evidence.sound_compatible fun n hn => hleast n hn
    | atLeast k =>
      refine Evidence.sound_compatible fun n hn => ?_
      have hk : k ≤ n := hleast n hn
      have hpos : k ≠ 0 := fun h0 => hlength (by rw [h0])
      exact (Nat.pos_of_ne_zero hpos).trans_le hk
    | unknown => exact Evidence.sound_insufficient _ _

/-! ## Inferred types -/

/-- Types as inference builds them: `atLeast` stands for a bound of two or more, and a union takes
its classes from its members. -/
inductive Inferred : RType → Prop
  | intro (t : RType) (hlength : t.length ≠ .atLeast 0)
      (hclass : t.mode = .union → t.cls.isClassless = true)
      (hmembers : t.mode = .union → ∀ member ∈ t.members.getD [], Inferred member) : Inferred t

theorem Evidence.Sound.mono {V : Type} {e : Evidence} {described described' satisfies : V → Prop}
    (h : e.Sound described satisfies) (himp : ∀ v, described' v → described v) :
    e.Sound described' satisfies := by
  constructor
  · intro hcompatible v hv
    exact h.1 hcompatible v (himp v hv)
  · intro hincompatible v hv
    exact h.2 hincompatible v (himp v hv)

theorem describes_of_ne_union {t : RType} (ht : t.mode ≠ .union) {v : RValue}
    (h : t.describes v = true) :
    t.mode.describes v.storage = true ∧ t.length.describes v.length = true ∧
      t.cls.describes v.cls = true := by
  obtain ⟨mode, length, cls, columns, fnSig, members, facts⟩ := t
  have hne : mode ≠ .union := ht
  simp only [RType.describes, RType.describesUnder, if_neg hne, Option.getD_none,
    Bool.and_eq_true] at h
  exact ⟨h.1.1, h.1.2, h.2.1.1⟩

/-- Two known modes describe one storage each. -/
theorem storage_iff {mode : Mode} {expected : AtomicMode} {storage : Storage}
    (hknown : mode.isUnknown = false) (hunion : mode ≠ .union)
    (h : mode.describes storage = true) :
    mode = atomicMode expected ↔ storage = expected.storage := by
  cases mode <;> cases storage <;> cases expected <;> simp_all [Mode.describes, atomicMode,
    AtomicMode.storage, Mode.isUnknown]

theorem sound_atomic {t : RType} (ht : Inferred t) (hunion : t.mode ≠ .union)
    (mode : AtomicMode) (length : Option DeclaredLength) (implicitClass : RValue → List String) :
    (compareOne t (.atomic mode length)).Sound (fun v => t.describes v = true)
      ((TypeExpr.atomic mode length).satisfied implicitClass) := by
  rw [compareOne.eq_def]
  refine Evidence.sound_ite (fun _ => Evidence.sound_insufficient _ _) fun hvector => ?_
  have hknown : t.mode.isUnknown = false := by
    rw [Mode.isUnknownOrNonVector, Bool.or_eq_true, not_or, Bool.not_eq_true] at hvector
    exact hvector.1
  have hstorage : ∀ v, t.describes v = true → (t.mode = atomicMode mode ↔ v.storage = mode.storage) :=
    fun v hv => storage_iff hknown hunion (describes_of_ne_union hunion hv).1
  refine Evidence.sound_ite (fun hmode => ?_) fun hmode => ?_
  · refine Evidence.sound_incompatible fun v hv hsatisfied => hmode ?_
    rw [TypeExpr.satisfied] at hsatisfied
    exact (hstorage v hv).mpr hsatisfied.1
  · have heq : t.mode = atomicMode mode := not_not.mp hmode
    cases length with
    | none =>
      refine Evidence.sound_compatible fun v hv => ?_
      rw [TypeExpr.satisfied]
      exact ⟨(hstorage v hv).mp heq, fun declared h => absurd h (Option.not_mem_none declared)⟩
    | some declared =>
      obtain ⟨_, hlength, _, _⟩ := ht
      have hsound := sound_compareLength t.length declared hlength
      constructor
      · intro hcompatible v hv
        rw [TypeExpr.satisfied]
        refine ⟨(hstorage v hv).mp heq, fun declared' h => ?_⟩
        obtain rfl := Option.some.inj h
        exact hsound.1 hcompatible _ (describes_of_ne_union hunion hv).2.1
      · intro hincompatible v hv hsatisfied
        rw [TypeExpr.satisfied] at hsatisfied
        exact hsound.2 hincompatible _ (describes_of_ne_union hunion hv).2.1
          (hsatisfied.2 declared rfl)

theorem satisfied_union (implicitClass : RValue → List String) (alternatives : List TypeExpr) :
    (TypeExpr.union alternatives).satisfied implicitClass =
      fun v => ∃ part ∈ alternatives, part.satisfied implicitClass v := by
  funext v
  rw [TypeExpr.satisfied, anySatisfied_iff]

theorem sound_compareOne {t : RType} (ht : Inferred t) (hunion : t.mode ≠ .union)
    (constraint : TypeExpr) (implicitClass : RValue → List String) :
    (compareOne t constraint).Sound (fun v => t.describes v = true)
      (constraint.satisfied implicitClass) := by
  induction constraint using TypeExpr.induction with
  | unknown => exact Evidence.sound_insufficient _ _
  | exactClass expected =>
    have h := (sound_compareClass t.cls expected implicitClass).mono
      fun v (hv : t.describes v = true) => (describes_of_ne_union hunion hv).2.2
    simpa only [compareOne, TypeExpr.satisfied] using h
  | atomic mode length => exact sound_atomic ht hunion mode length implicitClass
  | union alternatives ih =>
    rw [compareOne, compareAlternatives_eq, satisfied_union]
    exact Evidence.sound_ite (fun _ => Evidence.sound_insufficient _ _) fun _ =>
      sound_combineAny ih

theorem compare_of_ne_union {t : RType} (ht : t.mode ≠ .union) (constraint : TypeExpr) :
    compare constraint t = compareOne t constraint := by
  cases t
  rw [compare, if_neg ht]

theorem compare_of_union {t : RType} (ht : t.mode = .union) (constraint : TypeExpr) :
    compare constraint t = compareMembers? constraint t.members := by
  cases t
  rw [compare, if_pos ht]

/-- The comparison claims nothing false of the values the type describes. -/
theorem sound_compare {t : RType} (ht : Inferred t) (constraint : TypeExpr)
    (implicitClass : RValue → List String) :
    (compare constraint t).Sound (fun v => t.describes v = true)
      (constraint.satisfied implicitClass) := by
  induction ht with
  | intro t hlength hclass hmembers ih =>
    by_cases hunion : t.mode = .union
    · rw [compare_of_union hunion]
      cases hsome : t.members with
      | none => exact Evidence.sound_insufficient _ _
      | some members =>
        rw [hsome, Option.getD_some] at ih
        rw [compareMembers?, compareMembers_eq]
        refine (sound_combineAll (ih hunion)).mono fun v hv => ?_
        have hv := ((RType.describesUnder_union hunion none v).mp hv).2
        rw [hsome, Option.getD_some, RType.outerClass, if_pos (hclass hunion)] at hv
        exact hv
    · rw [compare_of_ne_union hunion]
      exact sound_compareOne ⟨t, hlength, hclass, hmembers⟩ hunion constraint implicitClass

/-! ## Actuals -/

/-- The value of an actual: a literal has the class its syntax proves. -/
def ValueOf (implicitClass : RValue → List String) (t : RType) (expression : Expr)
    (v : RValue) : Prop :=
  t.describes v = true ∧
    ∀ name ∈ directLiteralClass expression, effectiveClass implicitClass v = [name]

theorem sound_compareActual {t : RType} (ht : Inferred t) (expression : Expr)
    (constraint : TypeExpr) (implicitClass : RValue → List String) :
    (compareActual t expression constraint).Sound (ValueOf implicitClass t expression)
      (constraint.satisfied implicitClass) := by
  have hcompare := fun constraint => (sound_compare ht constraint implicitClass).mono
    fun v (hv : ValueOf implicitClass t expression v) => hv.1
  induction constraint using TypeExpr.induction with
  | unknown => exact hcompare .unknown
  | atomic mode length => exact hcompare (.atomic mode length)
  | union alternatives ih =>
    rw [compareActual, compareActualAlternatives_eq, satisfied_union]
    exact sound_combineAny ih
  | exactClass expected =>
    have hclassed := hcompare (.exactClass expected)
    rw [compareActual]
    cases hevidence : compare (.exactClass expected) t with
    | compatible =>
      rw [hevidence] at hclassed
      exact hclassed
    | incompatible =>
      rw [hevidence] at hclassed
      exact hclassed
    | insufficient =>
      cases hliteral : directLiteralClass expression with
      | none => exact Evidence.sound_insufficient _ _
      | some actual =>
        have hclass : ∀ v, ValueOf implicitClass t expression v →
            effectiveClass implicitClass v = [actual] := fun v hv => hv.2 actual hliteral
        refine Evidence.sound_ite (fun heq => ?_) fun hne => ?_
        · refine Evidence.sound_compatible fun v hv => ?_
          rw [TypeExpr.satisfied, hclass v hv, heq]
        · refine Evidence.sound_incompatible fun v hv hsatisfied => hne ?_
          rw [TypeExpr.satisfied, hclass v hv] at hsatisfied
          exact (List.cons.inj hsatisfied).1

end Ry.Declared
