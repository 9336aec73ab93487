import Ry.Declared.Sound

/-! # The type a declared formal has in the body

The type describes every value its predicate admits, and is compatible with the predicate unless
an alternative claims nothing.
-/

namespace Ry.Declared

/-- `NULL` is empty. -/
def WellFormed (v : RValue) : Prop := v.storage = .null → v.length = 0

/-- The predicate is `constraint` or one of its alternatives, at any depth. -/
inductive Within (part : TypeExpr) : TypeExpr → Prop
  | refl : Within part part
  | alternative {other : TypeExpr} {alternatives : List TypeExpr} (h : other ∈ alternatives)
      (hpart : Within part other) : Within part (.union alternatives)

theorem within_union {part : TypeExpr} {alternatives : List TypeExpr}
    (h : Within part (.union alternatives)) :
    part = .union alternatives ∨ ∃ other ∈ alternatives, Within part other := by
  cases h with
  | refl => exact .inl rfl
  | alternative hmem hpart => exact .inr ⟨_, hmem, hpart⟩

theorem Within.trans {a b c : TypeExpr} (hab : Within a b) (hbc : Within b c) : Within a c := by
  induction hbc with
  | refl => exact hab
  | alternative hmem _ ih => exact .alternative hmem ih

/-! ## What the type describes -/

/-- Each alternative has its member, and each member its alternative. -/
theorem bodyEntryTypes_eq_some {parts : List TypeExpr} {types : List RType}
    (h : bodyEntryTypes parts = some types) :
    (∀ part ∈ parts, ∃ type ∈ types, bodyEntryType part = some type) ∧
      ∀ type ∈ types, ∃ part ∈ parts, bodyEntryType part = some type := by
  induction parts generalizing types with
  | nil =>
    obtain rfl : [] = types := Option.some.inj h
    constructor
    · exact fun part hpart => absurd hpart List.not_mem_nil
    · exact fun type htype => absurd htype List.not_mem_nil
  | cons part parts ih =>
    rw [bodyEntryTypes, Option.bind_eq_some_iff] at h
    obtain ⟨member, hmember, hrest⟩ := h
    obtain ⟨members, hmembers, rfl⟩ := Option.map_eq_some_iff.mp hrest
    obtain ⟨hparts, htypes⟩ := ih hmembers
    constructor
    · intro other hother
      rcases List.mem_cons.mp hother with rfl | hother
      · exact ⟨member, List.mem_cons_self, hmember⟩
      · obtain ⟨type, htype, hentry⟩ := hparts other hother
        exact ⟨type, List.mem_cons_of_mem _ htype, hentry⟩
    · intro type htype
      rcases List.mem_cons.mp htype with rfl | htype
      · exact ⟨part, List.mem_cons_self, hmember⟩
      · obtain ⟨other, hother, hentry⟩ := htypes type htype
        exact ⟨other, List.mem_cons_of_mem _ hother, hentry⟩

theorem bodyEntryType_union {alternatives : List TypeExpr} {type : RType}
    (h : bodyEntryType (.union alternatives) = some type) :
    ∃ members, bodyEntryTypes alternatives = some members ∧ members ≠ [] ∧
      type = (RType.ofMembers members).withClass .unknown := by
  rw [bodyEntryType] at h
  split at h
  · rename_i hlength
    obtain ⟨members, hmembers, rfl⟩ := Option.map_eq_some_iff.mp h
    refine ⟨members, hmembers, ?_, rfl⟩
    obtain ⟨part, hpart⟩ := List.exists_mem_of_ne_nil _ hlength.1
    obtain ⟨member, hmember, -⟩ := (bodyEntryTypes_eq_some hmembers).1 part hpart
    exact List.ne_nil_of_mem hmember
  · exact absurd h (by simp)

/-- Two members or more make a union. -/
theorem ofMembers_cases {members : List RType} (h : members ≠ []) :
    (∃ member, members = [member] ∧ RType.ofMembers members = member) ∨
      (RType.ofMembers members).mode = .union ∧
        (RType.ofMembers members).members = some members ∧
        ∀ n, (∃ member ∈ members, member.length.describes n = true) →
          (RType.ofMembers members).length.describes n = true := by
  cases members with
  | nil => exact absurd rfl h
  | cons first rest =>
    cases rest with
    | nil => exact .inl ⟨first, rfl, rfl⟩
    | cons second rest =>
      refine .inr ⟨rfl, rfl, fun n hn => ?_⟩
      obtain ⟨member, hmember, hdescribes⟩ := hn
      refine Length.describes_foldl_join _ _ ?_
      rcases List.mem_cons.mp hmember with rfl | hmember
      · exact .inl hdescribes
      · exact .inr ⟨member.length, List.mem_map_of_mem hmember, hdescribes⟩

theorem describesUnder_withClass (type : RType) (cls : ClassVector) (v : RValue) :
    RType.describesUnder (some .unknown) (type.withClass cls) v =
      RType.describesUnder (some .unknown) type v := by
  cases type
  rfl

theorem describes_withClass_unknown (type : RType) (v : RValue) :
    (type.withClass .unknown).describes v = RType.describesUnder (some .unknown) type v := by
  cases type
  rfl

theorem describesUnder_entryLength {mode : AtomicMode} {length : Option DeclaredLength}
    {v : RValue} (hv : WellFormed v) (hstorage : v.storage = mode.storage)
    (hlength : ∀ declared ∈ length, declared.allows v.length) :
    (entryLength mode length).describes v.length = true := by
  cases length with
  | none =>
    rw [entryLength]
    split
    · rename_i hnull
      have hzero : v.length = 0 := hv (by rw [hstorage, hnull]; rfl)
      rw [hzero]
      rfl
    · simp [Length.describes, Length.exact, Length.minPossible]
  | some declared =>
    have hallows := hlength declared rfl
    cases declared with
    | nonempty => exact decide_eq_true hallows
    | exact n =>
      obtain rfl : v.length = n := hallows
      unfold entryLength
      split <;> simp_all [Length.describes, Length.exact]

/-- What a predicate admits is described, whatever the classes. -/
theorem describesUnder_bodyEntryType {implicitClass : RValue → List String} {v : RValue}
    (hv : WellFormed v) (constraint : TypeExpr) {type : RType}
    (h : bodyEntryType constraint = some type) (hsatisfied : constraint.satisfied implicitClass v) :
    RType.describesUnder (some .unknown) type v = true := by
  induction constraint using TypeExpr.induction generalizing type with
  | unknown =>
    obtain rfl := Option.some.inj h
    simp [RType.describesUnder, RType.unknown, Mode.describes, Length.describes, Length.exact,
      Length.minPossible, RType.describesSchema?, RType.describesSig?]
  | exactClass expected => exact absurd h (by simp [bodyEntryType])
  | atomic mode length =>
    rw [TypeExpr.satisfied] at hsatisfied
    obtain ⟨hstorage, hlength⟩ := hsatisfied
    obtain rfl := Option.some.inj h
    have hmode : (atomicMode mode).describes v.storage = true := by
      rw [hstorage]
      cases mode <;> rfl
    have hunion : atomicMode mode ≠ .union := by
      cases mode <;> decide
    simp [RType.describesUnder, RType.withClass, RType.new, hmode, hunion,
      describesUnder_entryLength hv hstorage hlength, RType.describesSchema?, RType.describesSig?]
  | union alternatives ih =>
    obtain ⟨members, hmembers, hnonempty, rfl⟩ := bodyEntryType_union h
    rw [satisfied_union] at hsatisfied
    obtain ⟨part, hpart, hsatisfied⟩ := hsatisfied
    obtain ⟨member, hmember, hentry⟩ := (bodyEntryTypes_eq_some hmembers).1 part hpart
    have hdescribes := ih part hpart hentry hsatisfied
    rw [describesUnder_withClass]
    rcases ofMembers_cases hnonempty with ⟨only, rfl, heq⟩ | ⟨hunion, hsome, hlength⟩
    · rw [heq, ← List.mem_singleton.mp hmember]
      exact hdescribes
    · rw [RType.describesUnder_union hunion, hsome]
      exact ⟨hlength _ ⟨member, hmember, RType.length_of_describesUnder hdescribes⟩, member,
        hmember, hdescribes⟩

/-- A storage-mode declaration says nothing of the class. -/
theorem withClass_bodyEntryType {constraint : TypeExpr} {type : RType}
    (h : bodyEntryType constraint = some type) : type.withClass .unknown = type := by
  cases constraint with
  | unknown =>
    rw [← Option.some.inj h]
    rfl
  | exactClass expected => exact absurd h (by simp [bodyEntryType])
  | atomic mode length =>
    rw [← Option.some.inj h]
    rfl
  | union alternatives =>
    obtain ⟨members, -, -, rfl⟩ := bodyEntryType_union h
    rfl

theorem describes_bodyEntryType {implicitClass : RValue → List String} {v : RValue}
    (hv : WellFormed v) {constraint : TypeExpr} {type : RType}
    (h : bodyEntryType constraint = some type) (hsatisfied : constraint.satisfied implicitClass v) :
    type.describes v = true := by
  have hunder := describesUnder_bodyEntryType hv constraint h hsatisfied
  rw [← withClass_bodyEntryType h, describes_withClass_unknown]
  exact hunder

/-! ## What the type compares as -/

/-- A member that stands for an atomic alternative has that alternative's mode and length. -/
theorem compareOne_atomic (mode : AtomicMode) (length : Option DeclaredLength) (cls : ClassVector) :
    compareOne ((RType.new (atomicMode mode) (entryLength mode length)).withClass cls)
      (.atomic mode length) = .compatible := by
  have hvector : (atomicMode mode).isUnknownOrNonVector = false := by
    cases mode <;> rfl
  rw [compareOne.eq_def]
  simp only [RType.withClass, RType.new, hvector, Bool.false_eq_true, if_false, ne_eq,
    not_true_eq_false]
  cases length with
  | none => rfl
  | some declared =>
    cases declared with
    | nonempty => rfl
    | exact n => rcases n with _ | _ | n <;> simp [entryLength, compareLength]

/-- A verdict on an alternative is one on the predicate around it. -/
theorem compareOne_within {type : RType} (hvector : type.mode.isUnknownOrNonVector = false)
    {part constraint : TypeExpr} (hwithin : Within part constraint)
    (h : compareOne type part = .compatible) : compareOne type constraint = .compatible := by
  induction hwithin with
  | refl => exact h
  | alternative hmem _ ih =>
    rw [compareOne, hvector, if_neg Bool.false_ne_true, compareAlternatives_eq, combineAny, if_pos]
    exact ih ▸ List.mem_map_of_mem hmem

/-- The members of a union are compared, its class is not. -/
theorem compare_ofMembers {members : List RType} (h : members ≠ []) (constraint : TypeExpr)
    (cls : ClassVector) :
    (∃ member, members = [member] ∧
      compare constraint ((RType.ofMembers members).withClass cls) =
        compare constraint (member.withClass cls)) ∨
      compare constraint ((RType.ofMembers members).withClass cls) =
        combineAll (members.map (compare constraint)) := by
  rcases ofMembers_cases h with ⟨member, rfl, heq⟩ | ⟨hunion, hsome, -⟩
  · exact .inl ⟨member, rfl, by rw [heq]⟩
  · refine .inr ?_
    rw [compare_of_union (show ((RType.ofMembers members).withClass cls).mode = .union from hunion)]
    rw [show ((RType.ofMembers members).withClass cls).members = some members from hsome,
      compareMembers?, compareMembers_eq]

theorem combineAll_compatible {results : List Evidence} :
    combineAll results = .compatible ↔ results ≠ [] ∧ ∀ result ∈ results, result = .compatible := by
  rw [combineAll]
  split
  · rename_i hnil
    simp [hnil]
  · rename_i hne
    split
    · rename_i hall
      exact ⟨fun _ => ⟨hne, hall⟩, fun _ => rfl⟩
    · rename_i hall
      split <;> simp [hall]

theorem compare_bodyEntryType {part : TypeExpr} (hpart : ¬ Within .unknown part) {type : RType}
    (h : bodyEntryType part = some type) {constraint : TypeExpr} (hwithin : Within part constraint)
    (cls : ClassVector) : compare constraint (type.withClass cls) = .compatible := by
  induction part using TypeExpr.induction generalizing type cls with
  | unknown => exact absurd .refl hpart
  | exactClass expected => exact absurd h (by simp [bodyEntryType])
  | atomic mode length =>
    obtain rfl := Option.some.inj h
    have hunion : atomicMode mode ≠ .union := by
      cases mode <;> exact nofun
    have hvector : (atomicMode mode).isUnknownOrNonVector = false := by
      cases mode <;> rfl
    rw [compare_of_ne_union (show atomicMode mode ≠ .union from hunion)]
    exact compareOne_within hvector hwithin (compareOne_atomic mode length cls)
  | union alternatives ih =>
    obtain ⟨members, hmembers, hnonempty, rfl⟩ := bodyEntryType_union h
    have hmember : ∀ member ∈ members, ∀ cls,
        compare constraint (member.withClass cls) = .compatible := by
      intro member hmember cls
      obtain ⟨other, hother, hentry⟩ := (bodyEntryTypes_eq_some hmembers).2 member hmember
      have hknown : ¬ Within .unknown other := fun hunknown => hpart (.alternative hother hunknown)
      exact ih other hother hknown hentry (Within.trans (.alternative hother .refl) hwithin) cls
    rcases compare_ofMembers hnonempty constraint cls with ⟨member, rfl, heq⟩ | heq
    · exact heq.trans (hmember member List.mem_cons_self cls)
    · refine heq.trans (combineAll_compatible.mpr ⟨?_, ?_⟩)
      · rwa [ne_eq, List.map_eq_nil_iff]
      · intro result hresult
        obtain ⟨member, hmem, rfl⟩ := List.mem_map.mp hresult
        obtain ⟨other, -, hentry⟩ := (bodyEntryTypes_eq_some hmembers).2 member hmem
        rw [← withClass_bodyEntryType hentry]
        exact hmember member hmem .unknown

/-- A part that claims nothing is compatible with nothing. -/
theorem not_compatible_of_unknown {part : TypeExpr} (hpart : Within .unknown part) {type : RType}
    (h : bodyEntryType part = some type) (constraint : TypeExpr) {cls : ClassVector}
    (hcls : cls.known = false) : compare constraint (type.withClass cls) ≠ .compatible := by
  induction part using TypeExpr.induction generalizing type cls with
  | unknown =>
    obtain rfl := Option.some.inj h
    rw [compare_of_ne_union (show Mode.opaqueMode ≠ .union by decide)]
    cases constraint with
    | exactClass expected =>
      rw [compareOne, compareClass, if_pos]
      · simp
      · simp [RType.withClass, hcls]
    | unknown | union alternatives =>
      intro h
      cases h
    | atomic mode length =>
      intro h
      cases length <;> cases h
  | exactClass expected =>
    cases hpart
  | atomic mode length =>
    cases hpart
  | union alternatives ih =>
    obtain ⟨members, hmembers, hnonempty, rfl⟩ := bodyEntryType_union h
    rcases within_union hpart with heq | ⟨other, hother, hunknown⟩
    · cases heq
    · obtain ⟨member, hmember, hentry⟩ := (bodyEntryTypes_eq_some hmembers).1 other hother
      have hnot := fun cls : ClassVector => @ih other hother hunknown member hentry cls
      rcases compare_ofMembers hnonempty constraint cls with ⟨only, rfl, heq⟩ | heq
      · obtain rfl := List.mem_singleton.mp hmember
        exact fun hcompatible => hnot cls hcls (heq.symm.trans hcompatible)
      · intro hcompatible
        have hall := (combineAll_compatible.mp (heq.symm.trans hcompatible)).2
        have hself := hall _ (List.mem_map_of_mem hmember)
        rw [← withClass_bodyEntryType hentry] at hself
        exact hnot .unknown rfl hself

theorem compare_bodyEntryType_iff {constraint : TypeExpr} {type : RType}
    (h : bodyEntryType constraint = some type) :
    compare constraint type = .compatible ↔ ¬ Within .unknown constraint := by
  rw [← withClass_bodyEntryType h]
  constructor
  · exact fun hcompatible hunknown => not_compatible_of_unknown hunknown h constraint rfl hcompatible
  · exact fun hknown => compare_bodyEntryType hknown h .refl .unknown

end Ry.Declared
