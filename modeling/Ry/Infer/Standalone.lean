import Ry.Core.JoinSound
import Ry.Core.Lengths

/-! # When a standalone check is said to fail

`standalone_check_provably_rejects` reports a call of a type check that no value of the given
type can pass.  It compares the two types' alternatives pair by pair.  Modes are compared as
they should be; lengths overlap only when one is unknown or the spellings are equal, classes
only when a name is shared or one is unknown.  `rejects_sound_iff` says when the report is
right.
-/

namespace Ry

namespace RType

mutual
/-- The alternatives a type is compared by; a union without members stands for itself. -/
def standaloneMembers : RType → List RType
  | ⟨mode, length, cls, columns, fnSig, members, facts⟩ =>
    if mode = .union then
      (standaloneMembersIn? members).getD [⟨mode, length, cls, columns, fnSig, members, facts⟩]
    else [⟨mode, length, cls, columns, fnSig, members, facts⟩]
termination_by structural t => t
def standaloneMembersIn? : Option (List RType) → Option (List RType)
  | some ms => some (standaloneMembersIn ms)
  | none => none
termination_by structural ms => ms
def standaloneMembersIn : List RType → List RType
  | [] => []
  | m :: ms => standaloneMembers m ++ standaloneMembersIn ms
termination_by structural ms => ms
end

def lengthsOverlap (actual expected : Length) : Bool :=
  actual = .unknown || expected = .unknown || actual = expected

def classesOverlap (actual expected : RType) : Bool :=
  if !expected.cls.hasKnownClass then true
  else if actual.cls.isUnknown then true
  else expected.cls.names.any actual.cls.contains

def modesOverlap (actual expected : Mode) : Bool :=
  actual.isUnknownOrNonVector || expected.isUnknownOrNonVector || actual = expected

def shapesOverlap (actual expected : RType) : Bool :=
  modesOverlap actual.mode expected.mode && lengthsOverlap actual.length expected.length
    && classesOverlap actual expected

def standaloneCheckProvablyRejects (actual expected : RType) : Bool :=
  !actual.standaloneMembers.any fun a => expected.standaloneMembers.any fun e => a.shapesOverlap e

/-! ## Alternatives with what the unions around them say -/

/-- An alternative of a type, with the lengths of the unions around it and the class one of
them carries. -/
structure Alternative where
  leaf : RType
  lengths : List Length
  outer : Option ClassVector

mutual
def alternativesUnder (outer : Option ClassVector) (lengths : List Length) :
    RType → List Alternative
  | ⟨mode, length, cls, columns, fnSig, members, facts⟩ =>
    if mode = .union then alternativesIn? (outerClass outer cls) (length :: lengths) members
    else [⟨⟨mode, length, cls, columns, fnSig, members, facts⟩, lengths, outer⟩]
termination_by structural t => t
def alternativesIn? (outer : Option ClassVector) (lengths : List Length) :
    Option (List RType) → List Alternative
  | some ms => alternativesIn outer lengths ms
  | none => []
termination_by structural ms => ms
def alternativesIn (outer : Option ClassVector) (lengths : List Length) :
    List RType → List Alternative
  | [] => []
  | m :: ms => alternativesUnder outer lengths m ++ alternativesIn outer lengths ms
termination_by structural ms => ms
end

namespace Alternative

def Describes (a : Alternative) (v : RValue) : Prop :=
  (∀ l ∈ a.lengths, l.describes v.length = true) ∧ describesUnder a.outer a.leaf v = true

/-- A mode both alternatives allow. -/
def ModesMeet (a b : Alternative) : Prop :=
  ∃ s, a.leaf.mode.describes s = true ∧ b.leaf.mode.describes s = true

/-- A length both allow, the unions around them included. -/
def LengthsMeet (a b : Alternative) : Prop :=
  ∃ n, (∀ l ∈ a.leaf.length :: a.lengths, l.describes n = true) ∧
    ∀ l ∈ b.leaf.length :: b.lengths, l.describes n = true

/-- A class attribute both allow. -/
def ClassesMeet (a b : Alternative) : Prop :=
  ∃ attr, (a.outer.getD a.leaf.cls).describes attr = true ∧
    (b.outer.getD b.leaf.cls).describes attr = true

/-- Elements, and results of calls, that both record schemas and signatures allow. -/
def ContentsMeet (a b : Alternative) : Prop :=
  ∃ v : RValue, (describesSchema? a.leaf.columns v = true ∧ describesSig? a.leaf.fnSig v = true) ∧
    describesSchema? b.leaf.columns v = true ∧ describesSig? b.leaf.fnSig v = true

/-- Two alternatives with a value in common that the code's tests on lengths or classes tell
apart. -/
def Missed (a b : Alternative) : Prop :=
  (a.ModesMeet b ∧ a.LengthsMeet b ∧ a.ClassesMeet b ∧ a.ContentsMeet b) ∧
    (lengthsOverlap a.leaf.length b.leaf.length = false ∨ classesOverlap a.leaf b.leaf = false)

end Alternative

/-! ## Reading a type by its alternatives -/

theorem alternativesIn_eq (outer : Option ClassVector) (lengths : List Length) (ms : List RType) :
    alternativesIn outer lengths ms = ms.flatMap (alternativesUnder outer lengths) := by
  induction ms with
  | nil => rfl
  | cons m ms ih => simp [alternativesIn, ih]

theorem alternativesUnder_of_not_union {t : RType} (h : t.mode ≠ .union)
    (outer : Option ClassVector) (lengths : List Length) :
    alternativesUnder outer lengths t = [⟨t, lengths, outer⟩] := by
  cases t
  exact if_neg h

theorem alternativesUnder_of_union {t : RType} (h : t.mode = .union)
    (outer : Option ClassVector) (lengths : List Length) :
    alternativesUnder outer lengths t = (t.members.getD []).flatMap
      (alternativesUnder (outerClass outer t.cls) (t.length :: lengths)) := by
  obtain ⟨mode, length, cls, columns, fnSig, members, facts⟩ := t
  obtain rfl : mode = .union := h
  cases members with
  | none => rfl
  | some ms => simp [alternativesUnder, alternativesIn?, alternativesIn_eq]

/-- A type describes what its alternatives do, each under the unions around it. -/
theorem describes_alternatives {t : RType} (outer : Option ClassVector) (lengths : List Length)
    (v : RValue) : (∃ a ∈ alternativesUnder outer lengths t, a.Describes v) ↔
      (∀ l ∈ lengths, l.describes v.length = true) ∧ describesUnder outer t v = true := by
  induction t using RType.induction generalizing outer lengths with
  | h t ih =>
    by_cases hu : t.mode = .union
    · rw [alternativesUnder_of_union hu, describesUnder_union hu]
      have hm : ∀ m ∈ t.members.getD [], m ∈ t.parts := by
        intro m hm
        cases hms : t.members with
        | none => simp [hms] at hm
        | some ms => exact mem_parts_member hms (by simpa [hms] using hm)
      constructor
      · rintro ⟨a, ha, hav⟩
        obtain ⟨m, hmem, ham⟩ := List.mem_flatMap.mp ha
        obtain ⟨hlengths, hmv⟩ := (ih m (hm m hmem) _ _).mp ⟨a, ham, hav⟩
        rw [List.forall_mem_cons] at hlengths
        exact ⟨hlengths.2, hlengths.1, m, hmem, hmv⟩
      · rintro ⟨hlengths, hlength, m, hmem, hmv⟩
        obtain ⟨a, ha, hav⟩ :=
          (ih m (hm m hmem) _ _).mpr ⟨List.forall_mem_cons.mpr ⟨hlength, hlengths⟩, hmv⟩
        exact ⟨a, List.mem_flatMap.mpr ⟨m, hmem, ha⟩, hav⟩
    · simp [alternativesUnder_of_not_union hu, Alternative.Describes]

/-- The alternatives of a type, read by itself. -/
def claims (t : RType) : List Alternative := alternativesUnder none [] t

theorem describes_iff_claims (t : RType) (v : RValue) :
    t.describes v = true ↔ ∃ a ∈ t.claims, a.Describes v := by
  rw [claims, describes_alternatives]
  simp [describes]

theorem standaloneMembersIn_eq (ms : List RType) :
    standaloneMembersIn ms = ms.flatMap standaloneMembers := by
  induction ms with
  | nil => rfl
  | cons m ms ih => simp [standaloneMembersIn, ih]

/-- Every alternative is one the code compares, and no union. -/
theorem leaf_mem {t : RType} {outer : Option ClassVector} {lengths : List Length} {a : Alternative}
    (ha : a ∈ alternativesUnder outer lengths t) :
    a.leaf ∈ t.standaloneMembers ∧ a.leaf.mode ≠ .union := by
  induction t using RType.induction generalizing outer lengths with
  | h t ih =>
    by_cases hu : t.mode = .union
    · rw [alternativesUnder_of_union hu] at ha
      cases hms : t.members with
      | none => simp [hms] at ha
      | some ms =>
        rw [hms, Option.getD_some] at ha
        obtain ⟨m, hm, ham⟩ := List.mem_flatMap.mp ha
        obtain ⟨hleaf, hmode⟩ := ih m (mem_parts_member hms hm) ham
        refine ⟨?_, hmode⟩
        have hmembers : t.standaloneMembers = ms.flatMap standaloneMembers := by
          rw [← standaloneMembersIn_eq]
          cases t
          subst hms
          exact if_pos hu
        rw [hmembers]
        exact List.mem_flatMap.mpr ⟨m, hm, hleaf⟩
    · rw [alternativesUnder_of_not_union hu, List.mem_singleton] at ha
      have hmembers : t.standaloneMembers = [t] := by
        cases t
        exact if_neg hu
      simp [ha, hmembers, hu]

/-- A non-union type describes a value component by component. -/
theorem describesUnder_of_not_union {t : RType} (h : t.mode ≠ .union) (outer : Option ClassVector)
    (v : RValue) : describesUnder outer t v = true ↔
      t.mode.describes v.storage = true ∧ t.length.describes v.length = true ∧
        (outer.getD t.cls).describes v.cls = true ∧
        describesSchema? t.columns v = true ∧ describesSig? t.fnSig v = true := by
  obtain ⟨mode, length, cls, columns, fnSig, members, facts⟩ := t
  simp only [describesUnder, if_neg (show mode ≠ .union from h), Bool.and_eq_true, and_assoc]

/-- A schema speaks of the elements alone, a signature of the results. -/
theorem describesSchema_congr {columns : Option (ColumnSchema RType)} {v w : RValue}
    (h : v.fields = w.fields) : describesSchema? columns v = describesSchema? columns w := by
  rcases columns with _ | ⟨cs, complete, _⟩
  · rfl
  · simp only [describesSchema?, describesSchema, h]

theorem describesSig_congr {fnSig : Option (FunctionSignature RType)} {v w : RValue}
    (h : v.results = w.results) : describesSig? fnSig v = describesSig? fnSig w := by
  rcases fnSig with _ | ⟨ps, r⟩
  · rfl
  · simp only [describesSig?, describesSig, h]

/-- Two alternatives have a value in common when they do component by component. -/
theorem Alternative.meet_iff {a b : Alternative} (ha : a.leaf.mode ≠ .union)
    (hb : b.leaf.mode ≠ .union) : (∃ v, a.Describes v ∧ b.Describes v) ↔
      a.ModesMeet b ∧ a.LengthsMeet b ∧ a.ClassesMeet b ∧ a.ContentsMeet b := by
  simp only [Alternative.Describes, describesUnder_of_not_union ha, describesUnder_of_not_union hb]
  constructor
  · rintro ⟨v, ⟨hla, hma, hna, hca, hfa⟩, hlb, hmb, hnb, hcb, hfb⟩
    exact ⟨⟨_, hma, hmb⟩, ⟨_, List.forall_mem_cons.mpr ⟨hna, hla⟩,
      List.forall_mem_cons.mpr ⟨hnb, hlb⟩⟩, ⟨_, hca, hcb⟩, ⟨v, hfa, hfb⟩⟩
  · rintro ⟨⟨s, hma, hmb⟩, ⟨n, hna, hnb⟩, ⟨attr, hca, hcb⟩, w, hfa, hfb⟩
    rw [List.forall_mem_cons] at hna hnb
    have hschema : ∀ c, describesSchema? c ⟨s, n, attr, w.fields, w.results⟩ = describesSchema? c w :=
      fun c => describesSchema_congr rfl
    have hsig : ∀ f, describesSig? f ⟨s, n, attr, w.fields, w.results⟩ = describesSig? f w :=
      fun f => describesSig_congr rfl
    refine ⟨⟨s, n, attr, w.fields, w.results⟩, ⟨hna.2, hma, hna.1, hca, ?_⟩,
      hnb.2, hmb, hnb.1, hcb, ?_⟩
    · rw [hschema, hsig]
      exact hfa
    · rw [hschema, hsig]
      exact hfb

/-- Modes that the code tells apart have no value in common. -/
theorem modesOverlap_of_meet {a b : Alternative} (ha : a.leaf.mode ≠ .union)
    (hb : b.leaf.mode ≠ .union) (h : a.ModesMeet b) :
    modesOverlap a.leaf.mode b.leaf.mode = true := by
  obtain ⟨s, hs, hs'⟩ := h
  generalize a.leaf.mode = m at *
  generalize b.leaf.mode = m' at *
  cases m <;> cases m' <;> first | rfl | contradiction | (cases s <;> contradiction)

theorem standaloneCheckProvablyRejects_iff (actual expected : RType) :
    standaloneCheckProvablyRejects actual expected = true ↔
      ∀ a ∈ actual.standaloneMembers, ∀ e ∈ expected.standaloneMembers,
        a.shapesOverlap e = false := by
  simp [standaloneCheckProvablyRejects]

/-- A report is right, or none is made. -/
def RejectsSoundly (actual expected : RType) : Prop :=
  standaloneCheckProvablyRejects actual expected = true →
    ∀ v, ¬ (actual.describes v = true ∧ expected.describes v = true)

end RType
end Ry
