import Ry.Core.JoinKinds
import Ry.Core.Lengths

/-! # What a condition's type decides

`condition_diagnostic` says whether R must reject a value as an `if` or `while` condition,
and whether a number stands where a logical is meant.  It reads a union member by member,
and so do the narrower questions `switch_expr_length_rejected`, `invalid_condition` and
`carries_zero_length_leaf`.

A verdict ought to depend on the alternatives alone.  In a flat union it does
(`conditionDiagnostic_flat`).  A member that is a union itself is summarised before it
meets its siblings, and a summary of `none` keeps nothing of an alternative that would
have silenced them; `arranged_iff` says for which alternatives that shows.
-/

namespace Ry

/-- The diagnostic family of a known condition type. -/
inductive ConditionDiagnostic
  | invalid | numeric
deriving DecidableEq, Repr

namespace RType

mutual
/-- Whether some alternative satisfies `p`; a union without members has none. -/
def anyLeaf (p : RType → Bool) : RType → Bool
  | ⟨mode, length, cls, columns, fnSig, members, facts⟩ =>
    if mode = .union then anyLeafIn? p members else p ⟨mode, length, cls, columns, fnSig, members, facts⟩
termination_by structural t => t
def anyLeafIn? (p : RType → Bool) : Option (List RType) → Bool
  | some ms => anyLeafIn p ms
  | none => false
termination_by structural ms => ms
def anyLeafIn (p : RType → Bool) : List RType → Bool
  | [] => false
  | m :: ms => anyLeaf p m || anyLeafIn p ms
termination_by structural ms => ms
end

def carriesZeroLengthLeaf : RType → Bool := anyLeaf fun t => t.length = .zero

def switchExprLengthRejected : RType → Bool :=
  anyLeaf fun t => t.length = .zero || t.length.provenAboveOne

def isCoercibleScalarConditionMode (t : RType) : Bool :=
  (t.mode = .character || t.mode = .complex || t.mode = .raw)
    && (t.length = .one || t.length = .unknown || t.length = .nonempty)

mutual
def invalidCondition : RType → Bool
  | ⟨mode, length, _, _, _, members, _⟩ =>
    match mode with
    | .union => allInvalid? members
    | .list | .function => true
    | .environment | .language => false
    | _ => length = .zero
termination_by structural t => t
def allInvalid? : Option (List RType) → Bool
  | some ms => allInvalid ms
  | none => false
termination_by structural ms => ms
def allInvalid : List RType → Bool
  | [] => true
  | m :: ms => invalidCondition m && allInvalid ms
termination_by structural ms => ms
end

/-- The flags the walk over a union's members collects. -/
structure MemberOutcomes where
  numeric : Bool
  invalid : Bool
  /-- A scalar branch whose value may be accepted as a condition. -/
  coercible : Bool
  /-- A possibly valid branch, which silences all but a zero-length sibling. -/
  quiet : Bool

/-- A type that may already be a condition, or of which nothing is known. -/
def mayBeCondition (t : RType) : Bool := t.mode = .logical || t.mode.isUnknownOrNonVector

def MemberOutcomes.add (o : MemberOutcomes) (m : RType) :
    Option ConditionDiagnostic → MemberOutcomes
  | some .invalid => { o with invalid := true }
  | some .numeric => { o with numeric := true }
  | none =>
    if m.mayBeCondition then { o with quiet := true }
    else if m.isCoercibleScalarConditionMode then { o with coercible := true }
    else o

mutual
def conditionDiagnostic : RType → Option ConditionDiagnostic
  | ⟨mode, length, cls, columns, fnSig, members, facts⟩ =>
    if length = .zero || length.provenAboveOne then some .invalid
    else match mode with
    | .logical => none
    | .integer | .double => some .numeric
    | .opaqueMode | .environment | .language => none
    | .union => conditionOfMembers? members
    | _ =>
      if isCoercibleScalarConditionMode ⟨mode, length, cls, columns, fnSig, members, facts⟩
      then none else some .invalid
termination_by structural t => t
def conditionOfMembers? : Option (List RType) → Option ConditionDiagnostic
  | none => none
  | some members =>
    let zeroLengthMember := members.any carriesZeroLengthLeaf
    let o := memberOutcomes members ⟨false, false, false, false⟩
    if o.invalid && (!o.quiet || zeroLengthMember) then some .invalid
    else if o.quiet || o.numeric && o.coercible then none
    else if o.numeric then some .numeric else none
termination_by structural ms => ms
def memberOutcomes : List RType → MemberOutcomes → MemberOutcomes
  | [], o => o
  | m :: ms, o => memberOutcomes ms (o.add m (conditionDiagnostic m))
termination_by structural ms => ms
end

/-! ## The leaves of a type -/

mutual
/-- The alternatives of a type, unions inside unions taken apart. -/
def leaves : RType → List RType
  | ⟨mode, length, cls, columns, fnSig, members, facts⟩ =>
    if mode = .union then leavesIn? members
    else [⟨mode, length, cls, columns, fnSig, members, facts⟩]
termination_by structural t => t
def leavesIn? : Option (List RType) → List RType
  | some ms => leavesIn ms
  | none => []
termination_by structural ms => ms
def leavesIn : List RType → List RType
  | [] => []
  | m :: ms => leaves m ++ leavesIn ms
termination_by structural ms => ms
end

theorem leavesIn_eq (ms : List RType) : leavesIn ms = ms.flatMap leaves := by
  induction ms with
  | nil => rfl
  | cons m ms ih => simp [leavesIn, ih]

theorem leaves_of_not_union {t : RType} (h : t.mode ≠ .union) : t.leaves = [t] := by
  cases t
  exact if_neg h

theorem leaves_of_union {t : RType} (h : t.mode = .union) {ms : List RType}
    (hms : t.members = some ms) : t.leaves = ms.flatMap leaves := by
  rw [← leavesIn_eq]
  cases t
  subst hms
  exact if_pos h

theorem anyLeafIn_eq (p : RType → Bool) (ms : List RType) :
    anyLeafIn p ms = ms.any (anyLeaf p) := by
  induction ms with
  | nil => rfl
  | cons m ms ih => simp [anyLeafIn, ih]

theorem anyLeaf_of_not_union (p : RType → Bool) {t : RType} (h : t.mode ≠ .union) :
    anyLeaf p t = p t := by
  cases t
  exact if_neg h

theorem anyLeaf_of_union (p : RType → Bool) {t : RType} (h : t.mode = .union) {ms : List RType}
    (hms : t.members = some ms) : anyLeaf p t = ms.any (anyLeaf p) := by
  rw [← anyLeafIn_eq]
  cases t
  subst hms
  exact if_pos h

theorem leaves_of_no_members {t : RType} (h : t.mode = .union) (hms : t.members = none) :
    t.leaves = [] := by
  cases t
  subst hms
  exact if_pos h

theorem anyLeaf_of_no_members (p : RType → Bool) {t : RType} (h : t.mode = .union)
    (hms : t.members = none) : anyLeaf p t = false := by
  cases t
  subst hms
  exact if_pos h

/-- A walk over the leaves finds what some leaf satisfies. -/
theorem anyLeaf_iff (p : RType → Bool) (t : RType) :
    anyLeaf p t = true ↔ ∃ l ∈ t.leaves, p l = true := by
  induction t using RType.induction with
  | h t ih =>
    by_cases hu : t.mode = .union
    · cases hms : t.members with
      | none => simp [anyLeaf_of_no_members p hu hms, leaves_of_no_members hu hms]
      | some ms =>
        rw [anyLeaf_of_union p hu hms, leaves_of_union hu hms, List.any_eq_true]
        constructor
        · rintro ⟨m, hm, hp⟩
          obtain ⟨l, hl, hpl⟩ := (ih m (mem_parts_member hms hm)).mp hp
          exact ⟨l, List.mem_flatMap.mpr ⟨m, hm, hl⟩, hpl⟩
        · rintro ⟨l, hl, hpl⟩
          obtain ⟨m, hm, hlm⟩ := List.mem_flatMap.mp hl
          exact ⟨m, hm, (ih m (mem_parts_member hms hm)).mpr ⟨l, hlm, hpl⟩⟩
    · simp [anyLeaf_of_not_union p hu, leaves_of_not_union hu]

theorem not_union_of_mem_leaves {t l : RType} (hl : l ∈ t.leaves) : l.mode ≠ .union := by
  induction t using RType.induction with
  | h t ih =>
    by_cases hu : t.mode = .union
    · cases hms : t.members with
      | none => simp [leaves_of_no_members hu hms] at hl
      | some ms =>
        rw [leaves_of_union hu hms] at hl
        obtain ⟨m, hm, hlm⟩ := List.mem_flatMap.mp hl
        exact ih m (mem_parts_member hms hm) hlm
    · rw [leaves_of_not_union hu, List.mem_singleton] at hl
      rwa [hl]

theorem carriesZeroLengthLeaf_iff (t : RType) :
    t.carriesZeroLengthLeaf = true ↔ ∃ l ∈ t.leaves, l.length = .zero := by
  simp [carriesZeroLengthLeaf, anyLeaf_iff]

/-! ## The verdict of a list of alternatives -/

def isInvalid (m : RType) : Bool := m.conditionDiagnostic = some .invalid

def isNumeric (m : RType) : Bool := m.conditionDiagnostic = some .numeric

def isQuiet (m : RType) : Bool := m.conditionDiagnostic = none && m.mayBeCondition

def isCoercible (m : RType) : Bool :=
  m.conditionDiagnostic = none && !m.mayBeCondition && m.isCoercibleScalarConditionMode

/-- What `condition_diagnostic` makes of a union with these members. -/
def verdict (ms : List RType) : Option ConditionDiagnostic :=
  if ms.any isInvalid && (!ms.any isQuiet || ms.any carriesZeroLengthLeaf) then some .invalid
  else if ms.any isQuiet || ms.any isNumeric && ms.any isCoercible then none
  else if ms.any isNumeric then some .numeric else none

theorem memberOutcomes_eq (ms : List RType) (o : MemberOutcomes) :
    memberOutcomes ms o = ⟨o.numeric || ms.any isNumeric, o.invalid || ms.any isInvalid,
      o.coercible || ms.any isCoercible, o.quiet || ms.any isQuiet⟩ := by
  induction ms generalizing o with
  | nil => simp [memberOutcomes]
  | cons m ms ih =>
    rw [memberOutcomes, ih]
    cases h : m.conditionDiagnostic with
    | none =>
      cases hq : m.mayBeCondition <;> cases hc : m.isCoercibleScalarConditionMode <;>
        simp [MemberOutcomes.add, isNumeric, isInvalid, isCoercible, isQuiet, h, hq, hc]
    | some d =>
      cases d <;> simp [MemberOutcomes.add, isNumeric, isInvalid, isCoercible, isQuiet, h]

theorem conditionOfMembers_eq (ms : List RType) : conditionOfMembers? (some ms) = verdict ms := by
  simp [conditionOfMembers?, memberOutcomes_eq, verdict]

/-- The lengths R rejects whatever the mode. -/
def rejectedLength (l : Length) : Bool := l = .zero || l.provenAboveOne

theorem conditionDiagnostic_of_rejected {t : RType} (h : rejectedLength t.length = true) :
    t.conditionDiagnostic = some .invalid := by
  cases t
  exact if_pos h

theorem conditionDiagnostic_of_union {t : RType} (hu : t.mode = .union) {ms : List RType}
    (hms : t.members = some ms) (h : rejectedLength t.length = false) :
    t.conditionDiagnostic = verdict ms := by
  rw [← conditionOfMembers_eq]
  cases t
  subst hu hms
  exact if_neg (Bool.eq_false_iff.mp h)

theorem verdict_perm {ms ns : List RType} (h : ms.Perm ns) : verdict ms = verdict ns := by
  simp only [verdict, h.any_eq]

/-! ## Unions of unions -/

/-- A type the checked constructor builds, of members that may be unions themselves. -/
inductive Built : RType → Prop
  | leaf {t : RType} (h : t.mode ≠ .union) : Built t
  | union {ms : List RType} (hmany : 2 ≤ ms.length) (h : ∀ m ∈ ms, Built m) : Built (ofMembers ms)

theorem ofMembers_of_many {ms : List RType} (h : 2 ≤ ms.length) :
    (ofMembers ms).mode = .union ∧ (ofMembers ms).members = some ms := by
  match ms, h with
  | _ :: _ :: _, _ => exact ⟨rfl, rfl⟩

theorem leaves_ofMembers {ms : List RType} (h : 2 ≤ ms.length) :
    (ofMembers ms).leaves = ms.flatMap leaves :=
  leaves_of_union (ofMembers_of_many h).1 (ofMembers_of_many h).2

theorem flatMap_leaves {ls : List RType} (h : ∀ l ∈ ls, l.mode ≠ .union) :
    ls.flatMap leaves = ls := by
  induction ls with
  | nil => rfl
  | cons l ls ih =>
    rw [List.forall_mem_cons] at h
    rw [List.flatMap_cons, leaves_of_not_union h.1, ih h.2, List.singleton_append]

theorem Built.exists_leaf {t : RType} (h : t.Built) : t.leaves ≠ [] := by
  induction h with
  | leaf h => simp [leaves_of_not_union h]
  | @union ms hmany _ ih =>
    rw [leaves_ofMembers hmany]
    match ms, hmany with
    | m :: _ :: _, _ =>
      have := ih m List.mem_cons_self
      simp [this]

end RType

namespace Length

theorem zero_of_join {a b : Length} (h : a.join b = .zero) : a = .zero := by
  unfold join at h
  split at h
  · exact h
  · split at h
    · exact h
    · have hbound := exact_lowerBound (min a.minPossible b.minPossible)
      simp [h, exact] at hbound

theorem provenAboveOne_of_join {a b : Length} (h : (a.join b).provenAboveOne = true) :
    a.provenAboveOne = true ∧ b.provenAboveOne = true := by
  unfold join at h
  split at h
  · rename_i hab
    exact ⟨h, hab ▸ h⟩
  · split at h
    · rename_i hexact
      simp only [Bool.and_eq_true, beq_iff_eq, Option.isSome_iff_exists] at hexact
      obtain ⟨⟨n, hn⟩, hab⟩ := hexact
      refine ⟨h, provenAboveOne_of_minPossible ?_⟩
      rw [minPossible_of_exact (hab ▸ hn)]
      clear hab
      cases a <;> simp_all [exact, provenAboveOne]
      omega
    · have hmin := (canonical_lowerBound _).minPossible h
      rw [minPossible_lowerBound] at hmin
      exact ⟨provenAboveOne_of_minPossible (by omega), provenAboveOne_of_minPossible (by omega)⟩

theorem zero_of_foldl_join {ls : List Length} {init : Length}
    (h : ls.foldl join init = .zero) : init = .zero := by
  induction ls generalizing init with
  | nil => exact h
  | cons l ls ih => exact zero_of_join (ih h)

theorem provenAboveOne_of_foldl_join {ls : List Length} {init : Length}
    (h : (ls.foldl join init).provenAboveOne = true) :
    init.provenAboveOne = true ∧ ∀ l ∈ ls, l.provenAboveOne = true := by
  induction ls generalizing init with
  | nil => exact ⟨h, by simp⟩
  | cons l ls ih =>
    obtain ⟨hjoin, hls⟩ := ih h
    obtain ⟨hinit, hl⟩ := provenAboveOne_of_join hjoin
    exact ⟨hinit, List.forall_mem_cons.mpr ⟨hl, hls⟩⟩

end Length

namespace RType

theorem zero_of_ofMembers {ms : List RType} (hmany : 2 ≤ ms.length)
    (h : (ofMembers ms).length = .zero) : ∃ m ∈ ms, m.length = .zero := by
  match ms, hmany with
  | m :: _ :: _, _ => exact ⟨m, List.mem_cons_self, Length.zero_of_foldl_join h⟩

theorem provenAboveOne_of_ofMembers {ms : List RType} (hmany : 2 ≤ ms.length)
    (h : (ofMembers ms).length.provenAboveOne = true) :
    ∀ m ∈ ms, m.length.provenAboveOne = true := by
  match ms, hmany with
  | m :: m' :: ms, _ =>
    obtain ⟨hm, hms⟩ := Length.provenAboveOne_of_foldl_join h
    exact List.forall_mem_cons.mpr ⟨hm, fun n hn => hms _ (List.mem_map_of_mem hn)⟩

/-- A length a built union claims is claimed of its leaves. -/
theorem Built.zero {t : RType} (ht : t.Built) (h : t.length = .zero) :
    ∃ l ∈ t.leaves, l.length = .zero := by
  induction ht with
  | @leaf t hu => exact ⟨t, by simp [leaves_of_not_union hu], h⟩
  | @union ms hmany _ ih =>
    obtain ⟨m, hm, hzero⟩ := zero_of_ofMembers hmany h
    obtain ⟨l, hl, hlzero⟩ := ih m hm hzero
    rw [leaves_ofMembers hmany]
    exact ⟨l, List.mem_flatMap.mpr ⟨m, hm, hl⟩, hlzero⟩

theorem isInvalid_of_rejected {t : RType} (h : rejectedLength t.length = true) :
    t.isInvalid = true := by
  simp [isInvalid, conditionDiagnostic_of_rejected h]

theorem not_quiet_of_invalid {t : RType} (h : t.isInvalid = true) : t.isQuiet = false := by
  simp_all [isInvalid, isQuiet]

/-- The length of a built union decides nothing that its members do not. -/
theorem conditionDiagnostic_ofMembers {ms : List RType} (hmany : 2 ≤ ms.length)
    (hbuilt : ∀ m ∈ ms, m.Built) : (ofMembers ms).conditionDiagnostic = verdict ms := by
  obtain ⟨hu, hms⟩ := ofMembers_of_many hmany
  cases h : rejectedLength (ofMembers ms).length with
  | false => exact conditionDiagnostic_of_union hu hms h
  | true =>
    rw [conditionDiagnostic_of_rejected h]
    simp only [rejectedLength, Bool.or_eq_true, decide_eq_true_eq] at h
    rcases h with h | h
    · -- an empty member is rejected, and no sibling silences it
      obtain ⟨m, hm, hzero⟩ := zero_of_ofMembers hmany h
      have hinvalid : ms.any isInvalid = true :=
        List.any_eq_true.mpr ⟨m, hm, isInvalid_of_rejected (by simp [rejectedLength, hzero])⟩
      have hempty : ms.any carriesZeroLengthLeaf = true :=
        List.any_eq_true.mpr ⟨m, hm, (carriesZeroLengthLeaf_iff m).mpr ((hbuilt m hm).zero hzero)⟩
      simp [verdict, hinvalid, hempty]
    · -- every member is rejected, so none is quiet
      have hall : ∀ m ∈ ms, m.isInvalid = true := fun m hm =>
        isInvalid_of_rejected (by simp [rejectedLength, provenAboveOne_of_ofMembers hmany h m hm])
      have hquiet : ms.any isQuiet = false :=
        List.any_eq_false.mpr fun m hm => by simp [not_quiet_of_invalid (hall m hm)]
      have hinvalid : ms.any isInvalid = true := by
        obtain ⟨m, hm⟩ := List.exists_mem_of_length_pos (by omega : 0 < ms.length)
        exact List.any_eq_true.mpr ⟨m, hm, hall m hm⟩
      simp [verdict, hinvalid, hquiet]

/-- In a flat union the alternatives decide. -/
theorem conditionDiagnostic_flat {ls : List RType} (hmany : 2 ≤ ls.length)
    (hflat : ∀ l ∈ ls, l.mode ≠ .union) : (ofMembers ls).conditionDiagnostic = verdict ls :=
  conditionDiagnostic_ofMembers hmany fun l hl => .leaf (hflat l hl)

/-- Of a type that is no union, one of the four outcomes holds. -/
theorem outcome_of_not_union {l : RType} (hu : l.mode ≠ .union) :
    l.isInvalid = true ∨ l.isNumeric = true ∨ l.isQuiet = true ∨ l.isCoercible = true := by
  cases h : l.conditionDiagnostic with
  | some d => cases d <;> simp [isInvalid, isNumeric, h]
  | none =>
    refine .inr (.inr ?_)
    cases hquiet : l.mayBeCondition with
    | true => simp [isQuiet, h, hquiet]
    | false =>
      refine .inr ?_
      obtain ⟨mode, length, cls, columns, fnSig, members, facts⟩ := l
      unfold conditionDiagnostic at h
      split at h
      · cases h
      · cases mode <;> simp_all [mayBeCondition, isCoercible, Mode.isUnknownOrNonVector,
          Mode.isUnknown, Mode.isKnownNonVector, conditionDiagnostic]

theorem not_union_of_quiet {m : RType} (h : m.isQuiet = true) : m.mode ≠ .union := by
  intro hu
  simp [isQuiet, mayBeCondition, hu, Mode.isUnknownOrNonVector, Mode.isUnknown,
    Mode.isKnownNonVector] at h

theorem not_union_of_coercible {m : RType} (h : m.isCoercible = true) : m.mode ≠ .union := by
  intro hu
  simp [isCoercible, isCoercibleScalarConditionMode, hu] at h

theorem mem_leaves_of_not_union {ms : List RType} {m : RType} (hm : m ∈ ms)
    (hu : m.mode ≠ .union) : m ∈ ms.flatMap leaves :=
  List.mem_flatMap.mpr ⟨m, hm, by simp [leaves_of_not_union hu]⟩

theorem verdict_of_empty {ms : List RType} {m : RType} (hm : m ∈ ms) (hinvalid : m.isInvalid = true)
    (hempty : m.carriesZeroLengthLeaf = true) : verdict ms = some .invalid := by
  have hany : ms.any isInvalid = true := List.any_eq_true.mpr ⟨m, hm, hinvalid⟩
  have hzero : ms.any carriesZeroLengthLeaf = true := List.any_eq_true.mpr ⟨m, hm, hempty⟩
  simp [verdict, hany, hzero]

theorem verdict_of_unsilenced {ms : List RType} {m : RType} (hm : m ∈ ms)
    (hinvalid : m.isInvalid = true) (hquiet : ∀ n ∈ ms, n.isQuiet = false) :
    verdict ms = some .invalid := by
  have hany : ms.any isInvalid = true := List.any_eq_true.mpr ⟨m, hm, hinvalid⟩
  have hnone : ms.any isQuiet = false := List.any_eq_false.mpr fun n hn => by simp [hquiet n hn]
  simp [verdict, hany, hnone]

theorem verdict_of_unrejected {ms : List RType} (h : ∀ m ∈ ms, m.isInvalid = false)
    (hnumeric : ∀ m ∈ ms, m.isNumeric = false) : verdict ms = none := by
  have hinvalid : ms.any isInvalid = false := List.any_eq_false.mpr fun m hm => by simp [h m hm]
  have hnone : ms.any isNumeric = false := List.any_eq_false.mpr fun m hm => by simp [hnumeric m hm]
  simp [verdict, hinvalid, hnone]

theorem verdict_of_numeric {ms : List RType} (hne : ms ≠ []) (h : ∀ m ∈ ms, m.isNumeric = true) :
    verdict ms = some .numeric := by
  have hcd : ∀ m ∈ ms, m.conditionDiagnostic = some .numeric := fun m hm => by
    simpa [isNumeric] using h m hm
  have hinvalid : ms.any isInvalid = false :=
    List.any_eq_false.mpr fun m hm => by simp [isInvalid, hcd m hm]
  have hquiet : ms.any isQuiet = false :=
    List.any_eq_false.mpr fun m hm => by simp [isQuiet, hcd m hm]
  have hcoercible : ms.any isCoercible = false :=
    List.any_eq_false.mpr fun m hm => by simp [isCoercible, hcd m hm]
  have hnumeric : ms.any isNumeric = true := by
    obtain ⟨m, hm⟩ := List.exists_mem_of_ne_nil ms hne
    exact List.any_eq_true.mpr ⟨m, hm, h m hm⟩
  simp [verdict, hinvalid, hquiet, hcoercible, hnumeric]

/-! ### What every arrangement agrees on -/

theorem Built.invalid_of_empty {t : RType} (ht : t.Built) (h : ∃ l ∈ t.leaves, l.length = .zero) :
    t.isInvalid = true := by
  induction ht with
  | @leaf t hu =>
    rw [leaves_of_not_union hu] at h
    obtain ⟨l, hl, hzero⟩ := h
    obtain rfl := List.mem_singleton.mp hl
    exact isInvalid_of_rejected (by simp [rejectedLength, hzero])
  | @union ms hmany hbuilt ih =>
    rw [leaves_ofMembers hmany] at h
    obtain ⟨l, hl, hzero⟩ := h
    obtain ⟨m, hm, hlm⟩ := List.mem_flatMap.mp hl
    rw [isInvalid, conditionDiagnostic_ofMembers hmany hbuilt,
      verdict_of_empty hm (ih m hm ⟨l, hlm, hzero⟩)
        ((carriesZeroLengthLeaf_iff m).mpr ⟨l, hlm, hzero⟩)]
    rfl

theorem Built.invalid_of_unsilenced {t : RType} (ht : t.Built)
    (h : ∃ l ∈ t.leaves, l.isInvalid = true) (hquiet : ∀ l ∈ t.leaves, l.isQuiet = false) :
    t.isInvalid = true := by
  induction ht with
  | @leaf t hu =>
    rw [leaves_of_not_union hu] at h
    obtain ⟨l, hl, hinvalid⟩ := h
    rwa [List.mem_singleton.mp hl] at hinvalid
  | @union ms hmany hbuilt ih =>
    rw [leaves_ofMembers hmany] at h hquiet
    obtain ⟨l, hl, hinvalid⟩ := h
    obtain ⟨m, hm, hlm⟩ := List.mem_flatMap.mp hl
    have hm' : m.isInvalid = true :=
      ih m hm ⟨l, hlm, hinvalid⟩ fun k hk => hquiet k (List.mem_flatMap.mpr ⟨m, hm, hk⟩)
    have hnone : ∀ n ∈ ms, n.isQuiet = false := by
      intro n hn
      cases hq : n.isQuiet with
      | false => rfl
      | true => rw [← hq, hquiet n (mem_leaves_of_not_union hn (not_union_of_quiet hq))]
    rw [isInvalid, conditionDiagnostic_ofMembers hmany hbuilt, verdict_of_unsilenced hm hm' hnone]
    rfl

theorem Built.silent {t : RType} (ht : t.Built) (h : ∀ l ∈ t.leaves, l.isInvalid = false)
    (hnumeric : ∀ l ∈ t.leaves, l.isNumeric = false) : t.conditionDiagnostic = none := by
  induction ht with
  | @leaf t hu =>
    rw [leaves_of_not_union hu, List.forall_mem_singleton] at h hnumeric
    cases hcd : t.conditionDiagnostic with
    | none => rfl
    | some d => cases d <;> simp [isInvalid, isNumeric, hcd] at h hnumeric
  | @union ms hmany hbuilt ih =>
    rw [leaves_ofMembers hmany] at h hnumeric
    have hnone : ∀ m ∈ ms, m.conditionDiagnostic = none := fun m hm =>
      ih m hm (fun l hl => h l (List.mem_flatMap.mpr ⟨m, hm, hl⟩))
        fun l hl => hnumeric l (List.mem_flatMap.mpr ⟨m, hm, hl⟩)
    rw [conditionDiagnostic_ofMembers hmany hbuilt]
    exact verdict_of_unrejected (fun m hm => by simp [isInvalid, hnone m hm])
      fun m hm => by simp [isNumeric, hnone m hm]

theorem Built.numeric {t : RType} (ht : t.Built) (h : ∀ l ∈ t.leaves, l.isNumeric = true) :
    t.isNumeric = true := by
  induction ht with
  | @leaf t hu =>
    rw [leaves_of_not_union hu, List.forall_mem_singleton] at h
    exact h
  | @union ms hmany hbuilt ih =>
    rw [leaves_ofMembers hmany] at h
    have hall : ∀ m ∈ ms, m.isNumeric = true := fun m hm =>
      ih m hm fun l hl => h l (List.mem_flatMap.mpr ⟨m, hm, hl⟩)
    have hne : ms ≠ [] := List.ne_nil_of_length_pos (by omega)
    rw [isNumeric, conditionDiagnostic_ofMembers hmany hbuilt, verdict_of_numeric hne hall]
    rfl

theorem Built.two_leaves {t : RType} (ht : t.Built) (hu : t.mode = .union) :
    2 ≤ t.leaves.length := by
  cases ht with
  | leaf h => exact (h hu).elim
  | @union ms hmany hbuilt =>
    rw [leaves_ofMembers hmany]
    match ms, hmany with
    | a :: b :: ms, _ =>
      have ha := List.length_pos_of_ne_nil (hbuilt a (by simp)).exists_leaf
      have hb := List.length_pos_of_ne_nil (hbuilt b (by simp)).exists_leaf
      simp only [List.flatMap_cons, List.length_append]
      omega

/-- A union of two leaves is flat. -/
theorem flat_of_two {ms : List RType} (hmany : 2 ≤ ms.length) (hbuilt : ∀ m ∈ ms, m.Built)
    (htwo : (ms.flatMap leaves).length ≤ 2) : ∀ m ∈ ms, m.mode ≠ .union := by
  have hpos : ∀ m ∈ ms, 1 ≤ m.leaves.length := fun m hm =>
    List.length_pos_of_ne_nil (hbuilt m hm).exists_leaf
  match ms, hmany with
  | a :: b :: ms, _ =>
    have ha := hpos a (by simp)
    have hb := hpos b (by simp)
    simp only [List.flatMap_cons, List.length_append] at htwo
    have hrest : ms = [] := by
      rcases ms with _ | ⟨c, ms⟩
      · rfl
      · have hc := hpos c (by simp)
        simp only [List.flatMap_cons, List.length_append] at htwo
        omega
    subst hrest
    intro m hm hu
    have hm2 := (hbuilt m hm).two_leaves hu
    simp only [List.mem_cons, List.not_mem_nil, or_false] at hm
    rcases hm with rfl | rfl <;> omega

/-- No arrangement of these alternatives into unions changes the verdict: they are too few
to be nested, or one is empty, or something is rejected and nothing silences it, or
nothing is rejected and nothing silences a number. -/
def Arrangeable (ls : List RType) : Prop :=
  ls.length ≤ 2 ∨ (∃ l ∈ ls, l.length = .zero) ∨
    ((∃ l ∈ ls, l.isInvalid = true) ∧ ∀ l ∈ ls, l.isQuiet = false) ∨
    ((∀ l ∈ ls, l.isInvalid = false) ∧ ((∀ l ∈ ls, l.isNumeric = false) ∨
      ∀ l ∈ ls, l.isQuiet = false ∧ l.isCoercible = false))

theorem verdict_singleton (t : RType) (hu : t.mode ≠ .union) : verdict [t] = t.conditionDiagnostic := by
  rcases outcome_of_not_union hu with h | h | h | h <;>
    simp_all [verdict, isInvalid, isNumeric, isQuiet, isCoercible]

/-- Of arrangeable alternatives the flat union's verdict is everyone's. -/
theorem Built.verdict_leaves {t : RType} (ht : t.Built) (h : Arrangeable t.leaves) :
    t.conditionDiagnostic = verdict t.leaves := by
  have hleaves : ∀ l ∈ t.leaves, l.mode ≠ .union := fun l => not_union_of_mem_leaves
  rcases h with htwo | ⟨l, hl, hzero⟩ | ⟨⟨l, hl, hinvalid⟩, hquiet⟩ | ⟨hvalid, hnumeric | hloud⟩
  · cases ht with
    | leaf hu => rw [leaves_of_not_union hu, verdict_singleton t hu]
    | @union ms hmany hbuilt =>
      rw [leaves_ofMembers hmany] at htwo ⊢
      have hflat := flat_of_two hmany hbuilt htwo
      rw [flatMap_leaves hflat, conditionDiagnostic_flat hmany hflat]
  · have hcd := ht.invalid_of_empty ⟨l, hl, hzero⟩
    have hlinvalid : l.isInvalid = true := isInvalid_of_rejected (by simp [rejectedLength, hzero])
    have hcarries : l.carriesZeroLengthLeaf = true := by
      rw [carriesZeroLengthLeaf_iff, leaves_of_not_union (hleaves l hl)]
      exact ⟨l, List.mem_singleton_self l, hzero⟩
    rw [verdict_of_empty hl hlinvalid hcarries]
    simpa [isInvalid] using hcd
  · have hcd := ht.invalid_of_unsilenced ⟨l, hl, hinvalid⟩ hquiet
    rw [verdict_of_unsilenced hl hinvalid hquiet]
    simpa [isInvalid] using hcd
  · rw [ht.silent hvalid hnumeric, verdict_of_unrejected hvalid hnumeric]
  · have hall : ∀ l ∈ t.leaves, l.isNumeric = true := by
      intro l hl
      have := outcome_of_not_union (hleaves l hl)
      simpa [hvalid l hl, hloud l hl] using this
    rw [verdict_of_numeric ht.exists_leaf hall]
    simpa [isNumeric] using ht.numeric hall

/-- A group of alternatives that is silent as a union is not seen by its siblings. -/
theorem verdict_beside_group {G x : RType} (hu : G.mode = .union)
    (hnone : G.conditionDiagnostic = none) (hx : x.mode ≠ .union) (hquiet : x.isQuiet = false)
    (hcoercible : x.isCoercible = false) : verdict [G, x] = x.conditionDiagnostic := by
  have hG : G.isInvalid = false ∧ G.isNumeric = false ∧ G.isQuiet = false
      ∧ G.isCoercible = false := by
    refine ⟨by simp [isInvalid, hnone], by simp [isNumeric, hnone], ?_, ?_⟩
    · exact Bool.eq_false_iff.mpr fun h => not_union_of_quiet h hu
    · exact Bool.eq_false_iff.mpr fun h => not_union_of_coercible h hu
  rcases outcome_of_not_union hx with h | h | h | h <;>
    simp_all [verdict, isInvalid, isNumeric]

theorem verdict_of_quiet {ls : List RType} (hls : ∀ l ∈ ls, l.mode ≠ .union)
    (hempty : ∀ l ∈ ls, l.length ≠ .zero) {q : RType} (hq : q ∈ ls) (h : q.isQuiet = true) :
    verdict ls = none := by
  have hany : ls.any isQuiet = true := List.any_eq_true.mpr ⟨q, hq, h⟩
  have hzero : ls.any carriesZeroLengthLeaf = false := by
    refine List.any_eq_false.mpr fun l hl => ?_
    rw [carriesZeroLengthLeaf_iff, leaves_of_not_union (hls l hl)]
    simpa using hempty l hl
  simp [verdict, hany, hzero]

theorem verdict_of_coercible {ls : List RType} (hvalid : ∀ l ∈ ls, l.isInvalid = false)
    {c : RType} (hc : c ∈ ls) (h : c.isCoercible = true) : verdict ls = none := by
  have hany : ls.any isCoercible = true := List.any_eq_true.mpr ⟨c, hc, h⟩
  have hinvalid : ls.any isInvalid = false :=
    List.any_eq_false.mpr fun l hl => by simp [hvalid l hl]
  cases hnumeric : ls.any isNumeric <;> simp [verdict, hany, hinvalid, hnumeric]

theorem append_subset_cons {A : Type} (a : A) (as bs : List A) : as ++ bs ⊆ as ++ a :: bs :=
  List.append_subset.mpr ⟨List.subset_append_left _ _,
    fun _ hb => List.mem_append_right as (List.mem_cons_of_mem a hb)⟩

/-- Where the alternatives are not arrangeable, the flat union is silent, and one of them is
reported once the others are grouped. -/
theorem exists_group {ls : List RType} (hls : ∀ l ∈ ls, l.mode ≠ .union) (h : ¬ Arrangeable ls) :
    verdict ls = none ∧ ∃ as x bs, ls = as ++ x :: bs ∧ 2 ≤ (as ++ bs).length ∧
      verdict (as ++ bs) = none ∧ (x.isInvalid = true ∨ x.isNumeric = true) := by
  simp only [Arrangeable, not_or, not_and, not_exists, not_le, not_forall, Bool.not_eq_false] at h
  obtain ⟨hmany, hempty, hinvalid, hvalid⟩ := h
  -- the reported alternative `x`, and the one `q` that silences it in a group
  have hpick : ∃ x ∈ ls, ∃ q ∈ ls, q ≠ x ∧ (x.isInvalid = true ∨ x.isNumeric = true) ∧
      (q.isQuiet = true ∨ (∀ l ∈ ls, l.isInvalid = false) ∧ q.isCoercible = true) := by
    by_cases hrejected : ∃ l ∈ ls, l.isInvalid = true
    · obtain ⟨x, hx, hxi⟩ := hrejected
      obtain ⟨q, hq, hqq⟩ := hinvalid ⟨x, hx, hxi⟩
      refine ⟨x, hx, q, hq, ?_, .inl hxi, .inl hqq⟩
      rintro rfl
      simp [not_quiet_of_invalid hxi] at hqq
    · have hall : ∀ l ∈ ls, l.isInvalid = false := fun l hl =>
        Bool.eq_false_iff.mpr fun hl' => hrejected ⟨l, hl, hl'⟩
      obtain ⟨⟨x, hx, hxn⟩, q, hq, hqq⟩ := hvalid hall
      refine ⟨x, hx, q, hq, ?_, .inr hxn, ?_⟩
      · rintro rfl
        cases hcq : q.isQuiet <;> simp_all [isNumeric, isQuiet, isCoercible]
      · cases hcq : q.isQuiet with
        | true => exact .inl rfl
        | false => exact .inr ⟨hall, hqq hcq⟩
  obtain ⟨x, hx, q, hq, hne, hxout, hqout⟩ := hpick
  obtain ⟨as, bs, rfl⟩ := List.append_of_mem hx
  have hsub : as ++ bs ⊆ as ++ x :: bs := append_subset_cons x as bs
  have hqrest : q ∈ as ++ bs := by
    rcases List.mem_append.mp hq with hq | hq
    · exact List.mem_append_left bs hq
    · exact List.mem_append_right as (List.mem_of_ne_of_mem hne hq)
  have hlen : 2 ≤ (as ++ bs).length := by
    simp only [List.length_append, List.length_cons] at hmany ⊢
    omega
  have hempty' : ∀ l ∈ as ++ x :: bs, l.length ≠ .zero := hempty
  rcases hqout with hqq | ⟨hall, hqc⟩
  · exact ⟨verdict_of_quiet hls hempty' hq hqq, as, x, bs, rfl, hlen,
      verdict_of_quiet (fun l hl => hls l (hsub hl)) (fun l hl => hempty' l (hsub hl)) hqrest hqq,
      hxout⟩
  · exact ⟨verdict_of_coercible hall hq hqc, as, x, bs, rfl, hlen,
      verdict_of_coercible (fun l hl => hall l (hsub hl)) hqrest hqc, hxout⟩

/-- Leaves that are not arrangeable can be arranged for two verdicts. -/
theorem exists_arrangements {ls : List RType} (hls : ∀ l ∈ ls, l.mode ≠ .union)
    (h : ¬ Arrangeable ls) : ∃ ms ns : List RType, 2 ≤ ms.length ∧ 2 ≤ ns.length ∧
      (∀ m ∈ ms, m.Built) ∧ (∀ n ∈ ns, n.Built) ∧ (ms.flatMap leaves).Perm ls ∧
      (ns.flatMap leaves).Perm ls ∧ verdict ms ≠ verdict ns := by
  obtain ⟨hnone, as, x, bs, rfl, hlen, hgroup, hx⟩ := exists_group hls h
  have hxu : x.mode ≠ .union := hls x (by simp)
  have hrest : ∀ l ∈ as ++ bs, l.mode ≠ .union := fun l hl => hls l (append_subset_cons x as bs hl)
  have hG : (ofMembers (as ++ bs)).Built := .union hlen fun l hl => .leaf (hrest l hl)
  refine ⟨as ++ x :: bs, [ofMembers (as ++ bs), x], ?_, le_refl _, fun l hl => .leaf (hls l hl), ?_,
    ?_, ?_, ?_⟩
  · simp only [List.length_append, List.length_cons] at hlen ⊢
    omega
  · simp only [List.mem_cons, List.not_mem_nil, or_false]
    rintro n (rfl | rfl)
    · exact hG
    · exact .leaf hxu
  · rw [flatMap_leaves hls]
  · rw [List.flatMap_cons, List.flatMap_cons, List.flatMap_nil, List.append_nil,
      leaves_ofMembers hlen, flatMap_leaves hrest, leaves_of_not_union hxu]
    refine List.perm_append_comm.trans ?_
    rw [List.singleton_append]
    exact List.perm_middle.symm
  · have hquiet : x.isQuiet = false := by
      rcases hx with hx | hx <;> simp_all [isQuiet, isInvalid, isNumeric]
    have hcoercible : x.isCoercible = false := by
      rcases hx with hx | hx <;> simp_all [isCoercible, isInvalid, isNumeric]
    rw [hnone, verdict_beside_group (ofMembers_of_many hlen).1
      ((conditionDiagnostic_flat hlen hrest).trans hgroup) hxu hquiet hcoercible]
    rcases hx with hx | hx <;> simp_all [isInvalid, isNumeric]

theorem leaves_built {ms : List RType} {l : RType} (hl : l ∈ ms.flatMap leaves) :
    l.mode ≠ .union := by
  obtain ⟨m, -, hlm⟩ := List.mem_flatMap.mp hl
  exact not_union_of_mem_leaves hlm

theorem Arrangeable.perm {ls ks : List RType} (h : Arrangeable ls) (hperm : ks.Perm ls) :
    Arrangeable ks := by
  simpa only [Arrangeable, hperm.length_eq, hperm.mem_iff] using h

/-- In which cases grouping and reordering a union's members changes no verdict. -/
theorem members_arranged_iff {ms : List RType} (hmany : 2 ≤ ms.length)
    (hbuilt : ∀ m ∈ ms, m.Built) :
    (∀ ns : List RType, 2 ≤ ns.length → (∀ n ∈ ns, n.Built) →
      (ns.flatMap leaves).Perm (ms.flatMap leaves) → verdict ns = verdict ms) ↔
    Arrangeable (ms.flatMap leaves) := by
  constructor
  · intro h
    by_contra hnot
    obtain ⟨as, bs, has, hbs, hasb, hbsb, hasp, hbsp, hne⟩ :=
      exists_arrangements (fun _ => leaves_built) hnot
    exact hne ((h as has hasb hasp).trans (h bs hbs hbsb hbsp).symm)
  · intro h ns hns hnsb hperm
    have hleaf : ∀ ks : List RType, 2 ≤ ks.length → (∀ k ∈ ks, k.Built) →
        Arrangeable (ks.flatMap leaves) → verdict ks = verdict (ks.flatMap leaves) := by
      intro ks hks hksb hksa
      rw [← conditionDiagnostic_ofMembers hks hksb, ← leaves_ofMembers hks]
      exact (Built.union hks hksb).verdict_leaves (leaves_ofMembers hks ▸ hksa)
    rw [hleaf ns hns hnsb (h.perm hperm), hleaf ms hmany hbuilt h, verdict_perm hperm]

/-- When `condition_diagnostic` depends on the alternatives alone.  First the types as the
checked constructor builds them, in any arrangement of the same leaves; then a union with
any length of its own, as a length guard leaves it, in any arrangement of its members. -/
theorem arranged_iff (t : RType) :
    (t.Built →
      ((∀ t' : RType, t'.Built → t'.leaves.Perm t.leaves →
        t'.conditionDiagnostic = t.conditionDiagnostic) ↔ Arrangeable t.leaves)) ∧
    ∀ ms : List RType, t.mode = .union → t.members = some ms → 2 ≤ ms.length →
      (∀ m ∈ ms, m.Built) →
      ((∀ ns : List RType, 2 ≤ ns.length → (∀ n ∈ ns, n.Built) →
        (ns.flatMap leaves).Perm (ms.flatMap leaves) →
        conditionDiagnostic { t with members := some ns } = t.conditionDiagnostic) ↔
      rejectedLength t.length = true ∨ Arrangeable (ms.flatMap leaves)) := by
  constructor
  · intro ht
    constructor
    · intro h
      by_contra hnot
      obtain ⟨as, bs, has, hbs, hasb, hbsb, hasp, hbsp, hne⟩ :=
        exists_arrangements (fun _ => not_union_of_mem_leaves) hnot
      have ha := h _ (.union has hasb) (leaves_ofMembers has ▸ hasp)
      have hb := h _ (.union hbs hbsb) (leaves_ofMembers hbs ▸ hbsp)
      rw [conditionDiagnostic_ofMembers has hasb] at ha
      rw [conditionDiagnostic_ofMembers hbs hbsb] at hb
      exact hne (ha.trans hb.symm)
    · intro h t' ht' hperm
      rw [ht'.verdict_leaves (h.perm hperm), ht.verdict_leaves h, verdict_perm hperm]
  · intro ms hu hms hmany hbuilt
    cases hlength : rejectedLength t.length with
    | true =>
      simp only [true_or, iff_true]
      intro ns _ _ _
      rw [conditionDiagnostic_of_rejected hlength]
      exact conditionDiagnostic_of_rejected hlength
    | false =>
      simp only [Bool.false_eq_true, false_or]
      rw [← members_arranged_iff hmany hbuilt, conditionDiagnostic_of_union hu hms hlength]
      have hns : ∀ ns : List RType,
          conditionDiagnostic { t with members := some ns } = verdict ns := fun ns =>
        conditionDiagnostic_of_union (t := { t with members := some ns }) hu rfl hlength
      simp only [hns]

/-- The list alone is rejected; beside a logical it is not, unless the logical is grouped. -/
theorem arrangement_decides : ¬ ∀ t t' : RType, t.Built → t'.Built → t'.leaves.Perm t.leaves →
    t'.conditionDiagnostic = t.conditionDiagnostic := by
  intro h
  have hleaf : ∀ m : Mode, m ≠ .union → (scalar m).Built := fun m hm => .leaf hm
  have hflat : (ofMembers [scalar .logical, scalar .double, scalar .list]).Built :=
    .union (by decide) (by simp [hleaf])
  have hnested : (ofMembers [ofMembers [scalar .logical, scalar .double], scalar .list]).Built := by
    refine .union (by decide) ?_
    simp only [List.mem_cons, List.not_mem_nil, or_false, forall_eq_or_imp, forall_eq]
    exact ⟨.union (by decide) (by simp [hleaf]), hleaf _ (by decide)⟩
  exact absurd (h _ _ hflat hnested (by rfl)) (by decide)

end RType
end Ry
