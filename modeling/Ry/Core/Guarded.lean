import Ry.Core.Values

/-! # Guard evidence

`guard_target` of `narrow.rs`: the classes of a type become evidence of a passed class test, which
says less than a class vector does.
-/

namespace Ry

/-- The names as those of a passed class test. -/
def ClassVector.guardKnown (c : ClassVector) : ClassVector :=
  { c with guarded := c.hasKnownClass }

namespace RType

mutual
/-- `guard_target` -/
def guardTarget : RType → RType
  | ⟨mode, length, cls, columns, fnSig, members, valueFacts⟩ =>
    ⟨mode, length, cls.guardKnown, guardSchema? columns, guardSig? fnSig, guardMembers? members,
      valueFacts⟩
termination_by structural t => t
def guardSchema? : Option (ColumnSchema RType) → Option (ColumnSchema RType)
  | none => none
  | some s => some (guardSchema s)
termination_by structural s => s
def guardSchema : ColumnSchema RType → ColumnSchema RType
  | ⟨columns, complete, locallyConstructed⟩ => ⟨guardColumns columns, complete, locallyConstructed⟩
termination_by structural s => s
def guardColumns : List (String × RType) → List (String × RType)
  | [] => []
  | c :: cs => guardColumn c :: guardColumns cs
termination_by structural l => l
def guardColumn : String × RType → String × RType
  | (name, t) => (name, guardTarget t)
termination_by structural c => c
def guardSig? : Option (FunctionSignature RType) → Option (FunctionSignature RType)
  | none => none
  | some s => some (guardSig s)
termination_by structural s => s
def guardSig : FunctionSignature RType → FunctionSignature RType
  | ⟨params, returnType⟩ => ⟨params, guardTarget returnType⟩
termination_by structural s => s
def guardMembers? : Option (List RType) → Option (List RType)
  | none => none
  | some ms => some (guardList ms)
termination_by structural s => s
def guardList : List RType → List RType
  | [] => []
  | m :: ms => guardTarget m :: guardList ms
termination_by structural l => l
end

theorem guardList_eq (ms : List RType) : guardList ms = ms.map guardTarget := by
  induction ms with
  | nil => rfl
  | cons m ms ih => rw [guardList, ih, List.map_cons]

theorem guardColumns_eq (cs : List (String × RType)) :
    guardColumns cs = cs.map fun c => (c.1, guardTarget c.2) := by
  induction cs with
  | nil => rfl
  | cons c cs ih => rw [guardColumns, ih, List.map_cons, guardColumn]

/-- Guard evidence names a class, in every part of the type. -/
inductive NamedGuards : RType → Prop
  | mk {t : RType} (cls : t.cls.guarded = true → t.cls.names ≠ [])
      (parts : ∀ p ∈ t.parts, NamedGuards p) : NamedGuards t

theorem NamedGuards.named {t : RType} : NamedGuards t → t.cls.guarded = true → t.cls.names ≠ []
  | mk h _ => h

theorem NamedGuards.part {t : RType} : NamedGuards t → ∀ p ∈ t.parts, NamedGuards p
  | mk _ h => h

end RType

namespace ClassVector

/-- A class claim that says no more than another. -/
def Weaker (c c' : ClassVector) : Prop :=
  ∀ attr, c.describes attr = true → c'.describes attr = true

theorem weaker_guardKnown {c : ClassVector} (h : c.guarded = true → c.names ≠ []) :
    c.Weaker c.guardKnown := by
  intro attr hattr
  by_cases hknown : c.known = true
  · by_cases hnames : c.names = []
    · -- no names, so neither class is one of a class test
      have hguarded : c.guarded = false := Bool.eq_false_iff.mpr fun hg => h hg hnames
      have hself : c.guardKnown = c := by
        obtain ⟨names, bound, known, guarded, storageProxy⟩ := c
        dsimp only at hguarded hnames
        subst hguarded hnames
        simp [guardKnown, hasKnownClass]
      rwa [hself]
    · have hall : ∀ name ∈ c.names, name ∈ attr := by
        intro name hname
        by_cases hguarded : c.guarded = true
        · simp only [describes, hknown, hguarded, Bool.not_true, Bool.false_eq_true, if_false,
            if_true, List.all_eq_true, List.contains_iff_mem] at hattr
          exact hattr name hname
        · simp only [describes, hknown, hguarded, Bool.not_true, Bool.false_eq_true, if_false,
            beq_iff_eq] at hattr
          exact List.mem_of_mem_take (hattr ▸ hname)
      have hguard : c.guardKnown.guarded = true := by
        simp [guardKnown, hasKnownClass, hknown, hnames]
      have hnames' : c.guardKnown.names = c.names := rfl
      have hknown' : c.guardKnown.known = c.known := rfl
      simp only [describes, hknown', hknown, hguard, hnames', Bool.not_true, Bool.false_eq_true,
        if_false, if_true, List.all_eq_true, List.contains_iff_mem]
      exact hall
  · have hknown' : c.guardKnown.known = c.known := rfl
    simp [describes, hknown', hknown]

theorem isClassless_guardKnown {c : ClassVector} (h : c.guarded = true → c.names ≠ []) :
    c.guardKnown.isClassless = c.isClassless := by
  unfold isClassless guardKnown hasKnownClass
  by_cases hnames : c.names = []
  · have hguarded : c.guarded = false := Bool.eq_false_iff.mpr fun hg => h hg hnames
    simp [hnames, hguarded]
  · have hempty : c.names.isEmpty = false := by simpa using hnames
    simp [hempty]

end ClassVector

namespace RType

theorem outerClass_weaker {outer outer' : Option ClassVector} {cls : ClassVector}
    (h : cls.guarded = true → cls.names ≠ []) (ho : Option.Rel ClassVector.Weaker outer outer') :
    Option.Rel ClassVector.Weaker (outerClass outer cls) (outerClass outer' cls.guardKnown) := by
  cases ho with
  | some hc => exact .some hc
  | none =>
    simp only [outerClass, ClassVector.isClassless_guardKnown h]
    split
    · exact .none
    · exact .some (ClassVector.weaker_guardKnown h)

/-- Guard evidence describes what the class vector does, read under a weaker class too. -/
theorem describesUnder_guardTarget {t : RType} (h : NamedGuards t)
    {outer outer' : Option ClassVector} (ho : Option.Rel ClassVector.Weaker outer outer') {v : RValue}
    (hv : describesUnder outer t v = true) : describesUnder outer' (guardTarget t) v = true := by
  induction t using RType.induction generalizing outer outer' v with
  | h t ih =>
    obtain ⟨mode, length, cls, columns, fnSig, members, facts⟩ := t
    have hnamed : cls.guarded = true → cls.names ≠ [] := h.named
    have hpart : ∀ p ∈ RType.parts ⟨mode, length, cls, columns, fnSig, members, facts⟩,
        ∀ {outer outer' : Option ClassVector} {v : RValue},
          Option.Rel ClassVector.Weaker outer outer' → describesUnder outer p v = true →
          describesUnder outer' (guardTarget p) v = true :=
      fun p hp _ _ _ ho hv => ih p hp (h.part p hp) ho hv
    have hcolumns : describesSchema? columns v = true →
        describesSchema? (guardSchema? columns) v = true := by
      intro hschema
      cases columns with
      | none => rfl
      | some s =>
        obtain ⟨cs, complete, loc⟩ := s
        have hcolumn : ∀ c ∈ cs, ∀ w, describesUnder none c.2 w = true →
            describesUnder none (guardTarget c.2) w = true :=
          fun c hc w => hpart c.2 (mem_parts_column rfl hc) .none
        simp only [guardSchema?, guardSchema, describesSchema?, describesSchema, guardColumns_eq]
          at hschema ⊢
        split at hschema
        · rw [describesColumns_iff] at hschema
          rw [if_pos ‹_›, describesColumns_iff, List.forall₂_map_left_iff]
          have hboth := (List.forall₂_and_left _ _).mpr ⟨fun c hc => hc, hschema⟩
          exact hboth.imp fun c f hcf => ⟨hcf.2.1, hcolumn c hcf.1 f.2 hcf.2.2⟩
        · rw [describesSome_iff] at hschema
          rw [if_neg ‹_›, describesSome_iff]
          intro c hc
          obtain ⟨d, hd, rfl⟩ := List.mem_map.mp hc
          obtain ⟨f, hf, hname, hv⟩ := hschema d hd
          exact ⟨f, hf, hname, hcolumn d hd f.2 hv⟩
    have hsig : describesSig? fnSig v = true → describesSig? (guardSig? fnSig) v = true := by
      intro hresults
      cases fnSig with
      | none => rfl
      | some s =>
        obtain ⟨params, returnType⟩ := s
        simp only [guardSig?, guardSig, describesSig?, describesSig, List.all_eq_true]
          at hresults ⊢
        exact fun w hw => hpart returnType (by simp [parts]) .none (hresults w hw)
    have hmembers : ∀ {o o' : Option ClassVector}, Option.Rel ClassVector.Weaker o o' →
        describesMembers? o members v = true →
        describesMembers? o' (guardMembers? members) v = true := by
      intro o o' hoo' hms
      cases members with
      | none => cases hms
      | some ms =>
        simp only [guardMembers?, describesMembers?, guardList_eq] at hms ⊢
        obtain ⟨m, hm, hmv⟩ := (describesMembers_iff o ms v).mp hms
        exact (describesMembers_iff o' _ v).mpr
          ⟨guardTarget m, List.mem_map_of_mem hm, hpart m (mem_parts_member rfl hm) hoo' hmv⟩
    have hclass : (outer.getD cls).describes v.cls = true →
        (outer'.getD cls.guardKnown).describes v.cls = true := by
      cases ho with
      | none => exact ClassVector.weaker_guardKnown hnamed v.cls
      | some hc => exact hc v.cls
    simp only [guardTarget, describesUnder, Bool.and_eq_true] at hv ⊢
    refine ⟨hv.1, ?_⟩
    have hbody := hv.2
    split at hbody
    · rw [if_pos ‹_›]
      exact hmembers (outerClass_weaker hnamed ho) hbody
    · rw [if_neg ‹_›]
      simp only [Bool.and_eq_true] at hbody ⊢
      exact ⟨⟨hclass hbody.1.1, hcolumns hbody.1.2⟩, hsig hbody.2⟩

theorem describes_guardTarget {t : RType} (h : NamedGuards t) {v : RValue}
    (hv : t.describes v = true) : (guardTarget t).describes v = true :=
  describesUnder_guardTarget h .none hv

end RType

/-- `dispatch_result`: a method selected from guard evidence need not be the one that runs. -/
def dispatchResult (guardedReceiver : Bool) (result : RType) : RType :=
  if guardedReceiver then result.guardTarget else result

theorem describes_dispatchResult {guarded : Bool} {t : RType} (h : t.NamedGuards) {v : RValue}
    (hv : t.describes v = true) : (dispatchResult guarded t).describes v = true := by
  unfold dispatchResult
  split
  · exact RType.describes_guardTarget h hv
  · exact hv

end Ry
