import Ry.Infer.MergeSound

/-! # What the merge still knows of a name

Beside its type a name has facts that hold of its value on every path: the package function
it stands for, where it was defined, that it was asserted to be a scalar, that it began as a
list, that it is a parameter and still has its default.

The merge settles two of them name by name.  The others it lets follow the type: whichever
write gives the name a type drops them, and a name that keeps its type keeps them.
`IfRun.facts_after` says when what is left held on each path.
-/

namespace Ry

inductive MustFact
  /-- A package attachment is an alias, too. -/
  | functionAlias (target : String)
  | lexicalDefinition (definition : Span)
  | scalarAsserted
  | listOrigin
  /-- A default's binding is its parameter's. -/
  | parameter
  | defaultParameter
deriving DecidableEq

namespace MustFact

def Holds (st : BindingState) : MustFact → Prop
  | functionAlias target =>
    st.aliasTarget = some target ∨ BindingState.packageAlias st.boxObject = some target
  | lexicalDefinition definition => st.lexicalDefinition = some definition
  | scalarAsserted => st.markers.scalarAsserted = true
  | listOrigin => st.markers.listOrigin = true
  | parameter => st.markers.parameter = true ∨ st.markers.defaultParameter = true
  | defaultParameter => st.markers.defaultParameter = true

/-- The merge compares the arms' own facts. -/
def settledByName : MustFact → Bool
  | lexicalDefinition _ | scalarAsserted => true
  | _ => false

variable {f : MustFact} {st : BindingState}

theorem packageAlias_boxAfterWrite (ty : RType) :
    BindingState.packageAlias (st.boxAfterWrite ty) = none := by
  unfold BindingState.boxAfterWrite
  split <;> rfl

/-! ## What each write keeps -/

theorem not_holds_afterInsert (journaling : Bool) (ty : RType) :
    ¬ f.Holds (st.afterInsert journaling ty) := by
  have hbox : BindingState.packageAlias (st.boxAfterWrite ty) = none :=
    packageAlias_boxAfterWrite ty
  cases f <;>
    simp [Holds, BindingState.afterInsert, BindingState.default, Markers.none, hbox]

theorem holds_of_afterNarrowed {ty : RType} (h : f.Holds (st.afterNarrowed ty)) : f.Holds st := by
  have hbox : BindingState.packageAlias (st.boxAfterWrite ty) = none :=
    packageAlias_boxAfterWrite ty
  cases f <;> simp_all [Holds, BindingState.afterNarrowed]

theorem holds_of_afterFact {journaling : Bool} {fact : Option RType × Bool}
    (h : f.Holds (st.afterFact journaling fact)) :
    fact.2 = true ∧ (f = parameter ∨ f = defaultParameter) ∨ f.Holds st := by
  match fact with
  | (none, _) => exact .inr h
  | (some ty, false) => exact absurd h (not_holds_afterInsert journaling ty)
  | (some ty, true) =>
    have hbox : BindingState.packageAlias (st.boxAfterWrite ty) = none :=
      packageAlias_boxAfterWrite ty
    cases f <;> simp_all [Holds, BindingState.afterFact, BindingState.afterParameterDefault]

theorem holds_of_afterMerged {journaling : Bool} {write : Option (RType × Bool)}
    (h : f.Holds (st.afterMerged journaling write)) :
    (f = listOrigin ∧ ∃ ty, write = some (ty, true)) ∨ (write = none ∧ f.Holds st) := by
  match write with
  | none => exact .inr ⟨rfl, h⟩
  | some (ty, false) => exact absurd h (not_holds_afterInsert journaling ty)
  | some (ty, true) =>
    refine .inl ⟨?_, ty, rfl⟩
    have hnot : ¬ f.Holds (st.afterInsert journaling ty) := not_holds_afterInsert journaling ty
    cases f <;> simp_all [Holds, BindingState.afterMerged]

theorem holds_of_withBoxObject {object : Option BoxObject} (h : f.Holds (st.withBoxObject object)) :
    (∃ target, f = functionAlias target ∧ BindingState.packageAlias object = some target) ∨
      f.Holds st := by
  unfold BindingState.withBoxObject at h
  split at h
  · exact .inr h
  · cases f with
    | functionAlias target =>
      rcases h with halias | hobject
      · cases hobject : BindingState.packageAlias object with
        | some t =>
          rw [hobject] at halias
          exact .inl ⟨t, by rw [← Option.some.inj halias], rfl⟩
        | none =>
          rw [hobject] at halias
          have hkept : (if (BindingState.packageAlias st.boxObject).isSome then none
              else st.aliasTarget) = some target := halias
          split at hkept
          · simp at hkept
          · exact .inr (.inl hkept)
      · exact .inl ⟨target, rfl, hobject⟩
    | _ => exact .inr h

end MustFact

namespace IfStatement

open MustFact

variable (c : IfStatement) (ends : Ends) {b t e : BindingState} {n : String} {journaling : Bool}
  {returns : Bool × Bool} {f : MustFact}

theorem holds_of_settled (h : f.Holds (c.settled ends b t e)) :
    f.Holds b ∧ (f.settledByName = true →
      (f = scalarAsserted → c.losesAssertion ends t e = false) ∧
      (f ≠ scalarAsserted → c.redefines ends b t e = false)) := by
  cases f with
  | lexicalDefinition definition =>
    simp only [Holds, settled] at h
    split at h
    · simp at h
    · rename_i hredefines
      exact ⟨h, fun _ => ⟨fun heq => absurd heq (by simp), fun _ => by simpa using hredefines⟩⟩
  | scalarAsserted =>
    have hboth : b.markers.scalarAsserted = true ∧ c.losesAssertion ends t e = false := by
      simpa [Holds, settled] using h
    exact ⟨hboth.1, fun _ => ⟨fun _ => hboth.2, fun hne => absurd rfl hne⟩⟩
  | _ => exact ⟨h, fun hsettled => by simp [settledByName] at hsettled⟩

/-- The state before the loop vectors and the box objects. -/
def writtenState (b t e : BindingState) (journaling : Bool) (returns : Bool × Bool) (n : String) :
    BindingState :=
  let st := (c.settled ends b t e).afterMerged journaling (c.mergeWrite ends b t e n)
  let st := st.afterFact journaling (c.continuationFact ends t e n)
  (c.unionGuardFact ends b t e returns n).elim st st.afterNarrowed

/-- Where a fact that is left came from: a parameter default that a single path carries on,
a list origin kept by a write, or what the name had, no write having dropped it. -/
theorem holds_of_writtenState (h : f.Holds (c.writtenState ends b t e journaling returns n)) :
    ((c.continuationFact ends t e n).2 = true ∧ (f = parameter ∨ f = defaultParameter)) ∨
      (f = listOrigin ∧ ∃ ty, c.mergeWrite ends b t e n = some (ty, true)) ∨
      (c.mergeWrite ends b t e n = none ∧ f.Holds (c.settled ends b t e)) := by
  have hfact : f.Holds (((c.settled ends b t e).afterMerged journaling
      (c.mergeWrite ends b t e n)).afterFact journaling (c.continuationFact ends t e n)) := by
    unfold writtenState at h
    cases hguard : c.unionGuardFact ends b t e returns n with
    | none => simpa [hguard] using h
    | some ty => exact holds_of_afterNarrowed (by simpa [hguard] using h)
  exact (holds_of_afterFact hfact).imp_right holds_of_afterMerged

/-- An alias may also be the box object all paths agree on. -/
theorem holds_of_mergeState (h : f.Holds (c.mergeState ends b t e journaling returns n)) :
    (∃ object target, joinBoxes (c.boxPathObjects ends b t e) = some object ∧
        BindingState.packageAlias object = some target ∧ f = functionAlias target) ∨
      f.Holds (c.writtenState ends b t e journaling returns n) := by
  have hvector : ∀ {st : BindingState}, f.Holds { st with
      markers := { st.markers with loopVector := c.keepsVector ends b t e } } → f.Holds st := by
    intro st h
    cases f <;> exact h
  unfold mergeState at h
  cases hboxes : joinBoxes (c.boxPathObjects ends b t e) with
  | none =>
    rw [hboxes] at h
    exact .inr (hvector h)
  | some object =>
    rw [hboxes] at h
    rcases holds_of_withBoxObject h with ⟨target, hf, htarget⟩ | h
    · exact .inl ⟨object, target, rfl, htarget, hf⟩
    · exact .inr (hvector h)

/-! ## One path -/

/-- Where a path leaves the name: without an `else`, as it was, the condition's own view
aside. -/
def pathState (b t e : BindingState) : NarrowingBranch → BindingState
  | .thenBranch => t
  | .elseBranch => if c.hasElse then e else b

/-- The path gave the name a type that the merge sees. -/
def Retypes (n : String) (b t e : BindingState) (branch : NarrowingBranch) : Prop :=
  (c.changedType n b.ty (c.pathState b t e branch).view).isSome = true

/-- What holds of a path whose box object is the one all paths agree on. -/
theorem packageAlias_of_joinBoxes {objects : List (Option BoxObject)} {object : Option BoxObject}
    {target : String} (h : joinBoxes objects = some object)
    (htarget : BindingState.packageAlias object = some target) {o : Option BoxObject}
    (ho : o ∈ objects) : BindingState.packageAlias o = some target := by
  have hsame : ∀ o : Option BoxObject, (o == object) = true →
      BindingState.packageAlias o = some target := by
    intro o ho
    match object, htarget with
    | some (.attached (some (.package t))), ht =>
      match o, ho with
      | some (.attached (some (.package t'))), ho =>
        have hbeq : (t' == t) = true := ho
        have : t' = t := by simpa using hbeq
        exact this ▸ ht
  match objects with
  | [] => simp [joinBoxes] at h
  | first :: others =>
    simp only [joinBoxes] at h
    split at h
    · rename_i hall
      obtain rfl : first = object := Option.some.inj h
      rcases List.mem_cons.mp ho with rfl | ho
      · exact htarget
      · exact hsame o (List.all_eq_true.mp hall o ho)
    · obtain rfl : some BoxObject.opaqueCall = object := Option.some.inj h
      simp [BindingState.packageAlias] at htarget

theorem mergedType_eq_none {original thenTy elseTy : Option RType}
    (h : c.mergedType n original thenTy elseTy = none) : thenTy = none ∧ elseTy = none := by
  match thenTy, elseTy with
  | none, none => exact ⟨rfl, rfl⟩
  | some a, some b => cases original <;> simp [mergedType] at h; split at h <;> simp at h
  | some a, none => cases original <;> simp [mergedType] at h
  | none, some b => cases original <;> simp [mergedType] at h

section Path

variable {branch : NarrowingBranch} (hcontinues : c.Continues ends returns branch)

/-- Without an `else`, the false path shows the name as it was or narrowed. -/
def BarePath (b e : BindingState) : Prop :=
  c.hasElse = false →
    e.view = b.view ∨ ∃ ty, e.view = { b.view with ty := some ty, narrowed := true }

include hcontinues

theorem mem_boxPathObjects :
    (c.pathState b t e branch).boxObject ∈ c.boxPathObjects ends b t e := by
  cases branch with
  | thenBranch =>
    have hreach : thenReaches ends = true := by simp [thenReaches, hcontinues.1]
    simp [pathState, boxPathObjects, hreach]
  | elseBranch =>
    have hreach : c.elseReaches ends = c.hasElse := by simp [elseReaches, hcontinues.1]
    cases hElse : c.hasElse <;> simp [pathState, boxPathObjects, hElse, hreach]

theorem default_of_continuationFact (hbare : c.BarePath b e)
    (h : (c.continuationFact ends t e n).2 = true) :
    (c.pathState b t e branch).markers.defaultParameter = true := by
  cases branch with
  | thenBranch =>
    rcases c.continuationFact_then ends hcontinues.2.1 with hfact | hfact <;> rw [hfact] at h
    · simp at h
    · exact h
  | elseBranch =>
    have helse : e.markers.defaultParameter = true := by
      rcases c.continuationFact_else ends hcontinues.2.1 with hfact | hfact <;> rw [hfact] at h
      · simp at h
      · exact h
    cases hElse : c.hasElse with
    | true => simpa [pathState, hElse] using helse
    | false =>
      have hsame : e.markers.defaultParameter = b.markers.defaultParameter := by
        rcases hbare hElse with hview | ⟨ty, hview⟩ <;>
          exact congrArg BindingView.defaultParameter hview
      simp only [pathState, hElse, Bool.false_eq_true, if_false]
      exact hsame.symm.trans helse

/-- A write keeps a list origin that every path has which binds the name. -/
theorem listOrigin_of_mergeWrite (hbare : c.BarePath b e) {ty : RType}
    (h : c.mergeWrite ends b t e n = some (ty, true)) :
    (c.pathState b t e branch).ty = none ∨
      (c.pathState b t e branch).markers.listOrigin = true := by
  unfold mergeWrite at h
  split at h
  · simp at h
  simp only [mergeViews] at h
  cases branch with
  | thenBranch =>
    have hreach : thenReaches ends = true := by simp [thenReaches, hcontinues.1]
    split at h
    · obtain ⟨a, -, ha⟩ := Option.map_eq_some_iff.mp h
      exact .inr (congrArg Prod.snd ha)
    · obtain ⟨a, -, ha⟩ := Option.map_eq_some_iff.mp h
      have horigin := congrArg Prod.snd ha
      simp only [Bool.and_eq_true, Bool.or_eq_true, Option.isNone_iff_eq_none] at horigin
      exact horigin.1
  | elseBranch =>
    cases hElse : c.hasElse with
    | true =>
      have hreach : c.elseReaches ends = true := by simp [elseReaches, hElse, hcontinues.1]
      simp only [pathState, hElse, if_true]
      split at h
      · rename_i hone
        have hthen : thenReaches ends = false := by simpa [hreach] using (Bool.and_eq_true_iff.mp hone).2
        rw [hthen] at h
        obtain ⟨a, -, ha⟩ := Option.map_eq_some_iff.mp h
        exact .inr (congrArg Prod.snd ha)
      · obtain ⟨a, -, ha⟩ := Option.map_eq_some_iff.mp h
        have horigin := congrArg Prod.snd ha
        simp only [Bool.and_eq_true, Bool.or_eq_true, Option.isNone_iff_eq_none] at horigin
        exact horigin.2
    | false =>
      simp only [hElse, Bool.false_and, Bool.false_eq_true, if_false] at h
      obtain ⟨a, -, ha⟩ := Option.map_eq_some_iff.mp h
      have horigin := congrArg Prod.snd ha
      simp only [Bool.and_eq_true, Bool.or_eq_true, Option.isNone_iff_eq_none] at horigin
      simp only [pathState, hElse, Bool.false_eq_true, if_false]
      rcases hbare hElse with hview | ⟨ty', hview⟩ <;> rw [hview] at horigin
      · exact horigin.2
      · exact .inr (horigin.2.resolve_left (by simp))

/-- The merge writes a type wherever a path gave the name a new one. -/
theorem not_retypes_of_mergeWrite (h : c.mergeWrite ends b t e n = none) :
    ¬ c.Retypes n b t e branch := by
  have hnone := congrArg (Option.map Prod.fst) h
  rw [map_mergeWrite] at hnone
  unfold Retypes
  cases branch with
  | thenBranch =>
    have hreach : thenReaches ends = true := by simp [thenReaches, hcontinues.1]
    simp only [hreach, Bool.not_true, Bool.and_false, Bool.false_and, Bool.false_eq_true, if_false,
      if_true] at hnone
    split at hnone
    · simpa [pathState] using hnone
    · simpa [pathState] using (c.mergedType_eq_none hnone).1
  | elseBranch =>
    cases hElse : c.hasElse with
    | false =>
      simp [pathState, hElse, c.changedType_self]
    | true =>
      have hreach : c.elseReaches ends = true := by simp [elseReaches, hElse, hcontinues.1]
      simp only [hElse, hreach, Bool.not_true, Bool.and_false, Bool.true_and, Bool.false_eq_true,
        if_false, if_true] at hnone
      simp only [pathState, hElse, if_true]
      split at hnone
      · rename_i hone
        have hthen : thenReaches ends = false := by simpa using hone
        simpa [hthen] using hnone
      · simpa using (c.mergedType_eq_none hnone).2

/-- A definition or an assertion that is left is the path's. -/
theorem holds_of_settledByName (hf : f.settledByName = true)
    (h : f.Holds (c.settled ends b t e)) : f.Holds (c.pathState b t e branch) := by
  obtain ⟨hbase, hkept⟩ := c.holds_of_settled ends h
  obtain ⟨hasserted, hdefined⟩ := hkept hf
  cases f with
  | lexicalDefinition definition =>
    have hsame : (c.pathState b t e branch).lexicalDefinition = b.lexicalDefinition := by
      have hredefines := hdefined nofun
      unfold redefines at hredefines
      cases branch with
      | thenBranch => simp_all [pathState, thenReaches, hcontinues.1]
      | elseBranch =>
        cases hElse : c.hasElse <;> simp_all [pathState, elseReaches, hcontinues.1]
    exact hsame.trans hbase
  | scalarAsserted =>
    have hlost := hasserted rfl
    unfold losesAssertion at hlost
    cases branch with
    | thenBranch => simp_all [Holds, pathState, hcontinues.2.1]
    | elseBranch => cases hElse : c.hasElse <;> simp_all [Holds, pathState, hcontinues.2.1]
  | _ => simp [settledByName] at hf

/-- A fact that is left held on the path; or it is a list origin, and the path does not
bind the name; or it follows the type, the name had it before, and no path gave the name a
new type. -/
theorem holds_path (hbare : c.BarePath b e)
    (h : f.Holds (c.mergeState ends b t e journaling returns n)) :
    f.Holds (c.pathState b t e branch) ∨
      (f = listOrigin ∧ (c.pathState b t e branch).ty = none) ∨
      (f.settledByName = false ∧ f.Holds b ∧
        ∀ branch', c.Continues ends returns branch' → ¬ c.Retypes n b t e branch') := by
  rcases c.holds_of_mergeState ends h with ⟨object, target, hjoin, htarget, rfl⟩ | hwritten
  · exact .inl (.inr (packageAlias_of_joinBoxes hjoin htarget (c.mem_boxPathObjects ends hcontinues)))
  rcases c.holds_of_writtenState ends hwritten with ⟨hfact, hf⟩ | ⟨rfl, ty, hwrite⟩ | ⟨hnone, hsettled⟩
  · have hdefault := c.default_of_continuationFact ends hcontinues hbare hfact
    rcases hf with rfl | rfl
    · exact .inl (.inr hdefault)
    · exact .inl hdefault
  · exact (c.listOrigin_of_mergeWrite ends hcontinues hbare hwrite).elim
      (fun hunbound => .inr (.inl ⟨rfl, hunbound⟩)) .inl
  · cases hf : f.settledByName with
    | true => exact .inl (c.holds_of_settledByName ends hcontinues hf hsettled)
    | false =>
      exact .inr (.inr ⟨rfl, (c.holds_of_settled ends hsettled).1,
        fun _ hcontinues' => c.not_retypes_of_mergeWrite ends hcontinues' hnone⟩)

end Path

end IfStatement

namespace IfRun

variable (r : IfRun)

/-- Where a path leaves the name; without an `else`, the false path leaves it as it was. -/
def pathState (branch : NarrowingBranch) (n : String) : BindingState :=
  r.statement.pathState (r.start.capture n) (r.thenEnd.facts n) (r.elseEnd.facts n) branch

/-- The path gave the name a type that is no equal one and no view of the condition. -/
def Retypes (branch : NarrowingBranch) (n : String) : Prop :=
  r.statement.Retypes n (r.start.capture n) (r.thenEnd.facts n) (r.elseEnd.facts n) branch

theorem barePath (n : String) :
    r.statement.BarePath (r.start.capture n) (r.elseEnd.facts n) := fun hElse =>
  (r.view_elseEnd_of_bare hElse n).imp_right fun ⟨ty, hview, _⟩ => ⟨ty, hview⟩

theorem blank_after : r.after.Blank := by
  obtain ⟨raised, -, hholds⟩ := r.holds_after
  have hrest : r.after.rest.tables = (r.restAfter raised).tables := congrArg Scope.tables hholds.rest
  refine Eq.trans hrest ?_
  unfold restAfter IfStatement.mergeRest IfStatement.endRest
  split
  · exact Deltas.tables_maskRest _ _ _ _ _
  · exact Deltas.tables_maskRest _ _ _ _ _

end IfRun

/-! ## A list made in one arm -/

/-- `if (flag) x <- list() else {}` -/
noncomputable def listRun : IfRun where
  order := .sorted
  header := plainIf .none true
  thenArm := .step .sorted (.insert "x" (.scalar .list)) (.step .sorted (.markListOrigin "x") .done)
  elseArm := .done
  start := .default

/-- Where the then arm leaves `x`. -/
def listState : BindingState :=
  { BindingState.default with
    ty := some (.scalar .list)
    markers := { Markers.none with listOrigin := true } }

theorem listRun_then :
    Scope.Rewrites Scope.default.beginSnapshot.1 listRun.thenEnd "x" listState false :=
  Scope.rewrites_insertMerged (s := Scope.default.beginSnapshot.1) rfl .sorted "x"
    (some (.scalar .list, true))

theorem listRun_elseEnd : listRun.elseEnd.visible = Scope.default.visible := by
  have hbase := Scope.walkArm_base listRun.thenArm.journaled listRun.start listRun.header .thenBranch
  have hend : listRun.elseEnd.visible =
      (listRun.start.walkArm listRun.header .thenBranch listRun.thenArm.run).base.visible := rfl
  have hwrites : listRun.thenEnd.possibleBlockWrites = ∅ :=
    congrArg Scope.possibleBlockWrites listRun_then.rest
  refine (hend.trans (congrArg Scope.visible hbase)).trans ?_
  exact congrArg (fun writes => { Scope.default with possibleBlockWrites := writes }) hwrites

theorem listRun_continues (branch : NarrowingBranch) : listRun.Continues branch := by
  have hreturns := returns_of_not_diverges listRun rfl rfl
  have hthen : listRun.thenEnd.unreachable = false :=
    congrArg Scope.unreachable listRun_then.rest
  have helse : listRun.elseEnd.unreachable = false :=
    congrArg Scope.unreachable listRun_elseEnd
  have hloop : listRun.ends.inLoop = false := rfl
  cases branch with
  | thenBranch =>
    refine ⟨hthen, ?_, congrArg Prod.fst hreturns⟩
    simp [IfStatement.thenLeaves, hloop]
    rfl
  | elseBranch =>
    refine ⟨helse, ?_, congrArg Prod.snd hreturns⟩
    simp [IfStatement.elseLeaves, hloop]
    exact fun _ => rfl

theorem listRun_after : MustFact.listOrigin.Holds (listRun.after.capture "x") := by
  have hthen : listRun.thenEnd.facts "x" = listState :=
    congrArg (fun st : BindingState => { st with provenance := none }) listRun_then.self
  have helse : listRun.elseEnd.facts "x" = BindingState.default :=
    congrArg (Scope.facts · "x") listRun_elseEnd
  have hends : listRun.ends = ⟨false, false, false⟩ :=
    congrArg₂ (Ends.mk false) (listRun_continues .thenBranch).1 (listRun_continues .elseBranch).1
  rw [IfRun.capture_after, IfRun.stateAfter, hthen, helse, hends,
    returns_of_not_diverges listRun rfl rfl]
  rfl

end Ry
