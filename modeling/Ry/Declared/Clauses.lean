import Ry.Declared.Typehint

/-! # What a record holds

The record of some clauses holds what they claim and nothing else, as long as no two of them claim
different things of one formal: `Represents`.  A record that cannot is not exact, partial or
unsupported but an error.
-/

namespace Ry.Typehint

open Declared

/-- What a clause claims, of which formal. -/
def Clause.claim? : Clause → Option (String × Claim)
  | .claim _ argument cls residual => some (argument, cls, residual.map (·.raw))
  | .invalid _ _ => none

/-- A class, or a residual. -/
def Clause.Spoken : Clause → Prop
  | .claim _ _ cls residual => cls ≠ none ∨ residual ≠ none
  | .invalid _ _ => True

def Conflicting (clauses : List Clause) : Prop :=
  ∃ argument claim claim', claim ≠ claim' ∧
    (∃ clause ∈ clauses, clause.claim? = some (argument, claim)) ∧
    ∃ clause ∈ clauses, clause.claim? = some (argument, claim')

/-- The parameters and residuals of a record are those of its clauses. -/
structure Holds (clauses : List Clause) (parameters : List DeclaredParameter)
    (residuals : List ResidualConstraint) : Prop where
  kept : ∀ clause ∈ clauses, ∃ span argument cls residual,
    clause = .claim span argument cls residual ∧ (cls ≠ none ∨ residual ≠ none) ∧
      (∀ name, cls = some name →
        ∃ parameter ∈ parameters, parameter.name = argument ∧
          parameter.constraint = some (.exactClass name)) ∧
      ∀ rest, residual = some rest → rest ∈ residuals
  declared : ∀ parameter ∈ parameters, ∃ span name residual,
    .claim span parameter.name (some name) residual ∈ clauses ∧
      parameter.constraint = some (.exactClass name)
  residual : ∀ rest ∈ residuals, ∃ span argument cls,
    .claim span argument cls (some rest) ∈ clauses

/-- A record that is no error holds its clauses. -/
def Represents (clauses : List Clause) : Translation → Prop
  | .exact signature => Holds clauses signature.parameters []
  | .partly signature residuals => Holds clauses signature.parameters residuals
  | .unsupported residuals => Holds clauses [] residuals
  | .invalidSyntax _ | .ambiguousAttachment _ => True

/-! ## Conflicts -/

/-- What the clauses and the claims before them say of a formal. -/
def Says (clauses : List Clause) (claims : Table String Claim) (argument : String)
    (claim : Claim) : Prop :=
  claims.lookup argument = some claim ∨
    ∃ clause ∈ clauses, clause.claim? = some (argument, claim)

theorem conflicting_eq_false {clauses : List Clause} {claims : Table String Claim} :
    conflicting clauses claims = false ↔ ∀ argument claim claim',
      Says clauses claims argument claim → Says clauses claims argument claim' →
        claim = claim' := by
  induction clauses generalizing claims with
  | nil =>
    refine iff_of_true rfl ?_
    rintro argument claim claim' (h | ⟨_, hmem, -⟩) (h' | ⟨_, hmem, -⟩)
    · exact Option.some.inj (h.symm.trans h')
    all_goals exact absurd hmem List.not_mem_nil
  | cons clause clauses ih =>
    cases clause with
    | invalid span reason =>
      have hspoken : ∀ argument claim, Says (.invalid span reason :: clauses) claims argument claim ↔
          Says clauses claims argument claim := by
        intro argument claim
        refine or_congr_right ?_
        rw [List.exists_mem_cons_iff]
        exact or_iff_right fun h => by cases h
      rw [conflicting, ih]
      simp only [hspoken]
    | claim span formal cls residual =>
      let own : Claim := (cls, residual.map (·.raw))
      have hspoken : ∀ argument claim,
          Says (.claim span formal cls residual :: clauses) claims argument claim ↔
            claims.lookup argument = some claim ∨ (argument = formal ∧ claim = own) ∨
              ∃ clause ∈ clauses, clause.claim? = some (argument, claim) := by
        intro argument claim
        rw [Says, List.exists_mem_cons_iff, Clause.claim?, Option.some.injEq, Prod.mk.injEq]
        exact or_congr_right (or_congr_left (and_congr eq_comm eq_comm))
      have hinserted : ∀ argument claim, Says clauses (claims.insert formal own) argument claim ↔
          (argument = formal ∧ claim = own ∨ argument ≠ formal ∧ claims.lookup argument = some claim) ∨
            ∃ clause ∈ clauses, clause.claim? = some (argument, claim) := by
        intro argument claim
        refine or_congr_left ?_
        rw [Table.lookup_insert]
        by_cases hformal : argument = formal
        · simp [hformal, eq_comm]
        · simp [hformal]
      have hany : (claims.lookup formal).any (· ≠ own) = false ↔
          ∀ old, claims.lookup formal = some old → old = own := by
        cases claims.lookup formal <;> simp
      rw [conflicting, Bool.or_eq_false_iff, hany, ih]
      constructor
      · rintro ⟨hold, hrest⟩ argument claim claim' h h'
        have hmap : ∀ claim, Says (.claim span formal cls residual :: clauses) claims argument claim →
            Says clauses (claims.insert formal own) argument claim := by
          intro claim h
          rcases (hspoken argument claim).mp h with hlookup | hown | hmem
          · refine (hinserted argument claim).mpr (.inl ?_)
            by_cases hformal : argument = formal
            · exact .inl ⟨hformal, hold claim (hformal ▸ hlookup)⟩
            · exact .inr ⟨hformal, hlookup⟩
          · exact (hinserted argument claim).mpr (.inl (.inl hown))
          · exact (hinserted argument claim).mpr (.inr hmem)
        exact hrest argument claim claim' (hmap claim h) (hmap claim' h')
      · intro hall
        refine ⟨fun old hold => hall formal old own ((hspoken _ _).mpr (.inl hold))
          ((hspoken _ _).mpr (.inr (.inl ⟨rfl, rfl⟩))), fun argument claim claim' h h' => ?_⟩
        have hmap : ∀ claim, Says clauses (claims.insert formal own) argument claim →
            Says (.claim span formal cls residual :: clauses) claims argument claim := by
          intro claim h
          rcases (hinserted argument claim).mp h with (hown | ⟨-, hlookup⟩) | hmem
          · exact (hspoken argument claim).mpr (.inr (.inl hown))
          · exact (hspoken argument claim).mpr (.inl hlookup)
          · exact (hspoken argument claim).mpr (.inr (.inr hmem))
        exact hall argument claim claim' (hmap claim h) (hmap claim' h')

/-- The scan finds a conflict just when there is one. -/
theorem conflicting_iff {clauses : List Clause} :
    conflicting clauses ∅ = true ↔ Conflicting clauses := by
  have hspoken : ∀ argument claim, Says clauses ∅ argument claim ↔
      ∃ clause ∈ clauses, clause.claim? = some (argument, claim) := by
    intro argument claim
    rw [Says, Finmap.lookup_empty]
    exact or_iff_right (Option.some_ne_none _).symm
  rw [← Bool.not_eq_false, conflicting_eq_false, Conflicting]
  simp only [hspoken]
  push Not
  constructor
  · rintro ⟨argument, claim, claim', h, h', hne⟩
    exact ⟨argument, claim, claim', hne, h, h'⟩
  · rintro ⟨argument, claim, claim', hne, h, h'⟩
    exact ⟨argument, claim, claim', h, h', hne⟩

theorem not_conflicting_singleton (clause : Clause) : ¬ Conflicting [clause] := by
  rintro ⟨argument, claim, claim', hne, ⟨c, hc, h⟩, c', hc', h'⟩
  rw [List.mem_singleton.mp hc] at h
  rw [List.mem_singleton.mp hc', h] at h'
  exact hne (congrArg Prod.snd (Option.some.inj h'))

/-! ## The loop over the clauses -/

/-- What the loop has when it met no error. -/
structure Built (clauses : List Clause) (b : Building) : Prop where
  kept : ∀ clause ∈ clauses, ∃ span argument cls residual,
    clause = .claim span argument cls residual ∧
      (cls ≠ none → ∃ parameter ∈ b.parameters, parameter.name = argument) ∧
      ∀ rest, residual = some rest → rest ∈ b.residuals
  declared : ∀ parameter ∈ b.parameters, ∃ span name residual,
    .claim span parameter.name (some name) residual ∈ clauses ∧
      parameter.constraint = some (.exactClass name)
  residual : ∀ rest ∈ b.residuals, ∃ span argument cls,
    .claim span argument cls (some rest) ∈ clauses

variable {target : NamedFunction}

theorem or_some_ne_none {α : Type} (o : Option α) (a : α) : (o <|> some a) ≠ none := by
  cases o <;> simp

section

variable (argument : String) (defaulted : Bool) (b : Building) (cls : Option String)

@[simp] theorem addParameter_invalid : (addParameter argument defaulted b cls).invalid = b.invalid := by
  cases cls with
  | none => rfl
  | some cls => rw [addParameter]; split <;> rfl

@[simp] theorem addParameter_ambiguous :
    (addParameter argument defaulted b cls).ambiguous = b.ambiguous := by
  cases cls with
  | none => rfl
  | some cls => rw [addParameter]; split <;> rfl

@[simp] theorem addParameter_residuals :
    (addParameter argument defaulted b cls).residuals = b.residuals := by
  cases cls with
  | none => rfl
  | some cls => rw [addParameter]; split <;> rfl

theorem mem_addParameter {parameter : DeclaredParameter} :
    parameter ∈ (addParameter argument defaulted b cls).parameters ↔
      parameter ∈ b.parameters ∨ (∀ p ∈ b.parameters, p.name ≠ argument) ∧
        ∃ name, cls = some name ∧ parameter = declare argument name defaulted := by
  cases cls with
  | none => simp [addParameter]
  | some name =>
    rw [addParameter]
    by_cases hseen : b.parameters.any fun p => decide (p.name = argument)
    · obtain ⟨p, hp, hname⟩ := List.any_eq_true.mp hseen
      rw [if_pos hseen]
      refine (or_iff_left fun hnew => ?_).symm
      exact hnew.1 p hp (of_decide_eq_true hname)
    · have hnone : ∀ p ∈ b.parameters, p.name ≠ argument := fun p hp hname =>
        hseen (List.any_eq_true.mpr ⟨p, hp, decide_eq_true hname⟩)
      rw [if_neg hseen, List.mem_append, List.mem_singleton]
      refine or_congr_right ⟨fun heq => ⟨hnone, name, rfl, heq⟩, ?_⟩
      rintro ⟨-, name', hname, heq⟩
      rw [Option.some.inj hname]
      exact heq

/-- After the clause, the formal has a class if the clause gives one. -/
theorem addParameter_has (hcls : cls ≠ none) :
    ∃ parameter ∈ (addParameter argument defaulted b cls).parameters,
      parameter.name = argument := by
  obtain ⟨name, rfl⟩ := Option.ne_none_iff_exists'.mp hcls
  by_cases hseen : ∃ p ∈ b.parameters, p.name = argument
  · obtain ⟨p, hp, hname⟩ := hseen
    exact ⟨p, (mem_addParameter ..).mpr (.inl hp), hname⟩
  · refine ⟨declare argument name defaulted, (mem_addParameter ..).mpr (.inr ⟨?_, name, rfl, rfl⟩),
      rfl⟩
    exact fun p hp hname => hseen ⟨p, hp, hname⟩

end

/-- What the clauses before a clause have built. -/
theorem Built.claim {clauses : List Clause} {b : Building} (hb : Built clauses b) (span : Span)
    (argument : String) (cls : Option String) (residual : Option ResidualConstraint)
    (defaulted : Bool) : Built (clauses ++ [.claim span argument cls residual])
      (addParameter argument defaulted { b with residuals := b.residuals ++ residual.toList }
        cls) := by
  have hlast : Clause.claim span argument cls residual ∈
      clauses ++ [.claim span argument cls residual] :=
    List.mem_append_right _ List.mem_cons_self
  refine ⟨fun clause hclause => ?_, fun parameter hparameter => ?_, fun rest hrest => ?_⟩
  · rcases List.mem_append.mp hclause with hclause | hclause
    · obtain ⟨span', argument', cls', residual', rfl, hcls, hresidual⟩ := hb.kept clause hclause
      refine ⟨span', argument', cls', residual', rfl, fun hne => ?_, fun rest hrest => ?_⟩
      · obtain ⟨p, hp, hname⟩ := hcls hne
        exact ⟨p, (mem_addParameter ..).mpr (.inl hp), hname⟩
      · rw [addParameter_residuals]
        exact List.mem_append_left _ (hresidual rest hrest)
    · refine ⟨span, argument, cls, residual, List.mem_singleton.mp hclause,
        fun hne => addParameter_has argument defaulted _ cls hne, fun rest hrest => ?_⟩
      rw [addParameter_residuals]
      exact List.mem_append_right _ (Option.mem_toList.mpr hrest)
  · rcases (mem_addParameter ..).mp hparameter with hold | ⟨-, name, rfl, rfl⟩
    · obtain ⟨span', name, residual', hmem, hconstraint⟩ := hb.declared parameter hold
      exact ⟨span', name, residual', List.mem_append_left _ hmem, hconstraint⟩
    · exact ⟨span, name, residual, hlast, rfl⟩
  · rw [addParameter_residuals] at hrest
    rcases List.mem_append.mp hrest with hold | hnew
    · obtain ⟨span', argument', cls', hmem⟩ := hb.residual rest hold
      exact ⟨span', argument', cls', List.mem_append_left _ hmem⟩
    · obtain rfl : residual = some rest := Option.mem_toList.mp hnew
      exact ⟨span, argument, cls, hlast⟩

/-- One clause more: without an error now there was none before. -/
theorem Built.addClause {clauses : List Clause} {b : Building} {clause : Clause}
    (hb : b.invalid = none → b.ambiguous = none → Built clauses b)
    (hinvalid : (Typehint.addClause target b clause).invalid = none)
    (hambiguous : (Typehint.addClause target b clause).ambiguous = none) :
    Built (clauses ++ [clause]) (Typehint.addClause target b clause) := by
  cases clause with
  | invalid span reason =>
    rw [Typehint.addClause] at hinvalid
    exact absurd hinvalid (or_some_ne_none _ _)
  | claim span argument cls residual =>
    rw [Typehint.addClause] at hinvalid hambiguous ⊢
    cases hfind : target.params.find? (fun formal => decide (formal.1 = argument)) with
    | none =>
      rw [hfind] at hinvalid hambiguous
      dsimp only at hinvalid hambiguous
      by_cases hescaped : target.params.any fun formal => hasEscape formal.1
      · rw [if_pos hescaped] at hambiguous
        exact absurd hambiguous (or_some_ne_none _ _)
      · rw [if_neg hescaped] at hinvalid
        exact absurd hinvalid (or_some_ne_none _ _)
    | some formal =>
      rw [hfind] at hinvalid hambiguous
      dsimp only at hinvalid hambiguous
      rw [addParameter_invalid] at hinvalid
      rw [addParameter_ambiguous] at hambiguous
      exact (hb hinvalid hambiguous).claim span argument cls residual formal.2

/-- An error stays. -/
theorem addClause_invalid_ne {b : Building} (h : b.invalid ≠ none) (clause : Clause) :
    (addClause target b clause).invalid ≠ none := by
  cases clause with
  | invalid span reason => exact or_some_ne_none _ _
  | claim span argument cls residual =>
    rw [addClause]
    split
    · split
      · exact h
      · exact or_some_ne_none _ _
    · rw [addParameter_invalid]
      exact h

theorem foldl_addClause_invalid {b : Building} (h : b.invalid ≠ none) (clauses : List Clause) :
    (clauses.foldl (addClause target) b).invalid ≠ none := by
  induction clauses generalizing b with
  | nil => exact h
  | cons clause clauses ih => exact ih (addClause_invalid_ne h clause)

theorem built_foldl (clauses : List Clause) (invalid : Option String)
    (hinvalid : (clauses.foldl (addClause target) { invalid }).invalid = none)
    (hambiguous : (clauses.foldl (addClause target) { invalid }).ambiguous = none) :
    Built clauses (clauses.foldl (addClause target) { invalid }) := by
  induction clauses using List.reverseRecOn with
  | nil =>
    exact ⟨fun _ h => absurd h List.not_mem_nil, fun _ h => absurd h List.not_mem_nil,
      fun _ h => absurd h List.not_mem_nil⟩
  | append_singleton clauses clause ih =>
    rw [List.foldl_append] at hinvalid hambiguous ⊢
    exact Built.addClause ih hinvalid hambiguous

/-- Clauses that agree give each formal the class that they claim. -/
theorem Built.holds {clauses : List Clause} {b : Building} (hb : Built clauses b)
    (hagree : ¬ Conflicting clauses) (hspoken : ∀ clause ∈ clauses, clause.Spoken) :
    Holds clauses b.parameters b.residuals := by
  refine ⟨fun clause hclause => ?_, hb.declared, hb.residual⟩
  obtain ⟨span, argument, cls, residual, rfl, hcls, hresidual⟩ := hb.kept clause hclause
  refine ⟨span, argument, cls, residual, rfl, hspoken _ hclause, fun name hname => ?_, hresidual⟩
  obtain ⟨p, hp, rfl⟩ := hcls (by rw [hname]; exact Option.some_ne_none name)
  obtain ⟨span', name', residual', hmem, hconstraint⟩ := hb.declared p hp
  refine ⟨p, hp, rfl, ?_⟩
  by_cases heq : name' = name
  · rw [hconstraint, heq]
  · -- the clause that declared the formal would claim another class
    refine absurd ⟨p.name, (cls, residual.map (·.raw)), (some name', residual'.map (·.raw)),
      fun hclaim => heq ?_, ⟨_, hclause, rfl⟩, ⟨_, hmem, rfl⟩⟩ hagree
    exact (Option.some.inj (hname.symm.trans (congrArg Prod.fst hclaim))).symm

/-! ## The translation -/

theorem Holds.of_mem_iff {clauses : List Clause} {parameters parameters' : List DeclaredParameter}
    {residuals : List ResidualConstraint} (h : Holds clauses parameters residuals)
    (hmem : ∀ p, p ∈ parameters' ↔ p ∈ parameters) : Holds clauses parameters' residuals := by
  refine ⟨fun clause hclause => ?_, fun p hp => h.declared p ((hmem p).mp hp), h.residual⟩
  obtain ⟨span, argument, cls, residual, rfl, hsome, hcls, hresidual⟩ := h.kept clause hclause
  refine ⟨span, argument, cls, residual, rfl, hsome, fun name hname => ?_, hresidual⟩
  obtain ⟨p, hp, hdeclared⟩ := hcls name hname
  exact ⟨p, (hmem p).mpr hp, hdeclared⟩

variable (json : JsonStrings) (target)

/-- A budget error is what the record says. -/
theorem translationOf_budget (clauses : List Clause) (reason : String) :
    ∃ reason', translationOf json target
      (clauses.foldl (addClause target) { invalid := some reason }) = .invalidSyntax reason' := by
  obtain ⟨reason', hreason⟩ := Option.ne_none_iff_exists'.mp
    (@foldl_addClause_invalid target { invalid := some reason } (Option.some_ne_none reason) clauses)
  exact ⟨reason', by rw [translationOf, hreason]⟩

/-- The record of clauses that agree holds them. -/
theorem translationOf_represents {clauses : List Clause} (hagree : ¬ Conflicting clauses)
    (hspoken : ∀ clause ∈ clauses, clause.Spoken) (invalid : Option String) :
    Represents clauses (translationOf json target
      (clauses.foldl (addClause target) { invalid })) := by
  generalize hb : clauses.foldl (addClause target) { invalid } = b
  rw [translationOf]
  cases hinvalid : b.invalid with
  | some reason => trivial
  | none =>
    cases hambiguous : b.ambiguous with
    | some reason => trivial
    | none =>
      have hbuilt := built_foldl clauses invalid (hb ▸ hinvalid) (hb ▸ hambiguous)
      rw [hb] at hbuilt
      have hholds := (hbuilt.holds hagree hspoken).of_mem_iff fun p =>
        @List.mem_mergeSort _ (fun p q =>
          decide (formalPosition target p ≤ formalPosition target q)) p _
      dsimp only
      split
      · trivial
      · split
        next hempty =>
          rw [List.isEmpty_iff.mp hempty] at hholds
          exact hholds
        next =>
          split
          next hnone =>
            rw [List.isEmpty_iff.mp hnone] at hholds
            exact hholds
          next => exact hholds

variable {json target}

def residualsOf : Translation → List ResidualConstraint
  | .partly _ residuals | .unsupported residuals => residuals
  | .exact _ | .invalidSyntax _ | .ambiguousAttachment _ => []

/-- The residuals of a record are those of its clauses, also if they do not agree. -/
theorem mem_residualsOf {clauses : List Clause} {invalid : Option String}
    {rest : ResidualConstraint} (h : rest ∈ residualsOf (translationOf json target
      (clauses.foldl (addClause target) { invalid }))) :
    ∃ span argument cls, .claim span argument cls (some rest) ∈ clauses := by
  generalize hb : clauses.foldl (addClause target) { invalid } = b at h
  rw [translationOf] at h
  cases hinvalid : b.invalid with
  | some reason =>
    rw [hinvalid] at h
    exact absurd h List.not_mem_nil
  | none =>
    cases hambiguous : b.ambiguous with
    | some reason =>
      rw [hinvalid, hambiguous] at h
      exact absurd h List.not_mem_nil
    | none =>
      have hbuilt := built_foldl clauses invalid (hb ▸ hinvalid) (hb ▸ hambiguous)
      rw [hb] at hbuilt
      rw [hinvalid, hambiguous] at h
      dsimp only at h
      split at h
      · exact absurd h List.not_mem_nil
      · split at h
        · exact absurd h List.not_mem_nil
        · split at h <;> exact hbuilt.residual rest h

end Ry.Typehint
