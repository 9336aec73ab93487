import Ry.Declared.Normal

/-! # The canonical text of a signature is its normalized form

Two signatures within the budgets have one canonical text exactly when they normalize to one
signature.  The text is read back formal by formal; a normalized signature has the text of the
signature it was made of.
-/

namespace Ry.Declared

section Canonical

variable {json : JsonStrings}

/-! ## Constraints -/

/-- A spelled union of leaves, up to its closing bracket. -/
theorem render_union {keyed : List (List Char × TypeExpr)} {text : List Char}
    (halternative : ∀ entry ∈ keyed, IsAlternative json entry)
    (h : render json (.union (keyed.map (·.2))) = .ok text) :
    text = "union".toList ++ ('[' :: joined ((keyed.map (·.2)).map (leafText json)) ++ [']']) := by
  rw [render] at h
  split at h
  · cases h
  · rename_i texts htexts
    have hleaf : ∀ ty ∈ keyed.map (·.2), ty.IsLeaf := by
      intro ty hty
      obtain ⟨entry, hentry, rfl⟩ := List.mem_map.mp hty
      exact (halternative entry hentry).leaf
    rw [eq_of_bounded h, renderAll_leaves hleaf htexts]

/-- A spelled normalized predicate starts with its word. -/
theorem IsNormal.text_run {ty : TypeExpr} {text : List Char} (hty : IsNormal json ty)
    (h : render json ty = .ok text) :
    ∃ tail, text = ty.word.toList ++ tail ∧ ∀ rest, Closes rest → Stops (tail ++ rest) := by
  cases hty with
  | leaf hleaf => exact ⟨_, render_leaf hleaf h, fun rest hrest => stops_leafTail hrest ty⟩
  | union halternative _ _ _ =>
    exact ⟨_, render_union halternative h, fun rest _ => stops_cons (by decide) _⟩

theorem TypeExpr.word_ne_union {ty : TypeExpr} (h : ty.IsLeaf) : ty.word ≠ "union" := by
  cases ty with
  | unknown => decide
  | exactClass name => exact (by decide : "class" ≠ "union")
  | atomic mode length => exact mode.name_reserved.2.2.1
  | union members => exact h.elim

theorem TypeExpr.word_ne_none (ty : TypeExpr) : ty.word ≠ "none" := by
  cases ty with
  | unknown => decide
  | exactClass name => exact (by decide : "class" ≠ "none")
  | atomic mode length => exact mode.name_reserved.2.2.2
  | union members => exact (by decide : "union" ≠ "none")

/-- A normalized predicate is read back from its text, and what follows it is left. -/
theorem IsNormal.append_inj {ty ty' : TypeExpr} {text text' x y : List Char}
    (hty : IsNormal json ty) (hty' : IsNormal json ty') (htext : render json ty = .ok text)
    (htext' : render json ty' = .ok text') (hx : Closes x) (hy : Closes y)
    (h : text ++ x = text' ++ y) : ty = ty' ∧ x = y := by
  obtain ⟨tail, hrun, htail⟩ := hty.text_run htext
  obtain ⟨tail', hrun', htail'⟩ := hty'.text_run htext'
  have hword : ty.word = ty'.word := by
    rw [hrun, hrun', List.append_assoc, List.append_assoc] at h
    exact String.toList_inj.mp (append_inj_of_run ty.word_unstopped ty'.word_unstopped
      (htail x hx) (htail' y hy) h).1
  cases hty with
  | leaf hleaf =>
    cases hty' with
    | leaf hleaf' =>
      rw [render_leaf hleaf htext, render_leaf hleaf' htext'] at h
      exact leafText_append_inj hleaf hleaf' hx hy h
    | union => exact absurd hword (TypeExpr.word_ne_union hleaf)
  | @union keyed halternative _ hseveral _ =>
    cases hty' with
    | leaf hleaf' => exact absurd hword.symm (TypeExpr.word_ne_union hleaf')
    | @union keyed' halternative' _ hseveral' _ =>
      have hleaf : ∀ {entries : List (List Char × TypeExpr)},
          (∀ entry ∈ entries, IsAlternative json entry) → ∀ ty ∈ entries.map (·.2), ty.IsLeaf := by
        intro entries hall ty hty
        obtain ⟨entry, hentry, rfl⟩ := List.mem_map.mp hty
        exact (hall entry hentry).leaf
      have hne : ∀ {entries : List (List Char × TypeExpr)}, 2 ≤ entries.length →
          entries.map (·.2) ≠ [] := by
        intro entries hlength hnil
        have hzero := congrArg List.length hnil
        rw [List.length_map, List.length_nil] at hzero
        omega
      rw [render_union halternative htext, render_union halternative' htext'] at h
      simp only [List.append_assoc, List.cons_append, List.nil_append] at h
      have hjoined := (List.cons.inj (List.append_cancel_left h)).2
      obtain ⟨hmembers, hxy⟩ := joined_append_inj (hne hseveral) (hne hseveral')
        (hleaf halternative) (hleaf halternative') hjoined
      exact ⟨congrArg _ hmembers, hxy⟩

/-- A spelled constraint has a normalized form, of the same spelling. -/
theorem constraintText_normal {constraint : Option TypeExpr} {text : List Char}
    (h : constraintText json constraint = .ok text) :
    ∃ normal, normalizedConstraint json constraint = .ok normal ∧
      normalizedConstraint json normal = .ok normal ∧ constraintText json normal = .ok text := by
  cases constraint with
  | none => exact ⟨none, rfl, rfl, h⟩
  | some ty =>
    obtain ⟨normal, hnormal, hshape, -, hcanonical⟩ := canonicalType_normal h
    refine ⟨some normal, ?_, ?_, hcanonical⟩
    · rw [normalizedConstraint, hnormal]
      rfl
    · rw [normalizedConstraint, hshape.normalizedType_self]
      rfl

/-- A constraint is read back, up to normalization. -/
theorem constraintText_append_inj {constraint constraint' : Option TypeExpr}
    {text text' x y : List Char} (htext : constraintText json constraint = .ok text)
    (htext' : constraintText json constraint' = .ok text') (hx : Closes x) (hy : Closes y)
    (h : text ++ x = text' ++ y) :
    normalizedConstraint json constraint = normalizedConstraint json constraint' ∧ x = y := by
  have hnone : ∀ c ∈ "none".toList, c ∉ stops := by simp [stops]
  -- no predicate is spelled like the absent constraint
  have habsent : ∀ {ty : TypeExpr} {text x y : List Char}, canonicalType json ty = .ok text →
      Closes x → Closes y → "none".toList ++ x ≠ text ++ y := by
    intro ty text x y hty hx hy heq
    obtain ⟨normal, -, hshape, hrender, -⟩ := canonicalType_normal hty
    obtain ⟨tail, hrun, htail⟩ := hshape.text_run hrender
    rw [hrun, List.append_assoc] at heq
    have hword := (append_inj_of_run hnone normal.word_unstopped hx.stops (htail y hy) heq).1
    exact normal.word_ne_none (String.toList_inj.mp hword).symm
  cases constraint with
  | none =>
    obtain rfl := Except.ok.inj htext
    cases constraint' with
    | none =>
      obtain rfl := Except.ok.inj htext'
      exact ⟨rfl, List.append_cancel_left h⟩
    | some ty' => exact absurd h (habsent htext' hx hy)
  | some ty =>
    cases constraint' with
    | none =>
      obtain rfl := Except.ok.inj htext'
      exact absurd h.symm (habsent htext hy hx)
    | some ty' =>
      obtain ⟨normal, hnormal, hshape, hrender, -⟩ := canonicalType_normal htext
      obtain ⟨normal', hnormal', hshape', hrender', -⟩ := canonicalType_normal htext'
      obtain ⟨rfl, hxy⟩ := hshape.append_inj hshape' hrender hrender' hx hy h
      exact ⟨by rw [normalizedConstraint, normalizedConstraint, hnormal, hnormal'], hxy⟩

/-! ## Formals -/

/-- A formal with the text of its constraint. -/
abbrev SpelledFormal := DeclaredParameter × List Char

/-- The text of the formals. -/
def formalsText (json : JsonStrings) : List SpelledFormal → Bool → List Char
  | [], _ => []
  | (parameter, constraint) :: formals, first =>
    (if first then [] else commaSpace) ++
      (formalText json parameter ++ constraint ++ formalsText json formals false)

/-- Each constraint with its text. -/
def AllSpelled (json : JsonStrings) (formals : List SpelledFormal) : Prop :=
  ∀ formal ∈ formals, constraintText json formal.1.constraint = .ok formal.2

theorem spellParameters_spec {parameters : List DeclaredParameter} {text out : List Char}
    {first : Bool} (h : spellParameters json parameters text first = .ok out) :
    ∃ formals : List SpelledFormal, formals.map (·.1) = parameters ∧ AllSpelled json formals ∧
      out = text ++ formalsText json formals first := by
  induction parameters generalizing text first with
  | nil =>
    obtain rfl := Except.ok.inj h
    exact ⟨[], rfl, fun _ h => absurd h List.not_mem_nil, (List.append_nil _).symm⟩
  | cons parameter parameters ih =>
    rw [spellParameters] at h
    split at h
    · cases h
    · rename_i constraint hconstraint
      generalize hseparator : (if first then [] else commaSpace) = separator at h
      dsimp only at h
      split at h
      · cases h
      · obtain ⟨formals, rfl, hspelled, rfl⟩ := ih h
        refine ⟨(parameter, constraint) :: formals, rfl, fun formal hformal => ?_, ?_⟩
        · rcases List.mem_cons.mp hformal with rfl | hformal
          · exact hconstraint
          · exact hspelled formal hformal
        · simp only [formalsText, hseparator, List.append_assoc]

/-- The texts grow, and the last one is bounded. -/
theorem spellParameters_of_bounded {formals : List SpelledFormal} (hspelled : AllSpelled json formals)
    {text : List Char} {first : Bool}
    (hbound : byteLen (text ++ formalsText json formals first) ≤ maxDeclarationBytes) :
    spellParameters json (formals.map (·.1)) text first =
      .ok (text ++ formalsText json formals first) := by
  induction formals generalizing text first with
  | nil => rw [formalsText, List.append_nil]; rfl
  | cons formal formals ih =>
    obtain ⟨parameter, constraint⟩ := formal
    have hhere : constraintText json parameter.constraint = .ok constraint :=
      hspelled (parameter, constraint) List.mem_cons_self
    rw [List.map_cons, spellParameters, hhere]
    dsimp only
    simp only [formalsText] at hbound ⊢
    rw [if_neg, ih fun f hf => hspelled f (List.mem_cons_of_mem _ hf)]
    · simp only [List.append_assoc]
    · simpa only [List.append_assoc] using hbound
    · simp only [byteLen_append] at hbound ⊢
      omega

/-- What validation says of a formal. -/
structure ValidFormal (parameter : DeclaredParameter) : Prop where
  named : parameter.form = .variadic ↔ parameter.name = "..."
  unsupplied : parameter.form = .variadic → parameter.supplied = .unknown

theorem validateParameters_valid {parameters : List DeclaredParameter} {seen : List String}
    {nodes total : Nat} (h : validateParameters parameters seen nodes = .ok total) :
    ∀ parameter ∈ parameters, ValidFormal parameter := by
  induction parameters generalizing seen nodes with
  | nil => exact fun _ h => absurd h List.not_mem_nil
  | cons parameter parameters ih =>
    rw [validateParameters] at h
    split at h
    · cases h
    · split at h
      · cases h
      · rename_i hidentity
        split at h
        · cases h
        · rename_i hstatus
          split at h
          · cases h
          · intro other hother
            rcases List.mem_cons.mp hother with rfl | hother
            · refine ⟨?_, fun hform => ?_⟩
              · have hagree := not_or.mp (not_or.mp hidentity).2
                exact decide_eq_decide.mp (not_not.mp hagree.1)
              · by_contra hne
                exact hstatus ⟨hform, hne⟩
            · exact ih h other hother

theorem DeclaredSignature.valid_of_validate {signature : DeclaredSignature} {total : Nat}
    (h : signature.validate = .ok total) : ∀ parameter ∈ signature.parameters, ValidFormal parameter := by
  rw [validate] at h
  split at h
  · cases h
  · split at h
    · cases h
    · rename_i hparameters
      exact validateParameters_valid hparameters

theorem SupplyStatus.name_injective {status status' : SupplyStatus} (h : status.name = status'.name) :
    status = status' := by
  revert h
  cases status <;> cases status' <;> decide

theorem EvaluationSemantics.name_injective {evaluation evaluation' : EvaluationSemantics}
    (h : evaluation.name = evaluation'.name) : evaluation = evaluation' := by
  revert h
  cases evaluation <;> cases evaluation' <;> decide

theorem AssignmentSemantics.name_injective {assignment assignment' : AssignmentSemantics}
    (h : assignment.name = assignment'.name) : assignment = assignment' := by
  revert h
  cases assignment <;> cases assignment' <;> decide

theorem slash_not_mem_formText (parameter : DeclaredParameter) :
    '/' ∉ (formText parameter).toList := by
  unfold formText
  cases parameter.form with
  | variadic => simp
  | ordinary => cases parameter.supplied <;> simp [SupplyStatus.name]

theorem space_not_mem_name (evaluation : EvaluationSemantics) : ' ' ∉ evaluation.name.toList := by
  cases evaluation <;> simp [EvaluationSemantics.name]

theorem bracket_not_mem_name (assignment : AssignmentSemantics) :
    ']' ∉ assignment.name.toList := by
  cases assignment <;> simp [AssignmentSemantics.name]

/-- Two formals alike up to normalization. -/
structure SameFormal (json : JsonStrings) (parameter parameter' : DeclaredParameter) : Prop where
  name : parameter.name = parameter'.name
  form : parameter.form = parameter'.form
  supplied : parameter.supplied = parameter'.supplied
  evaluation : parameter.evaluation = parameter'.evaluation
  constraint : normalizedConstraint json parameter.constraint =
    normalizedConstraint json parameter'.constraint

theorem formalText_append_inj {parameter parameter' : DeclaredParameter} (hvalid : ValidFormal parameter)
    (hvalid' : ValidFormal parameter') {text text' x y : List Char}
    (htext : constraintText json parameter.constraint = .ok text)
    (htext' : constraintText json parameter'.constraint = .ok text') (hx : Closes x) (hy : Closes y)
    (h : formalText json parameter ++ text ++ x = formalText json parameter' ++ text' ++ y) :
    SameFormal json parameter parameter' ∧ x = y := by
  simp only [formalText, List.append_assoc, List.cons_append] at h
  obtain ⟨hform, h⟩ := append_inj_of_separator (slash_not_mem_formText parameter)
    (slash_not_mem_formText parameter') h
  obtain ⟨hevaluation, h⟩ := append_inj_of_separator (space_not_mem_name parameter.evaluation)
    (space_not_mem_name parameter'.evaluation) h
  obtain ⟨hname, h⟩ := json.delimited _ _ _ _ h
  obtain ⟨hconstraint, hxy⟩ := constraintText_append_inj htext htext' hx hy
    (List.append_cancel_left h)
  have hname := String.toList_inj.mp hname
  have hsame : parameter.form = parameter'.form := by
    have hiff := hvalid.named.trans ((Eq.congr_left hname).trans hvalid'.named.symm)
    cases hleft : parameter.form <;> cases hright : parameter'.form <;>
      simp [hleft, hright] at hiff ⊢
  have hsupplied : parameter.supplied = parameter'.supplied := by
    cases hleft : parameter.form with
    | variadic => rw [hvalid.unsupplied hleft, hvalid'.unsupplied (hsame ▸ hleft)]
    | ordinary =>
      have hstatus := String.toList_inj.mp hform
      rw [formText, formText, ← hsame, hleft] at hstatus
      exact SupplyStatus.name_injective hstatus
  exact ⟨⟨hname, hsame, hsupplied,
    EvaluationSemantics.name_injective (String.toList_inj.mp hevaluation), hconstraint⟩, hxy⟩

/-! ## Signatures -/

/-- What follows a formal: another one, or the end of the list. -/
theorem closes_formals (formals : List SpelledFormal) (rest : List Char) :
    Closes (formalsText json formals false ++ ')' :: rest) := by
  cases formals with
  | nil => exact closes_paren rest
  | cons formal formals => exact closes_comma _

/-- The formals are read back one by one. -/
theorem formalsText_append_inj {formals formals' : List SpelledFormal} {first : Bool}
    (hvalid : ∀ formal ∈ formals, ValidFormal formal.1)
    (hvalid' : ∀ formal ∈ formals', ValidFormal formal.1)
    (hspelled : AllSpelled json formals) (hspelled' : AllSpelled json formals') {x y : List Char}
    (h : formalsText json formals first ++ ')' :: x = formalsText json formals' first ++ ')' :: y) :
    List.Forall₂ (SameFormal json) (formals.map (·.1)) (formals'.map (·.1)) ∧ x = y := by
  -- a list of formals does not start with the parenthesis that ends it
  have hopen : ∀ (formal : SpelledFormal) (formals : List SpelledFormal) (first : Bool)
      (x y : List Char), ')' :: x ≠ formalsText json (formal :: formals) first ++ y := by
    rintro ⟨parameter, constraint⟩ formals first x y heq
    have hword : ((formText parameter).toList.head?) ≠ some ')' ∧ formText parameter ≠ "" := by
      unfold formText
      cases parameter.form with
      | variadic => simp
      | ordinary => cases parameter.supplied <;> simp [SupplyStatus.name]
    cases first with
    | false => exact absurd (List.cons.inj heq).1 (by decide)
    | true =>
      have hhead := congrArg List.head? heq
      simp only [formalsText, formalText, if_true, List.nil_append, List.append_assoc] at hhead
      obtain ⟨c, cs, hcs⟩ := List.exists_cons_of_ne_nil
        (fun hnil => hword.2 (String.toList_inj.mp (hnil.trans String.toList_empty.symm)))
      rw [hcs, List.cons_append, List.head?_cons, List.head?_cons] at hhead
      exact hword.1 (by rw [hcs, List.head?_cons, hhead])
  induction formals generalizing formals' first with
  | nil =>
    cases formals' with
    | nil => exact ⟨.nil, (List.cons.inj h).2⟩
    | cons formal' formals' => exact absurd h (hopen formal' formals' first x _)
  | cons formal formals ih =>
    cases formals' with
    | nil => exact absurd h.symm (hopen formal formals first y _)
    | cons formal' formals' =>
      obtain ⟨parameter, constraint⟩ := formal
      obtain ⟨parameter', constraint'⟩ := formal'
      have hhere : formalText json parameter ++ constraint ++
            (formalsText json formals false ++ ')' :: x) =
          formalText json parameter' ++ constraint' ++
            (formalsText json formals' false ++ ')' :: y) := by
        simp only [formalsText, List.append_assoc] at h ⊢
        exact List.append_cancel_left h
      obtain ⟨hsame, hrest⟩ := formalText_append_inj
        (hvalid (parameter, constraint) List.mem_cons_self)
        (hvalid' (parameter', constraint') List.mem_cons_self)
        (hspelled (parameter, constraint) List.mem_cons_self)
        (hspelled' (parameter', constraint') List.mem_cons_self)
        (closes_formals formals x) (closes_formals formals' y) hhere
      obtain ⟨hall, hxy⟩ := ih (fun f hf => hvalid f (List.mem_cons_of_mem _ hf))
        (fun f hf => hvalid' f (List.mem_cons_of_mem _ hf))
        (fun f hf => hspelled f (List.mem_cons_of_mem _ hf))
        (fun f hf => hspelled' f (List.mem_cons_of_mem _ hf)) hrest
      exact ⟨.cons hsame hall, hxy⟩

theorem normalizedParameters_congr {parameters parameters' : List DeclaredParameter}
    (h : List.Forall₂ (SameFormal json) parameters parameters') :
    normalizedParameters json parameters = normalizedParameters json parameters' := by
  induction h with
  | nil => rfl
  | @cons parameter parameter' parameters parameters' hsame _ ih =>
    rw [normalizedParameters, normalizedParameters, hsame.constraint, ih]
    obtain ⟨name, form, supplied, evaluation, constraint⟩ := parameter
    obtain ⟨name', form', supplied', evaluation', constraint'⟩ := parameter'
    obtain ⟨rfl, rfl, rfl, rfl, -⟩ := hsame
    rfl

/-- The normalized formals: alike but for the constraints, which are normalized and spelled as
before. -/
structure NormalizedFormal (json : JsonStrings) (formal : SpelledFormal)
    (normal : DeclaredParameter) : Prop where
  kept : normal = { formal.1 with constraint := normal.constraint }
  normalized : normalizedConstraint json formal.1.constraint = .ok normal.constraint
  idempotent : normalizedConstraint json normal.constraint = .ok normal.constraint
  spelled : constraintText json normal.constraint = .ok formal.2

theorem normalizedParameters_spec {formals : List SpelledFormal} (hspelled : AllSpelled json formals) :
    ∃ normals, normalizedParameters json (formals.map (·.1)) = .ok normals ∧
      List.Forall₂ (NormalizedFormal json) formals normals := by
  induction formals with
  | nil => exact ⟨[], rfl, .nil⟩
  | cons formal formals ih =>
    obtain ⟨normals, hnormals, hall⟩ := ih fun f hf => hspelled f (List.mem_cons_of_mem _ hf)
    obtain ⟨constraint, hnormal, hself, htext⟩ :=
      constraintText_normal (hspelled formal List.mem_cons_self)
    refine ⟨{ formal.1 with constraint } :: normals, ?_, .cons ⟨rfl, hnormal, hself, htext⟩ hall⟩
    rw [List.map_cons, normalizedParameters, hnormal]
    dsimp only
    rw [hnormals]

theorem normalizedParameters_self {formals : List SpelledFormal} {normals : List DeclaredParameter}
    (h : List.Forall₂ (NormalizedFormal json) formals normals) :
    normalizedParameters json normals = .ok normals := by
  induction h with
  | nil => rfl
  | @cons formal normal formals normals hnormal _ ih =>
    rw [normalizedParameters, hnormal.idempotent]
    dsimp only
    rw [ih]

/-- Normalized formals are spelled as before. -/
theorem normalizedFormals_spelled {formals : List SpelledFormal} {normals : List DeclaredParameter}
    (h : List.Forall₂ (NormalizedFormal json) formals normals) :
    ∃ spelled : List SpelledFormal, spelled.map (·.1) = normals ∧ AllSpelled json spelled ∧
      ∀ first, formalsText json spelled first = formalsText json formals first := by
  induction h with
  | nil => exact ⟨[], rfl, fun _ h => absurd h List.not_mem_nil, fun _ => rfl⟩
  | @cons formal normal formals normals hnormal _ ih =>
    obtain ⟨spelled, hmap, hspelled, htext⟩ := ih
    obtain ⟨parameter, constraint⟩ := formal
    refine ⟨(normal, constraint) :: spelled, congrArg _ hmap, fun f hf => ?_, fun first => ?_⟩
    · rcases List.mem_cons.mp hf with rfl | hf
      · exact hnormal.spelled
      · exact hspelled f hf
    · have hformal : formalText json normal = formalText json parameter := by
        rw [hnormal.kept]
        rfl
      rw [formalsText, formalsText, hformal, htext]

theorem countConstraint_normal {constraint normal : Option TypeExpr} {nodes nodes' total : Nat}
    (hcount : countConstraint constraint nodes = .ok total)
    (hnormal : normalizedConstraint json constraint = .ok normal) (hle : nodes' ≤ nodes) :
    ∃ total', total' ≤ total ∧ countConstraint normal nodes' = .ok total' := by
  cases constraint with
  | none =>
    obtain rfl := Except.ok.inj hnormal
    obtain rfl := Except.ok.inj hcount
    exact ⟨nodes', hle, rfl⟩
  | some ty =>
    rw [normalizedConstraint] at hnormal
    cases hty : normalizedType json ty with
    | error e => rw [hty] at hnormal; cases hnormal
    | ok normalTy =>
      rw [hty] at hnormal
      obtain rfl := Except.ok.inj hnormal
      exact countTypeNodes_normal hcount hty hle

theorem validateParameters_normal {formals : List SpelledFormal} {normals : List DeclaredParameter}
    (h : List.Forall₂ (NormalizedFormal json) formals normals) {seen : List String}
    {nodes nodes' total : Nat}
    (hvalid : validateParameters (formals.map (·.1)) seen nodes = .ok total) (hle : nodes' ≤ nodes) :
    ∃ total', total' ≤ total ∧ validateParameters normals seen nodes' = .ok total' := by
  induction h generalizing seen nodes nodes' with
  | nil =>
    obtain rfl := Except.ok.inj hvalid
    exact ⟨nodes', hle, rfl⟩
  | @cons formal normal formals normals hnormal _ ih =>
    rw [List.map_cons, validateParameters] at hvalid
    have hname : normal.name = formal.1.name := by rw [hnormal.kept]
    have hform : normal.form = formal.1.form := by rw [hnormal.kept]
    have hsupplied : normal.supplied = formal.1.supplied := by rw [hnormal.kept]
    rw [validateParameters, hname, hform, hsupplied]
    split at hvalid
    · cases hvalid
    · rename_i hshort
      rw [if_neg hshort]
      split at hvalid
      · cases hvalid
      · rename_i hidentity
        rw [if_neg hidentity]
        split at hvalid
        · cases hvalid
        · rename_i hstatus
          rw [if_neg hstatus]
          split at hvalid
          · cases hvalid
          · rename_i counted hcounted
            obtain ⟨counted', hle', hcounted'⟩ :=
              countConstraint_normal hcounted hnormal.normalized hle
            rw [hcounted']
            exact ih hvalid hle'

/-- The text of a signature from its parts. -/
def signatureText (json : JsonStrings) (assignment : AssignmentSemantics)
    (formals : List SpelledFormal) (result : List Char) : List Char :=
  "fn[".toList ++ (assignment.name.toList ++ ']' :: ['(']) ++ formalsText json formals true ++
    (") -> ".toList ++ result)

/-- A spelled signature in parts. -/
structure SpelledSignature (json : JsonStrings) (signature : DeclaredSignature)
    (formals : List SpelledFormal) (result : List Char) : Prop where
  parameters_eq : formals.map (·.1) = signature.parameters
  formals_spelled : AllSpelled json formals
  result_spelled : constraintText json signature.returnConstraint = .ok result
  bounded : byteLen (signatureText json signature.assignment formals result) ≤ maxDeclarationBytes

theorem canonical_spec {signature : DeclaredSignature} {text : List Char}
    (h : signature.canonical json = .ok text) :
    ∃ total formals result, signature.validate = .ok total ∧
      SpelledSignature json signature formals result ∧
      text = signatureText json signature.assignment formals result := by
  rw [DeclaredSignature.canonical] at h
  split at h
  · cases h
  · rename_i total hvalid
    split at h
    · cases h
    · rename_i spelled hspelled
      split at h
      · cases h
      · rename_i result hresult
        dsimp only at h
        split at h
        · cases h
        · rename_i hshort
          obtain ⟨formals, hmap, hall, rfl⟩ := spellParameters_spec hspelled
          obtain rfl := Except.ok.inj h
          exact ⟨total, formals, result, hvalid,
            ⟨hmap, hall, hresult, Nat.le_of_not_lt hshort⟩, rfl⟩

theorem canonical_of_spelled {signature : DeclaredSignature} {total : Nat}
    {formals : List SpelledFormal} {result : List Char} (hvalid : signature.validate = .ok total)
    (h : SpelledSignature json signature formals result) :
    signature.canonical json = .ok (signatureText json signature.assignment formals result) := by
  have hbound := h.bounded
  rw [signatureText, byteLen_append] at hbound
  have hparameters := @spellParameters_of_bounded json formals h.formals_spelled
    ("fn[".toList ++ (signature.assignment.name.toList ++ ']' :: ['('])) true (by omega)
  rw [DeclaredSignature.canonical, hvalid, ← h.parameters_eq]
  dsimp only
  rw [hparameters]
  dsimp only
  rw [h.result_spelled]
  dsimp only
  rw [← signatureText, if_neg (Nat.not_lt.mpr h.bounded)]

theorem validate_normal {signature : DeclaredSignature} {formals : List SpelledFormal}
    {normals : List DeclaredParameter} {result : Option TypeExpr} {total : Nat}
    (hparameters : formals.map (·.1) = signature.parameters)
    (hnormals : List.Forall₂ (NormalizedFormal json) formals normals)
    (hresult : normalizedConstraint json signature.returnConstraint = .ok result)
    (hvalid : signature.validate = .ok total) :
    ∃ total', DeclaredSignature.validate
      { signature with parameters := normals, returnConstraint := result } = .ok total' := by
  rw [DeclaredSignature.validate] at hvalid
  split at hvalid
  · cases hvalid
  · rename_i hfew
    split at hvalid
    · cases hvalid
    · rename_i counted hcounted
      obtain ⟨counted', hle, hcounted'⟩ :=
        validateParameters_normal hnormals (hparameters ▸ hcounted) (Nat.le_refl 0)
      obtain ⟨total', -, htotal'⟩ := countConstraint_normal hvalid hresult hle
      refine ⟨total', ?_⟩
      have hlength : normals.length = signature.parameters.length := by
        rw [← hparameters, List.length_map, hnormals.length_eq]
      rw [DeclaredSignature.validate]
      dsimp only
      rw [hlength, if_neg hfew, hcounted']
      exact htotal'

/-- A canonical signature normalizes, to a signature with its text that normalizes to itself. -/
theorem normalized_spec {signature : DeclaredSignature} {text : List Char}
    (h : signature.canonical json = .ok text) :
    ∃ normal, signature.normalized json = .ok normal ∧ normal.canonical json = .ok text ∧
      normal.normalized json = .ok normal ∧ normal.assignment = signature.assignment := by
  obtain ⟨total, formals, result, hvalid, hspelled, rfl⟩ := canonical_spec h
  obtain ⟨normals, hnormals, hall⟩ := normalizedParameters_spec hspelled.formals_spelled
  obtain ⟨normalResult, hresult, hself, htext⟩ := constraintText_normal hspelled.result_spelled
  obtain ⟨spelled, hmap, hspelled', hsame⟩ := normalizedFormals_spelled hall
  obtain ⟨total', hvalid'⟩ := validate_normal hspelled.parameters_eq hall hresult hvalid
  have hcanonical : DeclaredSignature.canonical json
      { signature with parameters := normals, returnConstraint := normalResult } =
        .ok (signatureText json signature.assignment formals result) := by
    have hagain : signatureText json signature.assignment spelled result =
        signatureText json signature.assignment formals result := by
      rw [signatureText, hsame]
      rfl
    rw [← hagain]
    exact canonical_of_spelled hvalid' ⟨hmap, hspelled', htext, hagain ▸ hspelled.bounded⟩
  refine ⟨{ signature with parameters := normals, returnConstraint := normalResult }, ?_,
    hcanonical, ?_, rfl⟩
  · rw [DeclaredSignature.normalized, h]
    dsimp only
    rw [← hspelled.parameters_eq, hnormals]
    dsimp only
    rw [hresult]
  · rw [DeclaredSignature.normalized, hcanonical]
    dsimp only
    rw [normalizedParameters_self hall]
    dsimp only
    rw [hself]

theorem spelled_valid {signature : DeclaredSignature} {total : Nat} {formals : List SpelledFormal}
    {result : List Char} (hvalid : signature.validate = .ok total)
    (h : SpelledSignature json signature formals result) :
    ∀ formal ∈ formals, ValidFormal formal.1 := fun formal hformal =>
  signature.valid_of_validate hvalid formal.1 (h.parameters_eq ▸ List.mem_map_of_mem hformal)

/-- Signatures with alike formals and result normalize alike. -/
theorem normalized_congr {signature signature' : DeclaredSignature} {text text' : List Char}
    (h : signature.canonical json = .ok text) (h' : signature'.canonical json = .ok text')
    (hparameters : List.Forall₂ (SameFormal json) signature.parameters signature'.parameters)
    (hresult : normalizedConstraint json signature.returnConstraint =
      normalizedConstraint json signature'.returnConstraint)
    (hassignment : signature.assignment = signature'.assignment) :
    signature.normalized json = signature'.normalized json := by
  obtain ⟨parameters, result, assignment⟩ := signature
  obtain ⟨parameters', result', assignment'⟩ := signature'
  obtain rfl : assignment = assignment' := hassignment
  rw [DeclaredSignature.normalized, DeclaredSignature.normalized, h, h']
  dsimp only
  rw [normalizedParameters_congr hparameters]
  dsimp only at hresult
  rw [hresult]

/-- Signatures with one text normalize alike. -/
theorem normalized_eq_of_canonical {signature signature' : DeclaredSignature} {text : List Char}
    (h : signature.canonical json = .ok text) (h' : signature'.canonical json = .ok text) :
    signature.normalized json = signature'.normalized json := by
  obtain ⟨total, formals, result, hvalid, hspelled, htext⟩ := canonical_spec h
  obtain ⟨total', formals', result', hvalid', hspelled', htext'⟩ := canonical_spec h'
  have hsame := htext.symm.trans htext'
  simp only [signatureText, List.append_assoc, List.cons_append, List.nil_append] at hsame
  obtain ⟨hassignment, hsame⟩ := append_inj_of_separator
    (bracket_not_mem_name signature.assignment) (bracket_not_mem_name signature'.assignment)
    (List.append_cancel_left hsame)
  obtain ⟨hparameters, hresults⟩ := formalsText_append_inj
    (spelled_valid hvalid hspelled) (spelled_valid hvalid' hspelled') hspelled.formals_spelled
    hspelled'.formals_spelled (List.cons.inj hsame).2
  rw [hspelled.parameters_eq, hspelled'.parameters_eq] at hparameters
  have harrow : result ++ [] = result' ++ [] := by
    rw [List.append_nil, List.append_nil]
    exact @List.append_cancel_left _ " -> ".toList _ _ hresults
  have hresult := (constraintText_append_inj hspelled.result_spelled hspelled'.result_spelled closes_nil closes_nil
    harrow).1
  exact normalized_congr h h' hparameters hresult
    (AssignmentSemantics.name_injective (String.toList_inj.mp hassignment))

end Canonical

end Ry.Declared
