import Ry.Declared.Canonical

/-! # The contract selected for a function

`decide_target` selects a contract when every adopted record is exact and may be checked at
entry, and all have one canonical text.  What it selects is the normalized form of that text, so
the order of the records does not matter.
-/

namespace Ry.Declared

section Selected

variable {json : JsonStrings}

/-! ## Rearranged alternatives -/

/-- One constraint with its alternatives in another order, repeated, or nested otherwise. -/
def SameAlternatives : Option TypeExpr → Option TypeExpr → Prop
  | none, none => True
  | some ty, some ty' => ∀ part, part ∈ leaves ty ↔ part ∈ leaves ty'
  | _, _ => False

structure RearrangedFormal (parameter parameter' : DeclaredParameter) : Prop where
  name : parameter.name = parameter'.name
  form : parameter.form = parameter'.form
  supplied : parameter.supplied = parameter'.supplied
  evaluation : parameter.evaluation = parameter'.evaluation
  constraint : SameAlternatives parameter.constraint parameter'.constraint

structure Rearranged (signature signature' : DeclaredSignature) : Prop where
  parameters : List.Forall₂ RearrangedFormal signature.parameters signature'.parameters
  result : SameAlternatives signature.returnConstraint signature'.returnConstraint
  assignment : signature.assignment = signature'.assignment

theorem normalizedConstraint_of_sameAlternatives {constraint constraint' : Option TypeExpr}
    {text text' : List Char} (h : constraintText json constraint = .ok text)
    (h' : constraintText json constraint' = .ok text')
    (hsame : SameAlternatives constraint constraint') :
    normalizedConstraint json constraint = normalizedConstraint json constraint' := by
  cases constraint with
  | none =>
    cases constraint' with
    | none => rfl
    | some ty' => exact hsame.elim
  | some ty =>
    cases constraint' with
    | none => exact hsame.elim
    | some ty' =>
      obtain ⟨normal, hnormal, -⟩ := canonicalType_normal h
      obtain ⟨normal', hnormal', -⟩ := canonicalType_normal h'
      rw [normalizedConstraint, normalizedConstraint, hnormal, hnormal',
        normalizedType_eq_of_leaves hnormal hnormal' hsame]

theorem sameFormal_of_rearranged {formals formals' : List SpelledFormal}
    (hspelled : AllSpelled json formals) (hspelled' : AllSpelled json formals')
    (h : List.Forall₂ RearrangedFormal (formals.map (·.1)) (formals'.map (·.1))) :
    List.Forall₂ (SameFormal json) (formals.map (·.1)) (formals'.map (·.1)) := by
  induction formals generalizing formals' with
  | nil =>
    cases formals' with
    | nil => exact .nil
    | cons formal' formals' => cases h
  | cons formal formals ih =>
    cases formals' with
    | nil => cases h
    | cons formal' formals' =>
      rw [List.map_cons, List.map_cons, List.forall₂_cons] at h
      obtain ⟨hformal, hrest⟩ := h
      have hconstraint := normalizedConstraint_of_sameAlternatives
        (hspelled formal List.mem_cons_self) (hspelled' formal' List.mem_cons_self)
        hformal.constraint
      exact .cons ⟨hformal.name, hformal.form, hformal.supplied, hformal.evaluation, hconstraint⟩
        (ih (fun f hf => hspelled f (List.mem_cons_of_mem _ hf))
          (fun f hf => hspelled' f (List.mem_cons_of_mem _ hf)) hrest)

theorem Rearranged.normalized_eq {signature signature' : DeclaredSignature}
    {text text' : List Char} (hsame : Rearranged signature signature')
    (h : signature.canonical json = .ok text) (h' : signature'.canonical json = .ok text') :
    signature.normalized json = signature'.normalized json := by
  obtain ⟨total, formals, result, -, hspelled, -⟩ := canonical_spec h
  obtain ⟨total', formals', result', -, hspelled', -⟩ := canonical_spec h'
  have hparameters := hsame.parameters
  rw [← hspelled.parameters_eq, ← hspelled'.parameters_eq] at hparameters
  have hformals := sameFormal_of_rearranged hspelled.formals_spelled hspelled'.formals_spelled
    hparameters
  rw [hspelled.parameters_eq, hspelled'.parameters_eq] at hformals
  exact normalized_congr h h' hformals
    (normalizedConstraint_of_sameAlternatives hspelled.result_spelled hspelled'.result_spelled
      hsame.result) hsame.assignment

/-- Signatures that normalize to one signature have one text. -/
theorem canonical_eq_of_normalized {signature signature' : DeclaredSignature}
    {text text' : List Char} (h : signature.canonical json = .ok text)
    (h' : signature'.canonical json = .ok text')
    (hsame : signature.normalized json = signature'.normalized json) : text = text' := by
  obtain ⟨normal, hnormal, hcanonical, -⟩ := normalized_spec h
  obtain ⟨normal', hnormal', hcanonical', -⟩ := normalized_spec h'
  have heq := Except.ok.inj (hnormal.symm.trans (hsame.trans hnormal'))
  rw [heq, hcanonical'] at hcanonical
  exact (Except.ok.inj hcanonical).symm

/-! ## Records -/

/-- A record that may be selected: adopted, exact, entry-only and evaluable. -/
structure Selectable (json : JsonStrings) (record : DeclarationRecord) (text : List Char)
    (signature : DeclaredSignature) : Prop where
  exact : record.translation = .exact signature
  canonical : signature.canonical json = .ok text
  entryOnly : signature.assignment = .entryOnly
  evaluable : signature.evaluable = true

theorem selectable_of_outcome {record : DeclarationRecord} {text : List Char}
    {signature : DeclaredSignature} (h : recordOutcome json record = .exact text signature) :
    Selectable json record text signature := by
  rw [recordOutcome] at h
  split at h
  · cases h
  · dsimp only at h
    split at h
    · rename_i authored htranslation
      split at h
      · rename_i canonical hcanonical
        split at h
        · rename_i hentry
          split at h
          · rename_i hevaluable
            obtain ⟨rfl, rfl⟩ := RecordOutcome.exact.inj h
            exact ⟨htranslation, hcanonical, hentry, hevaluable⟩
          · cases h
        · cases h
      · cases h
    all_goals cases h

theorem not_adopted_of_skipped {record : DeclarationRecord}
    (h : recordOutcome json record = .skipped) : record.evidence ≠ .adoptedContract := by
  rw [recordOutcome] at h
  split at h
  · assumption
  · dsimp only at h
    repeat' split at h
    all_goals cases h

/-- What a target's records select, in no particular order. -/
def Selects (json : JsonStrings) (records : List DeclarationRecord) (normal : DeclaredSignature) :
    Prop :=
  (∀ record ∈ records, ∀ kind message, recordOutcome json record ≠ .reported kind message) ∧
    ∃ text, (∃ record ∈ records, ∃ signature, recordOutcome json record = .exact text signature) ∧
      ∀ record ∈ records, ∀ text' signature, recordOutcome json record = .exact text' signature →
        text' = text ∧ signature.normalized json = .ok normal

/-- What gathering the records keeps: one entry for each canonical text, with its normalized form,
and a report for each record that is refused. -/
structure Gathered (json : JsonStrings) (records : List DeclarationRecord)
    (exact : List (List Char × DeclaredSignature)) (reports : List (FindingKind × String)) :
    Prop where
  distinct : (exact.map (·.1)).Nodup
  entries : ∀ entry ∈ exact, ∃ record ∈ records, ∃ signature,
    recordOutcome json record = .exact entry.1 signature ∧
      signature.normalized json = .ok entry.2
  complete : ∀ record ∈ records, ∀ text signature,
    recordOutcome json record = .exact text signature → text ∈ exact.map (·.1)
  silent : reports = [] ↔
    ∀ record ∈ records, ∀ kind message, recordOutcome json record ≠ .reported kind message

theorem gathered_nil : Gathered json [] [] [] :=
  ⟨List.nodup_nil, fun _ h => absurd h List.not_mem_nil, fun _ h => absurd h List.not_mem_nil,
    fun _ _ h => absurd h List.not_mem_nil, fun _ => rfl⟩

section Step

variable {seen : List DeclarationRecord} {exact : List (List Char × DeclaredSignature)}
  {reports : List (FindingKind × String)} {record : DeclarationRecord}

theorem forall_mem_snoc {P : DeclarationRecord → Prop} (h : ∀ other ∈ seen, P other)
    (hrecord : P record) : ∀ other ∈ seen ++ [record], P other := by
  intro other hother
  rcases List.mem_append.mp hother with hold | hnew
  · exact h other hold
  · exact List.mem_singleton.mp hnew ▸ hrecord

/-- A record that is not refused leaves the reports alone. -/
theorem Gathered.silent_snoc (h : Gathered json seen exact reports)
    (haccepted : ∀ kind message, recordOutcome json record ≠ .reported kind message) :
    reports = [] ↔ ∀ other ∈ seen ++ [record], ∀ kind message,
      recordOutcome json other ≠ .reported kind message := by
  refine h.silent.trans ⟨fun hall => forall_mem_snoc hall haccepted, fun hall other hother => ?_⟩
  exact hall other (List.mem_append_left _ hother)

theorem Gathered.entries_snoc (h : Gathered json seen exact reports)
    (record : DeclarationRecord) :
    ∀ entry ∈ exact, ∃ record' ∈ seen ++ [record], ∃ signature,
      recordOutcome json record' = .exact entry.1 signature ∧
        signature.normalized json = .ok entry.2 := by
  intro entry hentry
  obtain ⟨other, hother, rest⟩ := h.entries entry hentry
  exact ⟨other, List.mem_append_left _ hother, rest⟩

/-- A record that is neither refused nor new. -/
theorem Gathered.pass (h : Gathered json seen exact reports)
    (haccepted : ∀ kind message, recordOutcome json record ≠ .reported kind message)
    (hknown : ∀ text signature, recordOutcome json record = .exact text signature →
      text ∈ exact.map (·.1)) : Gathered json (seen ++ [record]) exact reports :=
  ⟨h.distinct, h.entries_snoc record, forall_mem_snoc h.complete hknown, h.silent_snoc haccepted⟩

/-- A refused record. -/
theorem Gathered.report (h : Gathered json seen exact reports) {kind : FindingKind}
    {message : String} (hrefused : recordOutcome json record = .reported kind message) :
    Gathered json (seen ++ [record]) exact (reports ++ [(kind, message)]) := by
  refine ⟨h.distinct, h.entries_snoc record, forall_mem_snoc h.complete ?_, ?_⟩
  · intro text signature hexact
    rw [hrefused] at hexact
    cases hexact
  · refine ⟨fun hnil => absurd hnil (by simp), fun hall => ?_⟩
    exact absurd hrefused (hall record (by simp) kind message)

/-- A record with a text of its own. -/
theorem Gathered.add (h : Gathered json seen exact reports) {text : List Char}
    {signature normal : DeclaredSignature}
    (hexact : recordOutcome json record = .exact text signature)
    (hfresh : text ∉ exact.map (·.1)) (hnormal : signature.normalized json = .ok normal) :
    Gathered json (seen ++ [record]) (exact ++ [(text, normal)]) reports := by
  have haccepted : ∀ kind message, recordOutcome json record ≠ .reported kind message := by
    intro kind message hrefused
    rw [hexact] at hrefused
    cases hrefused
  refine ⟨?_, fun entry hentry => ?_, forall_mem_snoc (fun other hother text' signature' h' => ?_)
    fun text' signature' h' => ?_, h.silent_snoc haccepted⟩
  · rw [List.map_append, List.map_singleton]
    refine List.nodup_append.mpr ⟨h.distinct, List.nodup_singleton _, fun a ha b hb heq => ?_⟩
    obtain rfl : a = text := heq.trans (List.mem_singleton.mp hb)
    exact hfresh ha
  · rcases List.mem_append.mp hentry with hold | hnew
    · exact h.entries_snoc record entry hold
    · obtain rfl := List.mem_singleton.mp hnew
      exact ⟨record, by simp, signature, hexact, hnormal⟩
  · rw [List.map_append, List.mem_append]
    exact Or.inl (h.complete other hother text' signature' h')
  · rw [hexact] at h'
    obtain ⟨rfl, rfl⟩ := RecordOutcome.exact.inj h'
    simp

end Step

/-- Gathering does not panic, and keeps what the records say. -/
theorem gatherRecords_spec {seen records : List DeclarationRecord}
    {exact : List (List Char × DeclaredSignature)} {reports : List (FindingKind × String)}
    (h : Gathered json seen exact reports) :
    ∃ exact' reports', gatherRecords json records exact reports = some (exact', reports') ∧
      Gathered json (seen ++ records) exact' reports' := by
  induction records generalizing seen exact reports with
  | nil => exact ⟨exact, reports, rfl, by rwa [List.append_nil]⟩
  | cons record records ih =>
    have hsplit : seen ++ record :: records = seen ++ [record] ++ records := by simp
    rw [hsplit, gatherRecords]
    cases houtcome : recordOutcome json record with
    | skipped => exact ih (h.pass (by simp [houtcome]) (by simp [houtcome]))
    | reported kind message => exact ih (h.report houtcome)
    | exact text signature =>
      dsimp only
      split
      · rename_i hany
        refine ih (h.pass (by simp [houtcome]) fun text' signature' hexact => ?_)
        rw [houtcome] at hexact
        obtain ⟨rfl, rfl⟩ := RecordOutcome.exact.inj hexact
        obtain ⟨entry, hentry, hkey⟩ := List.any_eq_true.mp hany
        exact List.mem_map.mpr ⟨entry, hentry, of_decide_eq_true hkey⟩
      · rename_i hnone
        obtain ⟨normal, hnormal, -⟩ := normalized_spec (selectable_of_outcome houtcome).canonical
        rw [hnormal]
        refine ih (h.add houtcome (fun hmem => ?_) hnormal)
        obtain ⟨entry, hentry, hkey⟩ := List.mem_map.mp hmem
        exact hnone (List.any_eq_true.mpr ⟨entry, hentry, decide_eq_true hkey⟩)

/-- The decision, in terms of the records as a set. -/
theorem decideTarget_spec (span : Span) (records : List DeclarationRecord) :
    ∃ decision, decideTarget json span records = some decision ∧
      ∀ normal, decision.signature = some normal ↔ Selects json records normal := by
  obtain ⟨exact, reports, hgather, h⟩ := @gatherRecords_spec json [] records [] [] gathered_nil
  rw [List.nil_append] at h
  rw [decideTarget, hgather]
  refine ⟨_, rfl, fun normal => ?_⟩
  dsimp only
  constructor
  · intro hselected
    split at hselected
    · cases hselected
    · rename_i hopen
      obtain ⟨hsilent, hone⟩ := not_or.mp hopen
      have hreports : reports = [] := by simpa using hsilent
      obtain ⟨entry, rfl⟩ := List.length_eq_one_iff.mp (not_not.mp hone)
      obtain rfl : entry.2 = normal := Option.some.inj hselected
      obtain ⟨record, hrecord, signature, houtcome, hnormal⟩ :=
        h.entries entry (List.mem_singleton_self entry)
      refine ⟨h.silent.mp hreports, entry.1, ⟨record, hrecord, signature, houtcome⟩, ?_⟩
      intro other hother text other' houtcome'
      have hkey := h.complete other hother text other' houtcome'
      rw [List.map_singleton, List.mem_singleton] at hkey
      subst hkey
      refine ⟨rfl, ?_⟩
      rw [← hnormal]
      exact normalized_eq_of_canonical (selectable_of_outcome houtcome').canonical
        (selectable_of_outcome houtcome).canonical
  · rintro ⟨hsilent, text, ⟨record, hrecord, signature, houtcome⟩, hall⟩
    have hreports : reports = [] := h.silent.mpr hsilent
    have hkeys : ∀ key ∈ exact.map (·.1), key = text := by
      intro key hkey
      obtain ⟨entry, hentry, rfl⟩ := List.mem_map.mp hkey
      obtain ⟨other, hother, signature', houtcome', -⟩ := h.entries entry hentry
      exact (hall other hother _ _ houtcome').1
    have hkey := h.complete record hrecord text signature houtcome
    have hentries : exact.map (·.1) = [text] := by
      have hdistinct := h.distinct
      generalize exact.map (·.1) = keys at hkeys hkey hdistinct
      match keys with
      | [] => exact absurd hkey List.not_mem_nil
      | [key] => rw [hkeys key (by simp)]
      | first :: second :: rest =>
        have hne := (List.nodup_cons.mp hdistinct).1
        rw [hkeys first (by simp), hkeys second (by simp)] at hne
        exact absurd List.mem_cons_self hne
    obtain ⟨entry, hentry, hfst⟩ : ∃ entry, exact = [entry] ∧ entry.1 = text := by
      match exact, hentries with
      | [entry], hone => exact ⟨entry, rfl, (List.cons.inj hone).1⟩
    subst hentry
    obtain ⟨other, hother, signature', houtcome', hnormal'⟩ :=
      h.entries entry (List.mem_singleton_self entry)
    have hsame := (hall other hother _ _ houtcome').2
    rw [if_neg (by simp [hreports])]
    exact congrArg some (Except.ok.inj (hnormal'.symm.trans hsame))

/-- Canonical text is a complete invariant of normalized form, and a selected contract is one
that every adopted record spells. -/
theorem canonical_complete (json : JsonStrings) :
    (∀ (signature signature' : DeclaredSignature) (text text' : List Char),
      signature.canonical json = .ok text → signature'.canonical json = .ok text' →
      (text = text' ↔ signature.normalized json = signature'.normalized json)) ∧
    (∀ signature normal : DeclaredSignature, signature.normalized json = .ok normal →
      normal.normalized json = .ok normal) ∧
    (∀ (signature signature' : DeclaredSignature) (text text' : List Char),
      Rearranged signature signature' → signature.canonical json = .ok text →
      signature'.canonical json = .ok text' →
      text = text' ∧ signature.normalized json = signature'.normalized json) ∧
    (∀ (signature : DeclaredSignature) (text : List Char), signature.canonical json = .ok text →
      ∃ normal, signature.normalized json = .ok normal) ∧
    (∀ (span span' : Span) (records records' : List DeclarationRecord), records.Perm records' →
      ∃ decision decision', decideTarget json span records = some decision ∧
        decideTarget json span' records' = some decision' ∧
        decision.signature = decision'.signature) ∧
    (∀ (span : Span) (records : List DeclarationRecord) (decision : TargetDecision)
      (selected : DeclaredSignature), decideTarget json span records = some decision →
      decision.signature = some selected →
      ∃ text, selected.canonical json = .ok text ∧
        ∀ record ∈ records, record.evidence = .adoptedContract →
          ∃ signature, Selectable json record text signature) := by
  refine ⟨?_, ?_, ?_, ?_, ?_, ?_⟩
  · intro signature signature' text text' h h'
    constructor
    · rintro rfl
      exact normalized_eq_of_canonical h h'
    · exact canonical_eq_of_normalized h h'
  · intro signature normal hnormal
    cases hcanonical : signature.canonical json with
    | error e =>
      rw [DeclaredSignature.normalized, hcanonical] at hnormal
      cases hnormal
    | ok text =>
      obtain ⟨normal', hnormal', -, hself, -⟩ := normalized_spec hcanonical
      obtain rfl := Except.ok.inj (hnormal'.symm.trans hnormal)
      exact hself
  · intro signature signature' text text' hsame h h'
    have hnormal := hsame.normalized_eq h h'
    exact ⟨canonical_eq_of_normalized h h' hnormal, hnormal⟩
  · intro signature text h
    obtain ⟨normal, hnormal, -⟩ := normalized_spec h
    exact ⟨normal, hnormal⟩
  · intro span span' records records' hperm
    obtain ⟨decision, hdecision, hselects⟩ := @decideTarget_spec json span records
    obtain ⟨decision', hdecision', hselects'⟩ := @decideTarget_spec json span' records'
    refine ⟨decision, decision', hdecision, hdecision', Option.ext fun normal => ?_⟩
    rw [hselects, hselects', Selects, Selects]
    simp only [hperm.mem_iff]
  · intro span records decision selected hdecision hselected
    obtain ⟨decision', hdecision', hselects⟩ := @decideTarget_spec json span records
    obtain rfl := Option.some.inj (hdecision'.symm.trans hdecision)
    obtain ⟨hsilent, text, ⟨record, hrecord, signature, houtcome⟩, hall⟩ :=
      (hselects selected).mp hselected
    obtain ⟨normal, hnormal, hcanonical, -⟩ :=
      normalized_spec (selectable_of_outcome houtcome).canonical
    obtain rfl := Except.ok.inj (hnormal.symm.trans (hall record hrecord _ _ houtcome).2)
    refine ⟨text, hcanonical, fun other hother hadopted => ?_⟩
    cases houtcome' : recordOutcome json other with
    | skipped => exact absurd hadopted (not_adopted_of_skipped houtcome')
    | reported kind message => exact absurd houtcome' (hsilent other hother kind message)
    | exact text' signature' =>
      obtain ⟨rfl, -⟩ := hall other hother _ _ houtcome'
      exact ⟨signature', selectable_of_outcome houtcome'⟩

end Selected

/-- One formal `x`, declared a single integer. -/
def integerSignature : DeclaredSignature :=
  ⟨[⟨"x", .ordinary, .required, .value, some (.atomic .integer (some (.exact 1)))⟩], none,
    .entryOnly⟩

theorem canonical_complete_integerSignature :
    ∃ normal, integerSignature.normalized jsonStrings = .ok normal :=
  (canonical_complete jsonStrings).2.2.2.1 integerSignature
    "fn[entry_only](required/value \"x\": integer<len=1>) -> none".toList (by decide +kernel)

end Ry.Declared
