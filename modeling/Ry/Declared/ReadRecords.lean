import Ry.Declared.Attached

/-! # The records of a file

The reader on a whole file: every function has the records that its attached comments make, and no
other.
-/

namespace Ry.Typehint

open Declared Lexical

/-! ## The loop over the comments -/

section Sweep

variable {file : ParsedFile}

theorem commentAt_of_started (h : file.parseErrors = []) {entry : Nat × Comment}
    (hentry : entry ∈ startedComments file.toSourceFile) :
    CommentAt file.source file.root entry.2 entry.1 := by
  rw [startedComments, List.mem_mergeSort, List.mem_filterMap] at hentry
  obtain ⟨comment, hcomment, hstart⟩ := hentry
  obtain ⟨line, hline, rfl⟩ := Option.map_eq_some_iff.mp hstart
  obtain ⟨start, hat⟩ := (file.tree h).commentAt (file.comments_eq ▸ hcomment)
  obtain ⟨line', hline', hsum⟩ := hat.line
  obtain rfl : line = line' := Option.some.inj (hline.symm.trans hline')
  dsimp only
  rw [hsum]
  exact hat

/-- Every comment of the file is there, at its place. -/
theorem exists_started (h : file.parseErrors = []) {comment : Comment}
    (hcomment : comment ∈ file.comments) : ∃ start,
      (start, comment) ∈ startedComments file.toSourceFile ∧
        CommentAt file.source file.root comment start := by
  obtain ⟨start, hat⟩ := (file.tree h).commentAt (file.comments_eq ▸ hcomment)
  obtain ⟨line, hline, hsum⟩ := hat.line
  refine ⟨start, ?_, hat⟩
  rw [startedComments, List.mem_mergeSort, List.mem_filterMap]
  exact ⟨comment, hcomment, by rw [hline, ← hsum]; rfl⟩

theorem started_sorted (file : SourceFile) :
    (startedComments file).Pairwise fun c d => c.1 ≤ d.1 := by
  have hsorted := @List.pairwise_mergeSort _ (fun c d : Nat × Comment => decide (c.1 ≤ d.1))
    (fun a b c hab hbc => by simp at hab hbc ⊢; omega) (fun a b => by simp; omega)
    (file.comments.filterMap fun comment =>
      (lineStarts file.source)[comment.line]?.map fun line => (line + comment.col, comment))
  exact hsorted.imp of_decide_eq_true

/-- What a comment adds to the groups. -/
def contribution (file : SourceFile) (named : Table Key NamedFunction) (entry : Nat × Comment) :
    Option (Key × Clause) :=
  (readComment file.source named (Sweep.innermost? (·.function.start) (·.function.stop)
    file.functionBodies entry.1) entry.1 entry.2).join

/-- The stack gives every comment its innermost function, and the loop puts the clauses into their
groups. -/
theorem sweepComments_eq (h : file.parseErrors = []) (named : Table Key NamedFunction)
    {comments : List (Nat × Comment)} {rest stack : List FunctionBody} {pos : Nat}
    (hswept : Sweep.Swept (·.function.start) (·.function.stop) file.functionBodies pos rest stack)
    (hstarts : ∀ entry ∈ comments, pos ≤ entry.1)
    (hsorted : comments.Pairwise fun c d => c.1 ≤ d.1)
    (hat : ∀ entry ∈ comments, CommentAt file.source file.root entry.2 entry.1)
    (groups : List (Key × List Clause)) :
    sweepComments file.source named comments (rest, stack) groups =
      some ((comments.filterMap (contribution file.toSourceFile named)).foldl
        (fun groups pair => updateGroup pair.1 (pushClause · pair.2) groups) groups) := by
  have hlaminar : Sweep.Laminar (·.function.start) (·.function.stop) file.functionBodies :=
    file.functions_eq ▸ (file.tree h).laminar
  induction comments generalizing rest stack pos groups with
  | nil => rfl
  | cons entry comments ih =>
    obtain ⟨start, comment⟩ := entry
    obtain ⟨hstart, -⟩ := List.forall_mem_cons.mp hstarts
    obtain ⟨hfirst, hsorted⟩ := List.pairwise_cons.mp hsorted
    obtain ⟨hplace, hat⟩ := List.forall_mem_cons.mp hat
    obtain ⟨found, hfound, -⟩ := readComment_spec h hplace named
    have hcontribution : contribution file.toSourceFile named (start, comment) = found := by
      rw [contribution, hfound]
      rfl
    have hnext := ih (hswept.advance hlaminar hstart) hfirst hsorted hat
    rw [sweepComments, hswept.head?_advance hlaminar hstart, hfound, List.filterMap_cons,
      hcontribution]
    cases found with
    | none => exact hnext groups
    | some pair => exact hnext _

end Sweep

/-! ## The clauses of a function -/

open Classical in
/-- The comments attached to a function, in order. -/
noncomputable def attachedEntries (file : ParsedFile) (function : FunctionBody) :
    List (Nat × Comment) :=
  (startedComments file.toSourceFile).filter fun entry => AttachedTo file function entry

open Classical in
theorem mem_attachedEntries {file : ParsedFile} {function : FunctionBody} {entry : Nat × Comment} :
    entry ∈ attachedEntries file function ↔
      entry ∈ startedComments file.toSourceFile ∧ AttachedTo file function entry := by
  rw [attachedEntries, List.mem_filter, decide_eq_true_iff]

noncomputable def clausesOf (file : ParsedFile) (function : FunctionBody) : List Clause :=
  (attachedEntries file function).map (clauseAt file.source)

/-- Clauses that stand in the source one after the other. -/
structure Located (source : List Char) (clauses : List Clause) : Prop where
  text : ∀ clause ∈ clauses, ∃ raw, slice source clause.span.start clause.span.stop = some raw ∧
    byteLen raw ≤ maxAnnotationBytes
  sorted : clauses.Pairwise fun c d => c.span.start ≤ d.span.start
  spoken : ∀ clause ∈ clauses, clause.Spoken
  residual : ∀ span argument cls rest, .claim span argument cls (some rest) ∈ clauses →
    ResidualAt source rest

theorem clauseAt_span (source : List Char) (entry : Nat × Comment) :
    (clauseAt source entry).span =
      ⟨entry.1, cutEnd source entry.1 entry.2, entry.2.line, entry.2.col⟩ :=
  clauseOf_span _ _ _

/-- The residual of an attached comment is the text at its span. -/
theorem clauseAt_residual {file : ParsedFile} {entry : Nat × Comment}
    (hat : CommentAt file.source file.root entry.2 entry.1)
    (hbar : ∃ afterPipe, entry.2.body = '|' :: afterPipe ∧ isCellOption afterPipe = false)
    {span : Span} {argument : String} {cls : Option String} {rest : ResidualConstraint}
    (h : clauseAt file.source entry = .claim span argument cls (some rest)) :
    ResidualAt file.source rest := by
  obtain ⟨hstart, hfull, -, raw, hraw⟩ := cutEnd_spec hat
  obtain ⟨afterPipe, hbody, -⟩ := hbar
  rw [clauseAt, hraw] at h
  refine clauseOf_residual hraw (fun hwhole => ?_) h
  -- a text that is not cut begins with `#|`
  have hcut : cutEnd file.source entry.1 entry.2 = entry.1 + (1 + byteLen entry.2.body) :=
    Nat.le_antisymm hfull (Nat.le_of_not_lt hwhole)
  rw [hcut] at hraw
  obtain rfl : raw = '#' :: entry.2.body := Option.some.inj (hraw.symm.trans hat.text)
  rw [hbody]
  exact isCharBoundary_append ['#', '|'] afterPipe

theorem located_clausesOf {file : ParsedFile} (h : file.parseErrors = [])
    (function : FunctionBody) : Located file.source (clausesOf file function) := by
  have hentry : ∀ entry ∈ attachedEntries file function,
      AttachedTo file function entry ∧ CommentAt file.source file.root entry.2 entry.1 := by
    intro entry hmem
    obtain ⟨hstarted, hattached⟩ := mem_attachedEntries.mp hmem
    exact ⟨hattached, commentAt_of_started h hstarted⟩
  refine ⟨fun clause hclause => ?_, ?_, fun clause hclause => ?_, ?_⟩
  · obtain ⟨entry, hmem, rfl⟩ := List.mem_map.mp hclause
    obtain ⟨-, -, hbudget, raw, hraw⟩ := cutEnd_spec (hentry entry hmem).2
    rw [clauseAt_span]
    refine ⟨raw, hraw, ?_⟩
    have hlen := byteLen_of_slice hraw
    omega
  · rw [clausesOf, List.pairwise_map]
    refine ((started_sorted file.toSourceFile).filter _).imp fun {c d} hle => ?_
    rw [clauseAt_span, clauseAt_span]
    exact hle
  · obtain ⟨entry, -, rfl⟩ := List.mem_map.mp hclause
    exact clauseOf_spoken _ _ _
  · intro span argument cls rest hclause
    obtain ⟨entry, hmem, hclause⟩ := List.mem_map.mp hclause
    obtain ⟨hattached, hat⟩ := hentry entry hmem
    exact clauseAt_residual hat hattached.declares.bar hclause

theorem Located.take {source : List Char} {clauses : List Clause} (h : Located source clauses)
    (n : Nat) : Located source (clauses.take n) :=
  ⟨fun clause hclause => h.text clause (List.mem_of_mem_take hclause),
    h.sorted.sublist (List.take_sublist n clauses),
    fun clause hclause => h.spoken clause (List.mem_of_mem_take hclause),
    fun span argument cls rest hclause =>
      h.residual span argument cls rest (List.mem_of_mem_take hclause)⟩

/-! ## The records of a function -/

/-- More clauses than the reader keeps, or a range it does not copy. -/
def OverBudget (clauses : List Clause) : Prop :=
  maxClausesPerFunction < clauses.length ∨
    ∃ first last, clauses.head? = some first ∧ clauses.getLast? = some last ∧
      maxAnnotationBytes < last.span.stop - first.span.start

/-- The clauses of a function make one record if they agree, and one each if they do not; past a
budget the one record is an error. -/
structure FunctionRead (clauses : List Clause) (records : List SourcedRecord) : Prop where
  silent : clauses = [] → records = []
  refused : clauses ≠ [] → OverBudget clauses →
    ∃ record reason, records = [record] ∧ record.translation = .invalidSyntax reason
  together : clauses ≠ [] → ¬ OverBudget clauses → ¬ Conflicting clauses →
    ∃ record, records = [record] ∧ Represents clauses record.translation
  apart : ¬ OverBudget clauses → Conflicting clauses → List.Forall₂ (fun clause record =>
    record.source.span = clause.span ∧ Represents [clause] record.translation) clauses records

/-- What every record is: adopted, of a function, with the text at its span. -/
structure RecordAt (file : SourceFile) (key : Key) (record : SourcedRecord) : Prop where
  path : record.source.target.path = file.path
  target : functionKey record.source.target.definition = key
  raw : slice file.source record.source.span.start record.source.span.stop = some record.source.raw
  short : byteLen record.source.raw ≤ maxAnnotationBytes
  residuals : ∀ rest ∈ residualsOf record.translation, ResidualAt file.source rest
  adopted : record.evidence = .adoptedContract

section Records

variable (json : JsonStrings) {file : SourceFile} (target : NamedFunction)

/-- A group's range is in the source, and short if it is no error. -/
theorem groupExtent_spec {clauses : List Clause} (h : Located file.source clauses)
    (hne : clauses ≠ []) : ∃ extent, groupExtent clauses = some extent ∧
      (∃ raw, slice file.source extent.1.start extent.1.stop = some raw ∧
        byteLen raw ≤ maxAnnotationBytes) ∧
      (extent.2 = none ↔ ¬ OverBudget clauses) := by
  have hfirst := List.head?_eq_some_head hne
  have hlast := List.getLast?_eq_some_getLast hne
  generalize clauses.head hne = first at hfirst
  generalize clauses.getLast hne = last at hlast
  have hfirstMem := List.mem_of_head? hfirst
  have hlastMem := List.mem_of_getLast? hlast
  obtain ⟨firstRaw, hfirstRaw, hfirstShort⟩ := h.text first hfirstMem
  obtain ⟨lastRaw, hlastRaw, -⟩ := h.text last hlastMem
  have hover : OverBudget clauses ↔ maxClausesPerFunction < clauses.length ∨
      maxAnnotationBytes < last.span.stop - first.span.start := by
    refine or_congr_right ⟨?_, fun hlt => ⟨first, last, hfirst, hlast, hlt⟩⟩
    rintro ⟨first', last', hfirst', hlast', hlt⟩
    obtain rfl := Option.some.inj (hfirst.symm.trans hfirst')
    obtain rfl := Option.some.inj (hlast.symm.trans hlast')
    exact hlt
  rw [groupExtent, hfirst, hlast]
  dsimp only
  by_cases hrange : maxAnnotationBytes < last.span.stop - first.span.start
  · rw [if_pos hrange]
    exact ⟨_, rfl, ⟨firstRaw, hfirstRaw, hfirstShort⟩,
      iff_of_false (Option.some_ne_none _) (not_not.mpr (hover.mpr (.inr hrange)))⟩
  · rw [if_neg hrange]
    have horder : first.span.start ≤ last.span.start := by
      obtain ⟨rest, rfl⟩ := List.head?_eq_some_iff.mp hfirst
      rcases List.mem_cons.mp hlastMem with rfl | hmem
      · exact Nat.le_refl _
      · exact (List.pairwise_cons.mp h.sorted).1 last hmem
    have hlastLen := byteLen_of_slice hlastRaw
    obtain ⟨raw, hraw⟩ := exists_slice (by omega) (IsCharBoundary.of_slice hfirstRaw).1
      (IsCharBoundary.of_slice hlastRaw).2
    have hlen := byteLen_of_slice hraw
    refine ⟨_, rfl, ⟨raw, hraw, by omega⟩, ?_⟩
    rw [hover]
    split
    next hmany => exact iff_of_false (Option.some_ne_none _) (not_not.mpr (.inl hmany))
    next hmany => exact iff_of_true rfl (not_or.mpr ⟨hmany, hrange⟩)

theorem buildRecord_spec {span : Span} {raw : List Char}
    (hraw : slice file.source span.start span.stop = some raw)
    (hshort : byteLen raw ≤ maxAnnotationBytes) (invalid : Option String) {clauses : List Clause}
    (hresidual : ∀ span argument cls rest, .claim span argument cls (some rest) ∈ clauses →
      ResidualAt file.source rest) :
    ∃ record, buildRecord json file target span invalid clauses = some record ∧
      RecordAt file (functionKey target.span) record ∧ record.source.span = span ∧
      record.translation =
        translationOf json target (clauses.foldl (addClause target) { invalid }) := by
  rw [buildRecord, hraw]
  refine ⟨_, rfl, ⟨rfl, rfl, hraw, hshort, fun rest hrest => ?_, rfl⟩, rfl, rfl⟩
  obtain ⟨clauseSpan, argument, cls, hclause⟩ := mem_residualsOf hrest
  exact hresidual clauseSpan argument cls rest hclause

theorem mapM_buildRecord {clauses : List Clause} (h : Located file.source clauses) :
    ∃ records, clauses.mapM (fun clause =>
        buildRecord json file target clause.span none [clause]) = some records ∧
      (∀ record ∈ records, RecordAt file (functionKey target.span) record) ∧
      List.Forall₂ (fun clause record =>
        record.source.span = clause.span ∧ Represents [clause] record.translation) clauses records := by
  induction clauses with
  | nil => exact ⟨[], rfl, fun _ hmem => absurd hmem List.not_mem_nil, .nil⟩
  | cons clause clauses ih =>
    obtain ⟨⟨raw, hraw, hshort⟩, htext⟩ := List.forall_mem_cons.mp h.text
    obtain ⟨hspoken, hrest⟩ := List.forall_mem_cons.mp h.spoken
    obtain ⟨records, hrecords, hat, hall⟩ := ih ⟨htext, (List.pairwise_cons.mp h.sorted).2, hrest,
      fun span argument cls rest hmem =>
        h.residual span argument cls rest (List.mem_cons_of_mem _ hmem)⟩
    obtain ⟨record, hrecord, hplace, hspan, htranslation⟩ :=
      buildRecord_spec json target hraw hshort none fun span argument cls rest hmem => h.residual span argument cls rest
          (List.mem_singleton.mp hmem ▸ List.mem_cons_self)
    refine ⟨record :: records, ?_, List.forall_mem_cons.mpr ⟨hplace, hat⟩, .cons ⟨hspan, ?_⟩ hall⟩
    · rw [List.mapM_cons, hrecord, hrecords]
      rfl
    · rw [htranslation]
      exact translationOf_represents target json (not_conflicting_singleton clause)
        (fun c hc => List.mem_singleton.mp hc ▸ hspoken) none

/-- A group of at most one clause more than the budget makes the records of all its clauses. -/
theorem recordsOf_spec {target : NamedFunction} {named : Table Key NamedFunction} {key : Key}
    (hnamed : named.lookup key = some target) (hkey : functionKey target.span = key)
    {clauses : List Clause} (h : Located file.source clauses) (hne : clauses ≠ []) :
    ∃ records, recordsOf json file named (key, clauses.take (maxClausesPerFunction + 1)) =
        some records ∧
      (∀ record ∈ records, RecordAt file key record) ∧ FunctionRead clauses records := by
  have htake : clauses.take (maxClausesPerFunction + 1) ≠ [] := fun hnil =>
    (List.take_eq_nil_iff.mp hnil).elim (fun hzero => absurd hzero (by decide)) hne
  -- what is past the budget is over it when cut too
  have hover : OverBudget (clauses.take (maxClausesPerFunction + 1)) ↔ OverBudget clauses := by
    by_cases hlen : clauses.length ≤ maxClausesPerFunction + 1
    · rw [List.take_of_length_le hlen]
    · refine iff_of_true (.inl ?_) (.inl (by omega))
      rw [List.length_take]
      omega
  have hwhole : ¬ OverBudget clauses → clauses.take (maxClausesPerFunction + 1) = clauses :=
    fun hnot => List.take_of_length_le
      (Nat.le_succ_of_le (Nat.le_of_not_lt fun hlt => hnot (.inl hlt)))
  obtain ⟨extent, hextent, ⟨raw, hraw, hshort⟩, hbudget⟩ :=
    groupExtent_spec (h.take (maxClausesPerFunction + 1)) htake
  rw [hover] at hbudget
  rw [recordsOf, hnamed]
  dsimp only
  rw [hextent, Option.bind_some]
  have hsplit_iff := and_congr (@conflicting_iff (clauses.take (maxClausesPerFunction + 1)))
    hbudget
  by_cases hsplit : Conflicting (clauses.take (maxClausesPerFunction + 1)) ∧ ¬ OverBudget clauses
  · obtain ⟨hconflict, hnot⟩ := hsplit
    rw [if_pos (hsplit_iff.mpr ⟨hconflict, hnot⟩), hwhole hnot]
    rw [hwhole hnot] at hconflict
    obtain ⟨records, hrecords, hat, hall⟩ := mapM_buildRecord json target h
    exact ⟨records, hrecords, hkey ▸ hat, fun hnil => absurd hnil hne,
      fun _ hover => absurd hover hnot, fun _ _ hagree => absurd hconflict hagree,
      fun _ _ => hall⟩
  · rw [if_neg (hsplit_iff.not.mpr hsplit)]
    obtain ⟨record, hrecord, hplace, -, htranslation⟩ :=
      buildRecord_spec json target hraw hshort extent.2
        (h.take (maxClausesPerFunction + 1)).residual
    rw [hrecord]
    refine ⟨[record], rfl, fun r hr => List.mem_singleton.mp hr ▸ hkey ▸ hplace,
      fun hnil => absurd hnil hne, fun _ hover => ?_, fun _ hnot hagree => ?_,
      fun hnot hconflict => ?_⟩
    · obtain ⟨reason, hreason⟩ := Option.ne_none_iff_exists'.mp
        (fun hnone => hbudget.mp hnone hover)
      rw [hreason] at htranslation
      obtain ⟨reason', hreason'⟩ := translationOf_budget target json
        (clauses.take (maxClausesPerFunction + 1)) reason
      exact ⟨record, reason', rfl, htranslation.trans hreason'⟩
    · refine ⟨record, rfl, ?_⟩
      rw [htranslation, hwhole hnot]
      exact translationOf_represents target json hagree h.spoken extent.2
    · exact absurd ⟨by rw [hwhole hnot]; exact hconflict, hnot⟩ hsplit

end Records

/-! ## The whole file -/

theorem mapM_eq_map_getD {A B : Type} {f : A → Option (List B)} {as : List A}
    (h : ∀ a ∈ as, ∃ b, f a = some b) : as.mapM f = some (as.map fun a => (f a).getD []) := by
  induction as with
  | nil => rfl
  | cons a as ih =>
    obtain ⟨⟨b, hb⟩, hrest⟩ := List.forall_mem_cons.mp h
    rw [List.mapM_cons, hb, ih hrest, List.map_cons, hb]
    rfl

section File

variable {file : ParsedFile}

/-- The groups at the end of the loop. -/
def fileGroups (file : SourceFile) : List (Key × List Clause) :=
  grouped pushClause ((startedComments file).filterMap (contribution file (namedFunctions file.stmts)))

theorem contribution_eq_some (h : file.parseErrors = []) {entry : Nat × Comment}
    (hentry : entry ∈ startedComments file.toSourceFile) {key : Key} {clause : Clause} :
    contribution file.toSourceFile (namedFunctions file.stmts) entry = some (key, clause) ↔
      ∃ function, AttachedTo file function entry ∧
        DirectlyNamed file.stmts (functionKey function.function) ∧
          key = functionKey function.function ∧ clause = clauseAt file.source entry := by
  obtain ⟨found, hfound, hspec⟩ := readComment_spec h (commentAt_of_started h hentry)
    (namedFunctions file.stmts)
  rw [contribution, hfound]
  simp only [lookup_namedFunctions] at hspec
  exact hspec key clause

/-- Functions have different keys. -/
theorem eq_of_functionKey (h : file.parseErrors = []) {function other : FunctionBody}
    (hf : function ∈ file.functionBodies) (ho : other ∈ file.functionBodies)
    (hkey : functionKey function.function = functionKey other.function) : function = other := by
  have hlaminar : Sweep.Laminar (·.function.start) (·.function.stop) file.functionBodies :=
    file.functions_eq ▸ (file.tree h).laminar
  exact hlaminar.eq_of_lo_eq hf ho (congrArg (fun key => (ofLex key).1) hkey)

open Classical in
theorem valuesOf_eq (h : file.parseErrors = []) {function : FunctionBody}
    (hf : function ∈ file.functionBodies)
    (hnamed : DirectlyNamed file.stmts (functionKey function.function)) :
    valuesOf (functionKey function.function) ((startedComments file.toSourceFile).filterMap
      (contribution file.toSourceFile (namedFunctions file.stmts))) = clausesOf file function := by
  refine valuesOf_filterMap fun entry hentry clause => ?_
  rw [contribution_eq_some h hentry]
  constructor
  · rintro ⟨other, hattached, -, hkey, rfl⟩
    rw [eq_of_functionKey h hf hattached.owned.mem hkey]
    exact ⟨hattached, rfl⟩
  · rintro ⟨hattached, rfl⟩
    exact ⟨function, hattached, hnamed, rfl, rfl⟩

/-- A group holds the clauses of a named function, up to one more than the budget. -/
theorem mem_fileGroups (h : file.parseErrors = []) {group : Key × List Clause} :
    group ∈ fileGroups file.toSourceFile ↔
      ∃ function ∈ file.functionBodies, DirectlyNamed file.stmts (functionKey function.function) ∧
        clausesOf file function ≠ [] ∧ group =
          (functionKey function.function,
            (clausesOf file function).take (maxClausesPerFunction + 1)) := by
  obtain ⟨key, clauses⟩ := group
  rw [fileGroups, mem_grouped]
  have hpush : ∀ values : List Clause,
      values.foldl pushClause [] = values.take (maxClausesPerFunction + 1) :=
    foldl_push_upTo maxClausesPerFunction
  rw [hpush]
  constructor
  · rintro ⟨hne, rfl⟩
    obtain ⟨clause, hclause⟩ := List.exists_mem_of_ne_nil _ hne
    obtain ⟨pair, hpair, -⟩ := List.mem_map.mp hclause
    obtain ⟨hmem, hkey⟩ := List.mem_filter.mp hpair
    obtain ⟨entry, hentry, hadds⟩ := List.mem_filterMap.mp hmem
    obtain ⟨function, hattached, hnamed, hfunction, -⟩ := (contribution_eq_some h hentry).mp hadds
    have hsame : key = functionKey function.function :=
      (of_decide_eq_true hkey).symm.trans hfunction
    subst hsame
    rw [valuesOf_eq h hattached.owned.mem hnamed] at hne ⊢
    exact ⟨function, hattached.owned.mem, hnamed, hne, rfl⟩
  · rintro ⟨function, hf, hnamed, hne, heq⟩
    obtain ⟨rfl, rfl⟩ := Prod.mk.inj heq
    rw [valuesOf_eq h hf hnamed]
    exact ⟨hne, rfl⟩

/-- The records that belong to a function. -/
def recordsAt (records : List SourcedRecord) (function : FunctionBody) : List SourcedRecord :=
  records.filter fun record =>
    functionKey record.source.target.definition = functionKey function.function

/-- The reader on a file.  Nothing comes from a file outside the scope or one that R rejects.
Otherwise every record is adopted for a function of the file, with its text at its span within the
byte budget, and the records of a function are made from the comments attached to it. -/
structure FileRead (file : ParsedFile) (adopted : Bool) (records : List SourcedRecord) : Prop where
  declined : adopted = false ∨ file.rejectedByR = true → records = []
  placed : ∀ record ∈ records, ∃ function ∈ file.functionBodies,
    DirectlyNamed file.stmts (functionKey function.function) ∧
      RecordAt file.toSourceFile (functionKey function.function) record
  read : adopted = true → file.rejectedByR = false → ∀ function ∈ file.functionBodies,
    DirectlyNamed file.stmts (functionKey function.function) →
      FunctionRead (clausesOf file function) (recordsAt records function)

theorem parseErrors_of_not_rejected (h : file.rejectedByR = false) : file.parseErrors = [] := by
  rw [SourceFile.rejectedByR, Bool.or_eq_false_iff, Bool.or_eq_false_iff] at h
  simpa using h.1.2

/-- The records of a group. -/
def made (json : JsonStrings) (file : SourceFile) (group : Key × List Clause) :
    List SourcedRecord :=
  (recordsOf json file (namedFunctions file.stmts) group).getD []

variable (json : JsonStrings)

/-- Every group has the records of its function. -/
theorem made_spec (h : file.parseErrors = []) {group : Key × List Clause}
    (hgroup : group ∈ fileGroups file.toSourceFile) :
    recordsOf json file.toSourceFile (namedFunctions file.stmts) group =
        some (made json file.toSourceFile group) ∧
      (∀ record ∈ made json file.toSourceFile group, RecordAt file.toSourceFile group.1 record) ∧
      ∃ function ∈ file.functionBodies,
        DirectlyNamed file.stmts (functionKey function.function) ∧
          group.1 = functionKey function.function ∧
            FunctionRead (clausesOf file function) (made json file.toSourceFile group) := by
  obtain ⟨function, hf, hnamed, hne, rfl⟩ := (mem_fileGroups h).mp hgroup
  obtain ⟨target, htarget⟩ :=
    Option.ne_none_iff_exists'.mp ((lookup_namedFunctions file.stmts _).mpr hnamed)
  obtain ⟨records, hrecords, hat, hread⟩ := recordsOf_spec json htarget
    (span_namedFunctions file.stmts htarget) (located_clausesOf h function) hne
  have hmade : made json file.toSourceFile (functionKey function.function,
      (clausesOf file function).take (maxClausesPerFunction + 1)) = records := by
    rw [made, hrecords, Option.getD_some]
  rw [hmade]
  exact ⟨hrecords, hat, function, hf, hnamed, rfl, hread⟩

/-- The records are those of the groups. -/
theorem readRecordsAt_eq {Pattern : Type} {fs : FileSystem} {glob : Discovery.Glob Pattern}
    {nativePath : Path} {scope : Discovery.ScopedPaths Pattern}
    (hadopted : scope.matches fs glob nativePath = true) (haccepted : file.rejectedByR = false) :
    readRecordsAt json fs glob file.toSourceFile nativePath scope =
      some ((fileGroups file.toSourceFile).flatMap (made json file.toSourceFile)) := by
  have h := parseErrors_of_not_rejected haccepted
  have hsweep := sweepComments_eq h (namedFunctions file.stmts)
    (Sweep.Swept.start file.functionBodies) (fun _ _ => Nat.zero_le _)
    (started_sorted file.toSourceFile) (fun entry => commentAt_of_started h) []
  rw [readRecordsAt, hadopted, haccepted, if_neg (by decide)]
  dsimp only
  rw [hsweep, Option.bind_some]
  change ((fileGroups file.toSourceFile).mapM
    (recordsOf json file.toSourceFile (namedFunctions file.stmts))).map List.flatten = _
  rw [mapM_eq_map_getD fun group hgroup => ⟨_, (made_spec json h hgroup).1⟩, Option.map_some,
    List.flatMap_def]
  rfl

theorem read_of_named (h : file.parseErrors = []) {function : FunctionBody}
    (hf : function ∈ file.functionBodies)
    (hnamed : DirectlyNamed file.stmts (functionKey function.function)) :
    FunctionRead (clausesOf file function)
      (recordsAt ((fileGroups file.toSourceFile).flatMap (made json file.toSourceFile)) function) := by
  have hkeys : ∀ group ∈ fileGroups file.toSourceFile,
      ∀ record ∈ made json file.toSourceFile group,
        functionKey record.source.target.definition = group.1 :=
    fun group hgroup record hrecord => ((made_spec json h hgroup).2.1 record hrecord).target
  rw [recordsAt]
  by_cases hnil : clausesOf file function = []
  · have hnone : ∀ group ∈ fileGroups file.toSourceFile,
        group.1 ≠ functionKey function.function := by
      intro group hgroup hkey
      obtain ⟨other, ho, -, hne, rfl⟩ := (mem_fileGroups h).mp hgroup
      rw [eq_of_functionKey h ho hf hkey] at hne
      exact hne hnil
    rw [filter_flatMap_of_not_mem hkeys hnone, hnil]
    refine ⟨fun _ => rfl, fun hne => absurd rfl hne, fun hne => absurd rfl hne, ?_⟩
    rintro - ⟨_, _, _, _, ⟨_, hmem, -⟩, -⟩
    exact absurd hmem List.not_mem_nil
  · have hgroup := (mem_fileGroups h).mpr ⟨function, hf, hnamed, hnil, rfl⟩
    obtain ⟨-, -, other, ho, -, hkey, hread⟩ := made_spec json h hgroup
    have hfilter := filter_flatMap_of_mem (sorted_grouped _ _) hkeys hgroup
    rw [eq_of_functionKey h hf ho hkey] at hread hfilter ⊢
    exact hfilter ▸ hread

/-- For every parsed file, the reader answers, and the answer is the one of its attached comments. -/
theorem readRecordsAt_spec {Pattern : Type} (json : JsonStrings) (fs : FileSystem)
    (glob : Discovery.Glob Pattern) (file : ParsedFile) (nativePath : Path)
    (scope : Discovery.ScopedPaths Pattern) :
    ∃ records, readRecordsAt json fs glob file.toSourceFile nativePath scope = some records ∧
      FileRead file (scope.matches fs glob nativePath) records := by
  by_cases hread : scope.matches fs glob nativePath = true ∧ file.rejectedByR = false
  · obtain ⟨hadopted, haccepted⟩ := hread
    have h := parseErrors_of_not_rejected haccepted
    refine ⟨_, readRecordsAt_eq json hadopted haccepted, fun hor => ?_, fun record hrecord => ?_,
      fun _ _ function hf hnamed => read_of_named json h hf hnamed⟩
    · rw [hadopted, haccepted] at hor
      exact absurd hor (by decide)
    · obtain ⟨group, hgroup, hrecord⟩ := List.mem_flatMap.mp hrecord
      obtain ⟨-, hat, function, hf, hnamed, hkey, -⟩ := made_spec json h hgroup
      exact ⟨function, hf, hnamed, hkey ▸ hat record hrecord⟩
  · have hdeclined : (!scope.matches fs glob nativePath || file.rejectedByR) = true := by
      cases hadopted : scope.matches fs glob nativePath with
      | false => rfl
      | true =>
        cases haccepted : file.rejectedByR with
        | false => exact absurd ⟨hadopted, haccepted⟩ hread
        | true => rfl
    rw [readRecordsAt, if_pos hdeclined]
    exact ⟨[], rfl, fun _ => rfl, fun _ hmem => absurd hmem List.not_mem_nil,
      fun hadopted haccepted => absurd ⟨hadopted, haccepted⟩ hread⟩

end File

end Ry.Typehint
