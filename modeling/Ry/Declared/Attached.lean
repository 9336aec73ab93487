import Ry.Declared.Clauses

/-! # Comments and their functions

The sweep finds the innermost function of every comment, and the records of a function are made from
the clauses of the comments attached to it: all of them if they agree, and one by one if they do not.
-/

namespace Ry.Typehint

open Declared Lexical

/-- A file as the parser gives it: its comments and functions are those of its tree, which is as the
grammar has it if there is no error. -/
structure ParsedFile extends SourceFile where
  root : Node
  comments_eq : comments = collectComments source root
  functions_eq : functionBodies = collectFunctions source root
  grammatical : parseErrors = [] → ∀ node ∈ root.popped, node.Grammatical source

/-- The tree of a file that R accepts. -/
def ParsedFile.tree (file : ParsedFile) (h : file.parseErrors = []) : SyntaxTree file.source :=
  ⟨file.root, file.grammatical h⟩

/-! ## Clauses and the text -/

/-- What a clause is when it is not refused: a residual from the class on, or a class and what
follows it. -/
theorem parseClause_cases (raw : List Char) (span : Span) :
    parseClause raw span = invalidClause span ∨
      ∃ argument argumentStart argumentEnd classStart classEnd,
        nextToken raw 2 = some (argumentStart, argumentEnd) ∧
        nextToken raw argumentEnd = some (classStart, classEnd) ∧
        (parseClause raw span = .claim span argument none
            (some (residualAt raw span classStart unsupportedClass)) ∨
          ∃ cls, parseClause raw span = .claim span argument (some cls)
            ((nextToken raw classEnd).map fun rest =>
              residualAt raw span rest.1 unsupportedRest)) := by
  rw [parseClause]
  cases hargument : nextToken raw 2 with
  | none => exact .inl rfl
  | some argument =>
    obtain ⟨argumentStart, argumentEnd⟩ := argument
    dsimp only
    cases hclass : nextToken raw argumentEnd with
    | none => exact .inl rfl
    | some cls =>
      obtain ⟨classStart, classEnd⟩ := cls
      dsimp only
      rw [wordClause]
      split
      · exact .inl rfl
      · refine .inr ⟨String.ofList (textBetween raw argumentStart argumentEnd), argumentStart,
          argumentEnd, classStart, classEnd, rfl, hclass, ?_⟩
        split
        · exact .inl rfl
        · exact .inr ⟨_, rfl⟩

theorem clauseOf_span (raw : List Char) (span : Span) (fullEnd : Nat) :
    (clauseOf raw span fullEnd).span = span := by
  rw [clauseOf]
  split
  · rfl
  · rcases parseClause_cases raw span with h | ⟨_, _, _, _, _, _, _, h | ⟨_, h⟩⟩ <;> rw [h] <;> rfl

theorem clauseOf_spoken (raw : List Char) (span : Span) (fullEnd : Nat) :
    (clauseOf raw span fullEnd).Spoken := by
  rw [clauseOf]
  split
  · trivial
  · rcases parseClause_cases raw span with h | ⟨_, _, _, _, _, _, _, h | ⟨_, h⟩⟩ <;> rw [h]
    · trivial
    · exact .inr (Option.some_ne_none _)
    · exact .inl (Option.some_ne_none _)

/-- Words begin and end at character boundaries. -/
theorem nextToken_boundary {raw : List Char} {after start stop : Nat}
    (hafter : IsCharBoundary raw after) (h : nextToken raw after = some (start, stop)) :
    IsCharBoundary raw start ∧ IsCharBoundary raw stop := by
  obtain ⟨before, rest, rfl, rfl⟩ := isCharBoundary_iff.mp hafter
  rw [nextToken, suffixBytes_append] at h
  have hsplit := List.takeWhile_append_dropWhile (p := isWhitespace) (l := rest)
  split at h
  case h_1 => cases h
  case h_2 =>
    obtain ⟨rfl, rfl⟩ := Prod.mk.inj (Option.some.inj h)
    have hword := List.takeWhile_append_dropWhile (p := (!isWhitespace ·))
      (l := rest.dropWhile isWhitespace)
    refine ⟨isCharBoundary_iff.mpr ⟨before ++ rest.takeWhile isWhitespace,
      rest.dropWhile isWhitespace, by rw [List.append_assoc, hsplit], byteLen_append _ _⟩,
      isCharBoundary_iff.mpr ⟨before ++ rest.takeWhile isWhitespace ++
        (rest.dropWhile isWhitespace).takeWhile (!isWhitespace ·),
        (rest.dropWhile isWhitespace).dropWhile (!isWhitespace ·), ?_, ?_⟩⟩
    · rw [List.append_assoc, hword, List.append_assoc, hsplit]
    · rw [byteLen_append, byteLen_append]

/-- A residual is the text at its span. -/
def ResidualAt (source : List Char) (rest : ResidualConstraint) : Prop :=
  slice source rest.span.start rest.span.stop = some rest.raw.toList

theorem residualAt_slice {source raw : List Char} {span : Span}
    (hraw : slice source span.start span.stop = some raw) {offset : Nat}
    (hoffset : IsCharBoundary raw offset) (reason : String) :
    ResidualAt source (residualAt raw span offset reason) := by
  obtain ⟨before, rest, rfl, rfl⟩ := isCharBoundary_iff.mp hoffset
  obtain ⟨blank, hblank⟩ := List.rdropWhile_prefix isWhitespace rest
  rw [ResidualAt, residualAt, suffixBytes_append, String.toList_ofList, Nat.add_assoc]
  refine slice_slice hraw (slice_eq_some.mpr ⟨before, blank, ?_, rfl, rfl⟩)
  rw [trimEnd, hblank]

theorem clauseOf_residual {source raw : List Char} {span : Span} {fullEnd : Nat}
    (hraw : slice source span.start span.stop = some raw)
    (htwo : ¬ span.stop < fullEnd → IsCharBoundary raw 2) {span' : Span} {argument : String}
    {cls : Option String} {rest : ResidualConstraint}
    (h : clauseOf raw span fullEnd = .claim span' argument cls (some rest)) :
    ResidualAt source rest := by
  rw [clauseOf] at h
  split at h
  case isTrue => cases h
  case isFalse hwhole =>
    have htwo := htwo hwhole
    rcases parseClause_cases raw span with hclause | ⟨formal, argumentStart, argumentEnd,
      classStart, classEnd, hargument, hclass, hclause | ⟨name, hclause⟩⟩ <;> rw [hclause] at h
    · cases h
    · have hbounds := nextToken_boundary (nextToken_boundary htwo hargument).2 hclass
      obtain ⟨-, -, -, hrest⟩ := Clause.claim.inj h
      rw [← Option.some.inj hrest]
      exact residualAt_slice hraw hbounds.1 _
    · have hbounds := nextToken_boundary (nextToken_boundary htwo hargument).2 hclass
      obtain ⟨-, -, -, hrest⟩ := Clause.claim.inj h
      obtain ⟨token, htoken, rfl⟩ := Option.map_eq_some_iff.mp hrest
      exact residualAt_slice hraw (nextToken_boundary hbounds.2 htoken).1 _

/-! ## Named functions -/

/-- The node assigns a function literal to a name. -/
def AssignsFunction (node : AstNode) (key : Key) : Prop :=
  ∃ name nameSpan params body span whole,
    node = .stmt (.assign (.ident name nameSpan) (.function params body span) whole) ∧
      functionKey span = key

/-- An assignment outside the defaults of formals names the function. -/
def DirectlyNamed (stmts : List Stmt) (key : Key) : Prop :=
  ∃ place ∈ (astTree.forest [] [] 0 (stmtKids .plain stmts)).filter
    (Branching.kept WalkPolicy.all.enters), AssignsFunction place.node key

theorem lookup_nameFunction (named : Table Key NamedFunction) (node : AstNode) (key : Key) :
    (nameFunction named node).lookup key ≠ none ↔
      named.lookup key ≠ none ∨ AssignsFunction node key := by
  by_cases hassigns : ∃ key, AssignsFunction node key
  · obtain ⟨_, name, nameSpan, params, body, span, whole, rfl, -⟩ := hassigns
    rw [nameFunction, Table.lookup_insert]
    by_cases hkey : functionKey span = key
    · rw [if_pos hkey.symm]
      exact iff_of_true (Option.some_ne_none _)
        (.inr ⟨name, nameSpan, params, body, span, whole, rfl, hkey⟩)
    · rw [if_neg (Ne.symm hkey)]
      refine (or_iff_left ?_).symm
      rintro ⟨_, _, _, _, _, _, heq, hkey'⟩
      injection heq with heq
      injection heq with _ hfunction
      injection hfunction with _ _ hspan
      exact hkey (hspan ▸ hkey')
  · have hsame : nameFunction named node = named := by
      unfold nameFunction
      split
      next name nameSpan params body span whole =>
        exact absurd ⟨_, name, nameSpan, params, body, span, whole, rfl, rfl⟩ hassigns
      next => rfl
    rw [hsame]
    exact (or_iff_left fun h => hassigns ⟨key, h⟩).symm

theorem span_nameFunction {named : Table Key NamedFunction}
    (h : ∀ key target, named.lookup key = some target → functionKey target.span = key)
    (node : AstNode) {key : Key} {target : NamedFunction}
    (htarget : (nameFunction named node).lookup key = some target) :
    functionKey target.span = key := by
  unfold nameFunction at htarget
  split at htarget
  next name nameSpan params body span whole =>
    rw [Table.lookup_insert] at htarget
    split at htarget
    next heq =>
      rw [← Option.some.inj htarget]
      exact heq.symm
    next => exact h key target htarget
  next => exact h key target htarget

theorem namedFunctions_eq (stmts : List Stmt) : namedFunctions stmts =
    ((astTree.forest [] [] 0 (stmtKids .plain stmts)).filter
      (Branching.kept WalkPolicy.all.enters)).foldl
        (fun named place => nameFunction named place.node) ∅ := by
  rw [namedFunctions, walkStmts_eq_calls, Branching.calls_into]

/-- The functions the walk has noted down are those directly named. -/
theorem lookup_namedFunctions (stmts : List Stmt) (key : Key) :
    (namedFunctions stmts).lookup key ≠ none ↔ DirectlyNamed stmts key := by
  rw [namedFunctions_eq, DirectlyNamed]
  generalize (astTree.forest [] [] 0 (stmtKids .plain stmts)).filter
    (Branching.kept WalkPolicy.all.enters) = places
  induction places using List.reverseRecOn with
  | nil => simp
  | append_singleton places place ih =>
    rw [List.foldl_append, List.foldl_cons, List.foldl_nil, lookup_nameFunction, ih]
    simp [or_and_right, exists_or]

theorem span_namedFunctions (stmts : List Stmt) {key : Key} {target : NamedFunction}
    (h : (namedFunctions stmts).lookup key = some target) : functionKey target.span = key := by
  rw [namedFunctions_eq] at h
  generalize (astTree.forest [] [] 0 (stmtKids .plain stmts)).filter
    (Branching.kept WalkPolicy.all.enters) = places at h
  induction places using List.reverseRecOn generalizing key target with
  | nil => simp at h
  | append_singleton places place ih =>
    rw [List.foldl_append] at h
    exact span_nameFunction (fun _ _ => ih) place.node h

/-! ## One comment -/

/-- The whole comment is in the span. -/
def Contains (span : Span) (start : Nat) (comment : Comment) : Prop :=
  span.start ≤ start ∧ start + (1 + byteLen comment.body) ≤ span.stop

/-- A `#|` comment with a line of its own that is no cell option. -/
structure DeclaresAlone (source : List Char) (start : Nat) (comment : Comment) : Prop where
  bar : ∃ afterPipe, comment.body = '|' :: afterPipe ∧ isCellOption afterPipe = false
  alone : ∃ before, slice source (start - comment.col) start = some before ∧ before.all isBlank

/-- The function is the innermost that contains the comment, which is in its braces. -/
structure OwnedBy (file : ParsedFile) (function : FunctionBody) (start : Nat) (comment : Comment) :
    Prop where
  mem : function ∈ file.functionBodies
  contains : Contains function.function start comment
  innermost : ∀ other ∈ file.functionBodies, Contains other.function start comment →
    other.function.start ≤ function.function.start ∧
      function.function.stop ≤ other.function.stop
  body : ∃ body, function.body = some body ∧ Contains body start comment

/-- The comment declares something of a function. -/
structure AttachedTo (file : ParsedFile) (function : FunctionBody) (entry : Nat × Comment) :
    Prop where
  declares : DeclaresAlone file.source entry.1 entry.2
  owned : OwnedBy file function entry.1 entry.2

/-- The clause that a comment spells. -/
def clauseAt (source : List Char) (entry : Nat × Comment) : Clause :=
  let stop := cutEnd source entry.1 entry.2
  clauseOf ((slice source entry.1 stop).getD []) ⟨entry.1, stop, entry.2.line, entry.2.col⟩
    (entry.1 + (1 + byteLen entry.2.body))

section Comments

variable {file : ParsedFile} {start : Nat} {comment : Comment}

theorem innermost_iff (h : file.parseErrors = [])
    (hat : CommentAt file.source file.root comment start) {function : FunctionBody} :
    Sweep.innermost? (·.function.start) (·.function.stop) file.functionBodies start =
        some function ↔
      function ∈ file.functionBodies ∧ Contains function.function start comment ∧
        ∀ other ∈ file.functionBodies, Contains other.function start comment →
          other.function.start ≤ function.function.start ∧
            function.function.stop ≤ other.function.stop := by
  have hover : ∀ other ∈ file.functionBodies,
      Sweep.Over (·.function.start) (·.function.stop) other start ↔
        Contains other.function start comment := by
    intro other hother
    rw [file.functions_eq] at hother
    exact (file.tree h).over_iff hat hother
  have hlaminar := (file.tree h).laminar
  rw [Sweep.innermost?_iff (file.functions_eq ▸ hlaminar)]
  constructor
  · rintro ⟨hmem, hin, hinside⟩
    exact ⟨hmem, (hover _ hmem).mp hin, fun other hother hcontains =>
      hinside other hother ((hover other hother).mpr hcontains)⟩
  · rintro ⟨hmem, hcontains, hinside⟩
    exact ⟨hmem, (hover _ hmem).mpr hcontains, fun other hother hin =>
      hinside other hother ((hover other hother).mp hin)⟩

/-- Where a comment is cut is in the text, within the budget. -/
theorem cutEnd_spec (hat : CommentAt file.source file.root comment start) :
    start ≤ cutEnd file.source start comment ∧
      cutEnd file.source start comment ≤ start + (1 + byteLen comment.body) ∧
      cutEnd file.source start comment ≤ start + maxAnnotationBytes ∧
      ∃ raw, slice file.source start (cutEnd file.source start comment) = some raw := by
  have hstart := (IsCharBoundary.of_slice hat.text).1
  have hle : start ≤ min (start + (1 + byteLen comment.body)) (start + maxAnnotationBytes) :=
    Nat.le_min.mpr ⟨Nat.le_add_right _ _, Nat.le_add_right _ _⟩
  have hback := Nat.le_min.mp (backToBoundary_le file.source start
    (min (start + (1 + byteLen comment.body)) (start + maxAnnotationBytes)))
  exact ⟨le_backToBoundary hle, hback.1, hback.2, exists_slice (le_backToBoundary hle) hstart
    (isCharBoundary_backToBoundary hstart hle)⟩

theorem ownerOf_eq_some (h : file.parseErrors = [])
    (hat : CommentAt file.source file.root comment start) (named : Table Key NamedFunction)
    (key : Key) :
    ownerOf named (Sweep.innermost? (·.function.start) (·.function.stop) file.functionBodies start)
        start (cutEnd file.source start comment) = some key ↔
      ∃ function, OwnedBy file function start comment ∧
        named.lookup (functionKey function.function) ≠ none ∧
          key = functionKey function.function := by
  obtain ⟨hstart, hfull, -⟩ := cutEnd_spec hat
  rw [ownerOf, Option.bind_eq_some_iff]
  constructor
  · rintro ⟨function, hinner, hbody⟩
    obtain ⟨body, hbraced, hkey⟩ := Option.bind_eq_some_iff.mp hbody
    obtain ⟨hmem, hcontains, hinnermost⟩ := (innermost_iff h hat).mp hinner
    have hinBody := (file.tree h).inBody_iff hat (file.functions_eq ▸ hmem) hbraced hstart hfull
    split at hkey
    case isTrue => cases hkey
    case isFalse hin =>
      obtain ⟨target, hnamed, rfl⟩ := Option.map_eq_some_iff.mp hkey
      refine ⟨function, ⟨hmem, hcontains, hinnermost, body, hbraced, hinBody.mp (by omega)⟩, ?_, rfl⟩
      rw [hnamed]
      exact Option.some_ne_none target
  · rintro ⟨function, howned, hnamed, rfl⟩
    obtain ⟨body, hbraced, hcontained⟩ := howned.body
    obtain ⟨target, htarget⟩ := Option.ne_none_iff_exists'.mp hnamed
    have hin := ((file.tree h).inBody_iff hat (file.functions_eq ▸ howned.mem) hbraced hstart
      hfull).mpr hcontained
    refine ⟨function, (innermost_iff h hat).mpr ⟨howned.mem, howned.contains, howned.innermost⟩,
      Option.bind_eq_some_iff.mpr ⟨body, hbraced, ?_⟩⟩
    rw [if_neg (by omega), htarget]
    rfl

/-- What the body of the loop makes of a comment: the clause of an attached one. -/
theorem readComment_spec (h : file.parseErrors = [])
    (hat : CommentAt file.source file.root comment start) (named : Table Key NamedFunction) :
    ∃ found, readComment file.source named (Sweep.innermost? (·.function.start) (·.function.stop)
        file.functionBodies start) start comment = some found ∧
      ∀ key clause, found = some (key, clause) ↔
        ∃ function, AttachedTo file function (start, comment) ∧
          named.lookup (functionKey function.function) ≠ none ∧
            key = functionKey function.function ∧
              clause = clauseAt file.source (start, comment) := by
  obtain ⟨-, -, -, raw, hraw⟩ := cutEnd_spec hat
  obtain ⟨before, hbefore⟩ := hat.before
  have hnone : ¬ DeclaresAlone file.source start comment → ∀ key clause,
      (none : Option (Key × Clause)) = some (key, clause) ↔
        ∃ function, AttachedTo file function (start, comment) ∧
          named.lookup (functionKey function.function) ≠ none ∧
            key = functionKey function.function ∧
              clause = clauseAt file.source (start, comment) := fun hnot key clause =>
    iff_of_false (Option.some_ne_none _).symm fun ⟨_, hattached, _⟩ => hnot hattached.declares
  rw [readComment, hraw]
  dsimp only
  split
  case h_2 hbar =>
    refine ⟨none, rfl, hnone fun hdeclares => ?_⟩
    obtain ⟨afterPipe, hbody, -⟩ := hdeclares.bar
    exact hbar afterPipe hbody
  case h_1 afterPipe hbody =>
    rw [hbefore, Option.map_some]
    refine ⟨_, rfl, ?_⟩
    by_cases hplace : (!before.all isBlank || isCellOption afterPipe) = true
    · rw [if_pos hplace]
      refine hnone fun hdeclares => ?_
      obtain ⟨afterPipe', hbody', hoption⟩ := hdeclares.bar
      obtain ⟨before', hbefore', halone⟩ := hdeclares.alone
      rw [hbody] at hbody'
      obtain rfl : afterPipe = afterPipe' := (List.cons.inj hbody').2
      obtain rfl : before = before' := Option.some.inj (hbefore.symm.trans hbefore')
      rw [halone, hoption] at hplace
      exact absurd hplace (by decide)
    · rw [if_neg hplace]
      rw [Bool.or_eq_true, not_or, Bool.not_eq_true', Bool.not_eq_false, Bool.not_eq_true] at hplace
      have hdeclares : DeclaresAlone file.source start comment :=
        ⟨⟨afterPipe, hbody, hplace.2⟩, before, hbefore, hplace.1⟩
      have hclause : clauseOf raw ⟨start, cutEnd file.source start comment, comment.line,
          comment.col⟩ (start + (1 + byteLen comment.body)) =
          clauseAt file.source (start, comment) := by
        rw [clauseAt, hraw]
        rfl
      intro key clause
      rw [hclause, Option.map_eq_some_iff]
      constructor
      · rintro ⟨key', hkey, heq⟩
        obtain ⟨rfl, rfl⟩ := Prod.mk.inj heq
        obtain ⟨function, howned, hnamed, rfl⟩ := (ownerOf_eq_some h hat named _).mp hkey
        exact ⟨function, ⟨hdeclares, howned⟩, hnamed, rfl, rfl⟩
      · rintro ⟨function, hattached, hnamed, rfl, rfl⟩
        exact ⟨_, (ownerOf_eq_some h hat named _).mpr ⟨function, hattached.owned, hnamed, rfl⟩, rfl⟩

end Comments

end Ry.Typehint
