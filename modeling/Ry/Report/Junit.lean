import Ry.Lib.Xml
import Ry.Lib.Delimited
import Ry.Report.Render
import Ry.Declared.Spelling

/-! # The JUnit report as a document

A test case is a `testcase` element with the element it begins with.  The report reads as its
diagnostics exactly where no path has a character or a `]]>` that markup gives a meaning, and
every message holds only characters that a document can carry in an attribute.
-/

namespace Ry

/-! ## Test cases -/

/-- What a test case says of its finding. -/
structure TestCase where
  name : List Char
  classname : List Char
  message : List Char
  type : List Char
deriving DecidableEq

def valueOf (attrs : List (List Char × List Char)) (key : String) : List Char :=
  (attrs.lookup key.toList).getD []

/-- A test case and its first element. -/
def TestCase.of (head problem : List (List Char × List Char)) : TestCase where
  name := valueOf head "name"
  classname := valueOf head "classname"
  message := valueOf problem "message"
  type := valueOf problem "type"

/-- The test cases among the events of a document, after the tag of an unfinished one. -/
def testCases : Option (List (List Char × List Char)) → List Xml.Event → List TestCase
  | _, [] => []
  | none, .opened n as :: es => testCases (if n = "testcase".toList then some as else none) es
  | none, .empty n as :: es =>
    if n = "testcase".toList then .of as [] :: testCases none es else testCases none es
  | some head, .opened _ as :: es => .of head as :: testCases none es
  | some head, .empty _ as :: es => .of head as :: testCases none es
  | some head, .closed _ :: es => .of head [] :: testCases none es
  | none, .closed _ :: es => testCases none es
  | head, .text _ :: es => testCases head es
  | head, .aside :: es => testCases head es

def lineNumber (d : CheckerDiagnostic) : List Char := digits (d.span.line + 1)

def caseName (d : CheckerDiagnostic) : List Char :=
  d.code.toList ++ (": ".toList ++ (d.path.toList ++ ":".toList ++ lineNumber d))

/-- The test case of a diagnostic. -/
def CheckerDiagnostic.testCase (d : CheckerDiagnostic) : TestCase where
  name := caseName d
  classname := d.path.toList
  message := d.message.toList
  type := d.code.toList

/-- A document whose test cases are those of the diagnostics. -/
def DocumentOf (out : List Char) (diags : List CheckerDiagnostic) : Prop :=
  ∃ es, Xml.document out = some es ∧ testCases none es = diags.map CheckerDiagnostic.testCase

/-! ## What a document can carry -/

def AttributePath (path : List Char) : Prop := ∀ c ∈ path, Xml.Plain c ∧ c ≠ '"'

def CarriedMessage (message : List Char) : Prop :=
  ∀ c ∈ message, Xml.isChar c = true ∧ c ∉ ['\t', '\n', '\r']

/-- The diagnostics that a JUnit report carries. -/
structure Carried (d : CheckerDiagnostic) : Prop where
  path : AttributePath d.path.toList
  noSectionEnd : ¬ "]]>".toList <:+: d.path.toList
  message : CarriedMessage d.message.toList

/-! ## Codes, numbers and escaped messages -/

theorem CheckerDiagnostic.code_alphanum (d : CheckerDiagnostic) :
    ∀ c ∈ d.code.toList, c.isAlphanum = true := by
  have hall : (rules.all fun r => r.code.toList.all Char.isAlphanum) = true := by decide
  have hregistered := d.registered
  unfold isRuleCode findRule at hregistered
  rw [Option.any_eq_true] at hregistered
  obtain ⟨r, hr, hcode⟩ := hregistered
  rw [← beq_iff_eq.mp hcode]
  exact List.all_eq_true.mp (List.all_eq_true.mp hall r (List.mem_of_find?_eq_some hr))

theorem plain_of_isAlphanum {c : Char} (h : c.isAlphanum = true) : Xml.Plain c ∧ c ≠ '"' := by
  have hne : ∀ d : Char, d.isAlphanum = false → c ≠ d := by
    rintro d hd rfl
    rw [h] at hd
    cases hd
  have hchar : Xml.isChar c = true := by
    have hrange : 0x20 ≤ c.toNat ∧ c.toNat ≤ 0xFFFD := by
      simp only [Char.isAlphanum, Char.isAlpha, Char.isUpper, Char.isLower, Char.isDigit,
        Bool.or_eq_true, Bool.and_eq_true, decide_eq_true_eq, UInt32.le_iff_toNat_le] at h
      rcases h with (⟨h1, h2⟩ | ⟨h1, h2⟩) | ⟨h1, h2⟩
      all_goals
        simp at h1 h2
        exact ⟨by omega, by omega⟩
    simp [Xml.isChar, hrange.1, hrange.2]
  refine ⟨⟨hchar, ?_⟩, hne _ (by decide)⟩
  simp only [List.mem_cons, List.not_mem_nil, or_false, not_or]
  exact ⟨hne _ (by decide), hne _ (by decide), hne _ (by decide), hne _ (by decide),
    hne _ (by decide)⟩

theorem digits_alphanum (n : Nat) : ∀ c ∈ digits n, c.isAlphanum = true := by
  intro c hc
  rw [Char.isAlphanum, Declared.isDigit_toDigits n c hc, Bool.or_true]

theorem digits_plain (n : Nat) : ∀ c ∈ digits n, Xml.Plain c ∧ c ≠ '"' :=
  fun c hc => plain_of_isAlphanum (digits_alphanum n c hc)

theorem CheckerDiagnostic.code_plain (d : CheckerDiagnostic) :
    ∀ c ∈ d.code.toList, Xml.Plain c ∧ c ≠ '"' :=
  fun c hc => plain_of_isAlphanum (d.code_alphanum c hc)

/-- What stands in a message for a character. -/
def entity (c : Char) : List Char :=
  if c = '&' then "&amp;".toList
  else if c = '<' then "&lt;".toList
  else if c = '>' then "&gt;".toList
  else if c = '"' then "&quot;".toList
  else [c]

theorem escaped_eq (message : List Char) : escaped message = message.flatMap entity := by
  unfold escaped replaceChar
  rw [List.flatMap_assoc, List.flatMap_assoc, List.flatMap_assoc]
  congr 1
  funext c
  unfold entity
  by_cases hamp : c = '&'
  · subst hamp
    rfl
  · by_cases hlt : c = '<'
    · subst hlt
      rfl
    · by_cases hgt : c = '>'
      · subst hgt
        rfl
      · by_cases hq : c = '"'
        · subst hq
          rfl
        · simp [hamp, hlt, hgt, hq]

theorem escaped_cons (c : Char) (message : List Char) :
    escaped (c :: message) = entity c ++ escaped message := by
  rw [escaped_eq, escaped_eq, List.flatMap_cons]

theorem characters_entity {literal : Char → Char} (c : Char) (h : Xml.isChar c = true)
    (hlit : ∀ d ∈ ['&', '<', '>', '"'], literal d = d) :
    Xml.characters literal none (entity c) = some [literal c] := by
  unfold entity
  split
  · rename_i heq
    rw [heq, hlit _ (by decide)]
    rfl
  · split
    · rename_i heq
      rw [heq, hlit _ (by decide)]
      rfl
    · split
      · rename_i heq
        rw [heq, hlit _ (by decide)]
        rfl
      · split
        · rename_i heq
          rw [heq, hlit _ (by decide)]
          rfl
        · rename_i hamp hlt _ _
          refine Xml.characters_legal ?_
          simp [h, hamp, hlt]

/-- An escaped message is text exactly when its characters may stand in a document. -/
theorem characters_escaped {literal : Char → Char} (message : List Char)
    (hlit : ∀ d ∈ ['&', '<', '>', '"'], literal d = d) :
    Xml.characters literal none (escaped message) =
      if message.all Xml.isChar then some (message.map literal) else none := by
  induction message with
  | nil => rfl
  | cons c message ih =>
    rw [escaped_cons, List.all_cons]
    by_cases hc : Xml.isChar c = true
    · rw [Xml.characters_append (characters_entity c hc hlit), ih, hc, Bool.true_and]
      split <;> rfl
    · have hself : entity c = [c] := by
        unfold entity
        split_ifs with h1 h2 h3 h4
        · exact absurd (h1 ▸ rfl) hc
        · exact absurd (h2 ▸ rfl) hc
        · exact absurd (h3 ▸ rfl) hc
        · exact absurd (h4 ▸ rfl) hc
        · rfl
      have hamp : c ≠ '&' := by
        rintro rfl
        exact hc rfl
      rw [hself, List.singleton_append, Xml.characters, if_neg hamp,
        if_pos (.inr (by simpa using hc))]
      simp [hc]

theorem lineEnds_escaped (message : List Char) :
    Xml.lineEnds (escaped message) = escaped (Xml.lineEnds message) := by
  fun_induction Xml.lineEnds message with
  | case1 => rfl
  | case2 cs ih =>
    rw [escaped_cons, escaped_cons, escaped_cons, ← ih]
    rfl
  | case3 c cs hne ih =>
    rw [escaped_cons, escaped_cons, ← ih]
    by_cases hr : c = '\r'
    · subst hr
      show Xml.lineEnds ('\r' :: escaped cs) = '\n' :: Xml.lineEnds (escaped cs)
      rw [Xml.lineEnds, if_pos rfl]
      intro rest _ heq
      cases cs with
      | nil => cases heq
      | cons d ds =>
        rw [escaped_cons] at heq
        have hd : d = '\n' := by
          unfold entity at heq
          split_ifs at heq
          · cases heq
          · cases heq
          · cases heq
          · cases heq
          · exact (List.cons.inj heq).1
        exact hne ds rfl (by rw [hd])
    · rw [if_neg hr]
      unfold entity
      split_ifs with h1 h2 h3 h4
      · rfl
      · rfl
      · rfl
      · rfl
      · exact Xml.lineEnds_cons _ hr

/-- An escaped message reads as itself exactly when an attribute can carry it. -/
theorem value_escaped (message : List Char) :
    Xml.value (escaped message) = some message ↔ CarriedMessage message := by
  have hlit : ∀ d ∈ ['&', '<', '>', '"'], Xml.blank d = d := by simp [Xml.blank, Xml.isSpace]
  have hspace := Xml.map_blank_lineEnds_eq_self message
  rw [Xml.value, lineEnds_escaped, characters_escaped _ hlit]
  constructor
  · intro h
    split at h
    · rename_i hall
      have hnone := hspace.mp (Option.some.inj h)
      have hr : '\r' ∉ message := fun hmem => hnone _ hmem (by decide)
      rw [Xml.lineEnds_self hr, List.all_eq_true] at hall
      exact fun c hc => ⟨hall c hc, hnone c hc⟩
    · cases h
  · intro h
    have hr : '\r' ∉ message := fun hmem => (h _ hmem).2 (by decide)
    have hall : (Xml.lineEnds message).all Xml.isChar = true := by
      rw [Xml.lineEnds_self hr, List.all_eq_true]
      exact fun c hc => (h c hc).1
    rw [if_pos hall, hspace.mpr fun c hc => (h c hc).2]

/-! ## The events of a test case -/

def position (d : CheckerDiagnostic) (col : Nat) : List Char :=
  ":".toList ++ (lineNumber d ++ (":".toList ++ (digits col ++ (": ".toList ++ (d.code.toList ++
    ": ".toList)))))

def detailStart (d : CheckerDiagnostic) (col : Nat) : List Char :=
  "\n        ".toList ++ (d.path.toList ++ position d col)

/-- The text of a problem. -/
def detail (d : CheckerDiagnostic) (col : Nat) : List Char :=
  detailStart d col ++ (escaped d.message.toList ++ "\n      ".toList)

/-- What follows the tag of the problem. -/
def afterProblem (d : CheckerDiagnostic) (col : Nat) (rest : List Char) : List Char :=
  detail d col ++ '<' :: '/' :: (d.severity.tag ++ '>' ::
    ("\n    ".toList ++ '<' :: '/' :: ("testcase".toList ++ '>' :: rest)))

/-- What follows the tag of the test case. -/
def afterHead (d : CheckerDiagnostic) (col : Nat) (rest : List Char) : List Char :=
  "\n      ".toList ++ '<' :: (d.severity.tag ++ ' ' :: ("message".toList ++ '=' :: '"' ::
    (escaped d.message.toList ++ '"' :: ' ' :: ("type".toList ++ '=' :: '"' ::
      (d.code.toList ++ '"' :: '>' :: afterProblem d col rest)))))

theorem junitCase_eq (d : CheckerDiagnostic) (col : Nat) (rest : List Char) :
    '\n' :: (junitCase d col ++ rest) =
      "\n    ".toList ++ '<' :: ("testcase".toList ++ ' ' :: ("name".toList ++ '=' :: '"' ::
        (caseName d ++ '"' :: ' ' :: ("classname".toList ++ '=' :: '"' ::
          (d.path.toList ++ '"' :: '>' :: afterHead d col rest))))) := by
  unfold junitCase afterHead afterProblem detail detailStart position caseName lineNumber
  simp only [String.reduceToList, List.append_assoc, List.cons_append]
  rfl

theorem Severity.isName_tag (severity : Severity) : Xml.isName severity.tag = true := by
  cases severity <;> rfl

theorem caseName_clean {d : CheckerDiagnostic} (h : AttributePath d.path.toList) :
    ∀ c ∈ caseName d, Xml.Plain c ∧ c ≠ '"' := by
  have hcolon : Xml.Plain ':' ∧ Xml.Plain ' ' := by decide
  intro c hc
  simp only [caseName, List.mem_append, String.reduceToList, List.mem_cons, List.not_mem_nil,
    or_false] at hc
  rcases hc with hc | (rfl | rfl) | (hc | rfl) | hc
  · exact d.code_plain c hc
  · exact ⟨hcolon.1, by decide⟩
  · exact ⟨hcolon.2, by decide⟩
  · exact h c hc
  · exact ⟨hcolon.1, by decide⟩
  · exact digits_plain _ c hc

theorem value_clean {text : List Char} (h : ∀ c ∈ text, Xml.Plain c ∧ c ≠ '"') :
    '"' ∉ text ∧ Xml.value text = some text :=
  ⟨fun hmem => (h _ hmem).2 rfl, (Xml.value_self text).mpr fun c hc => (h c hc).1⟩

/-- What an entity is made of. -/
theorem mem_entity {c d : Char} (h : d ∈ entity c) :
    (d = c ∧ c ∉ ['&', '<', '>', '"']) ∨ d ∈ "&;ampltgquo".toList := by
  unfold entity at h
  split_ifs at h with h1 h2 h3 h4
  · exact .inr ((show "&amp;".toList ⊆ "&;ampltgquo".toList by decide) h)
  · exact .inr ((show "&lt;".toList ⊆ "&;ampltgquo".toList by decide) h)
  · exact .inr ((show "&gt;".toList ⊆ "&;ampltgquo".toList by decide) h)
  · exact .inr ((show "&quot;".toList ⊆ "&;ampltgquo".toList by decide) h)
  · refine .inl ⟨List.mem_singleton.mp h, ?_⟩
    simp [h1, h2, h3, h4]

theorem not_mem_escaped {d : Char} {message : List Char} (hd : d ∉ "&;ampltgquo".toList)
    (h : d ∈ message → d ∈ ['&', '<', '>', '"']) : d ∉ escaped message := by
  rw [escaped_eq, List.mem_flatMap]
  rintro ⟨c, hc, hent⟩
  rcases mem_entity hent with ⟨rfl, hne⟩ | hmem
  · exact hne (h hc)
  · exact hd hmem

theorem quote_not_mem_escaped (message : List Char) : '"' ∉ escaped message :=
  not_mem_escaped (by decide) fun _ => by decide

theorem angle_not_mem_escaped (message : List Char) :
    '<' ∉ escaped message ∧ '>' ∉ escaped message :=
  ⟨not_mem_escaped (by decide) fun _ => by decide, not_mem_escaped (by decide) fun _ => by decide⟩

/-- The events of the tag of a test case. -/
theorem events_head {d : CheckerDiagnostic} (h : AttributePath d.path.toList) (col : Nat)
    (rest : List Char) :
    Xml.events ('\n' :: (junitCase d col ++ rest)) =
      (Xml.events (afterHead d col rest)).map fun es =>
        .text "\n    ".toList :: .opened "testcase".toList
          [("name".toList, caseName d), ("classname".toList, d.path.toList)] :: es := by
  obtain ⟨hname, hvalue⟩ := value_clean (caseName_clean h)
  obtain ⟨hpath, hclass⟩ := value_clean h
  rw [junitCase_eq, Xml.events_text (by decide) (by decide),
    Xml.content_space (by decide), Option.bind_some,
    Xml.events_start (by decide), Xml.attrs_value (by decide) hname hvalue,
    Xml.attrs_value (by decide) hpath hclass, Xml.attrs_close]
  simp only [Option.map_some, Option.bind_some]
  rw [if_pos (by simp), Option.map_map]
  rfl

/-- The events of the tag of a problem, when its message can be read. -/
theorem events_problem (d : CheckerDiagnostic) (col : Nat) (rest : List Char) {m : List Char}
    (hm : Xml.value (escaped d.message.toList) = some m) :
    Xml.events (afterHead d col rest) =
      (Xml.events (afterProblem d col rest)).map fun es =>
        .text "\n      ".toList :: .opened d.severity.tag
          [("message".toList, m), ("type".toList, d.code.toList)] :: es := by
  obtain ⟨hcode, htype⟩ := value_clean d.code_plain
  unfold afterHead
  rw [Xml.events_text (by decide) (by decide),
    Xml.content_space (by decide), Option.bind_some,
    Xml.events_start d.severity.isName_tag,
    Xml.attrs_value (by decide) (quote_not_mem_escaped _) hm,
    Xml.attrs_value (by decide) hcode htype, Xml.attrs_close]
  simp only [Option.map_some, Option.bind_some]
  rw [if_pos (by simp), Option.map_map]
  rfl

theorem value_of_events_problem {d : CheckerDiagnostic} {col : Nat} {rest : List Char}
    {es : List Xml.Event}
    (h : Xml.events (afterHead d col rest) = some es) :
    ∃ m, Xml.value (escaped d.message.toList) = some m := by
  unfold afterHead at h
  rw [Xml.events_text (by decide) (by decide),
    Xml.content_space (by decide), Option.bind_some,
    Xml.events_start d.severity.isName_tag] at h
  obtain ⟨fs, hfs, -⟩ := Option.map_eq_some_iff.mp h
  obtain ⟨⟨as, isEmpty, more⟩, has, -⟩ := Option.bind_eq_some_iff.mp hfs
  obtain ⟨v, r, bs, hv, -⟩ := Xml.attrs_quoted (by decide) has
  rw [Xml.quoted_value (quote_not_mem_escaped _)] at hv
  obtain ⟨m, hm, -⟩ := Option.map_eq_some_iff.mp hv
  exact ⟨m, hm⟩

/-- The events of the ends of a problem and of its test case. -/
theorem events_ends (d : CheckerDiagnostic) (rest : List Char) :
    Xml.events ('<' :: '/' :: (d.severity.tag ++ '>' ::
        ("\n    ".toList ++ '<' :: '/' :: ("testcase".toList ++ '>' :: rest)))) =
      (Xml.events rest).map fun es =>
        .closed d.severity.tag :: .text "\n    ".toList :: .closed "testcase".toList :: es := by
  rw [Xml.events_end d.severity.isName_tag, Xml.events_text (by decide) (by decide),
    Xml.content_space (by decide), Option.bind_some,
    Xml.events_end (by decide), Option.map_map, Option.map_map]
  rfl

/-- The events behind the tag of a problem, when its text can be read. -/
theorem events_detail {d : CheckerDiagnostic} {col : Nat} (rest : List Char)
    (h : '<' ∉ detail d col) :
    Xml.events (afterProblem d col rest) =
      (Xml.content (detail d col)).bind fun text =>
        (Xml.events rest).map fun es =>
          .text text :: .closed d.severity.tag :: .text "\n    ".toList ::
            .closed "testcase".toList :: es := by
  have hne : detail d col ≠ [] := by
    unfold detail detailStart
    exact List.append_ne_nil_of_left_ne_nil (List.append_ne_nil_of_left_ne_nil (by decide) _) _
  unfold afterProblem
  rw [Xml.events_text h hne, events_ends]
  cases Xml.content (detail d col) with
  | none => rfl
  | some text => rw [Option.bind_some, Option.bind_some, Option.map_map]; rfl

/-- A character that text spells as itself. -/
def Legible (c : Char) : Prop := Xml.isChar c = true ∧ c ≠ '&' ∧ c ≠ '<' ∧ c ≠ '\r'

instance : DecidablePred Legible := fun _ => inferInstanceAs (Decidable (_ ∧ _))

theorem legible_of_plain {c : Char} (h : Xml.Plain c) : Legible c := by
  have hne := h.2
  simp only [List.mem_cons, List.not_mem_nil, or_false, not_or] at hne
  exact ⟨h.1, hne.1, hne.2.1, hne.2.2.2.2⟩

theorem legible_of_all {text : List Char} (h : text.all (fun c => decide (Legible c)) = true) :
    ∀ c ∈ text, Legible c := by
  intro c hc
  exact of_decide_eq_true (List.all_eq_true.mp h c hc)

theorem position_legible (d : CheckerDiagnostic) (col : Nat) :
    ∀ c ∈ position d col, Legible c ∧ c ≠ '>' := by
  have hall : ∀ {text : List Char}, text.all (fun c => decide (Legible c ∧ c ≠ '>')) = true →
      ∀ c ∈ text, Legible c ∧ c ≠ '>' := by
    intro text h c hc
    exact of_decide_eq_true (List.all_eq_true.mp h c hc)
  have halphanum : ∀ c : Char, c.isAlphanum = true → Legible c ∧ c ≠ '>' := by
    intro c hc
    refine ⟨legible_of_plain (plain_of_isAlphanum hc).1, ?_⟩
    rintro rfl
    exact absurd hc (by decide)
  unfold position
  rw [List.forall_mem_append, List.forall_mem_append, List.forall_mem_append,
    List.forall_mem_append, List.forall_mem_append, List.forall_mem_append]
  have hdigits : ∀ n, ∀ c ∈ digits n, Legible c ∧ c ≠ '>' :=
    fun n c hc => halphanum c (digits_alphanum n c hc)
  exact ⟨hall (by decide), hdigits _, hall (by decide), hdigits _, hall (by decide),
    fun c hc => halphanum c (d.code_alphanum c hc), hall (by decide)⟩

theorem detailStart_legible {d : CheckerDiagnostic} (h : AttributePath d.path.toList) (col : Nat) :
    ∀ c ∈ detailStart d col, Legible c := by
  unfold detailStart
  rw [List.forall_mem_append, List.forall_mem_append]
  exact ⟨legible_of_all (by decide), fun c hc => legible_of_plain (h c hc).1,
    fun c hc => (position_legible d col c hc).1⟩

theorem sectionEnd_detail (d : CheckerDiagnostic) (col : Nat) :
    "]]>".toList <:+: detail d col ↔ "]]>".toList <:+: d.path.toList := by
  have hafter : '>' ∉ position d col ++ (escaped d.message.toList ++ "\n      ".toList) := by
    rw [List.mem_append, List.mem_append]
    rintro (hmem | hmem | hmem)
    · exact (position_legible d col _ hmem).2 rfl
    · exact (angle_not_mem_escaped _).2 hmem
    · exact absurd hmem (by decide)
  unfold detail detailStart
  rw [List.append_assoc, List.append_assoc,
    infix_append_right rfl (show ']' ∉ "\n        ".toList by decide), infix_append_left rfl hafter]

/-- The text of a problem can be read when no path ends a section. -/
theorem content_detail {d : CheckerDiagnostic} (hpath : AttributePath d.path.toList)
    (hmessage : CarriedMessage d.message.toList) (col : Nat) :
    Xml.content (detail d col) =
      if "]]>".toList <:+: d.path.toList then none
      else some (detailStart d col ++ (d.message.toList ++ "\n      ".toList)) := by
  have hstart := detailStart_legible hpath col
  have hr : '\r' ∉ detail d col := by
    rw [detail, List.mem_append, List.mem_append]
    rintro (hmem | hmem | hmem)
    · exact (hstart _ hmem).2.2.2 rfl
    · refine not_mem_escaped (by decide) (fun hcr => ?_) hmem
      exact absurd (by decide) (hmessage _ hcr).2
    · exact absurd hmem (by decide)
  unfold Xml.content
  rw [Xml.lineEnds_self hr]
  simp only [sectionEnd_detail]
  congr 1
  have hall : d.message.toList.all Xml.isChar = true :=
    List.all_eq_true.mpr fun c hc => (hmessage c hc).1
  have hescaped := @characters_escaped id d.message.toList fun _ _ => rfl
  rw [if_pos hall, List.map_id] at hescaped
  have hlegal := @Xml.characters_legal id (detailStart d col)
    fun c hc => ⟨(hstart c hc).1, (hstart c hc).2.1, (hstart c hc).2.2.1⟩
  rw [List.map_id] at hlegal
  rw [detail, Xml.characters_append hlegal, Xml.characters_append hescaped]
  rfl

theorem lt_not_mem_detail {d : CheckerDiagnostic} (hpath : AttributePath d.path.toList)
    (col : Nat) :
    '<' ∉ detail d col := by
  rw [detail, List.mem_append, List.mem_append]
  rintro (hmem | hmem | hmem)
  · exact (detailStart_legible hpath col _ hmem).2.2.1 rfl
  · exact (angle_not_mem_escaped _).1 hmem
  · exact absurd hmem (by decide)

/-- The events of a test case. -/
def caseEvents (d : CheckerDiagnostic) (col : Nat) : List Xml.Event :=
  [.text "\n    ".toList, .opened "testcase".toList
      [("name".toList, caseName d), ("classname".toList, d.path.toList)],
    .text "\n      ".toList, .opened d.severity.tag
      [("message".toList, d.message.toList), ("type".toList, d.code.toList)],
    .text (detailStart d col ++ (d.message.toList ++ "\n      ".toList)), .closed d.severity.tag,
    .text "\n    ".toList, .closed "testcase".toList]

theorem events_case {d : CheckerDiagnostic} (h : Carried d) (col : Nat) (rest : List Char) :
    Xml.events ('\n' :: (junitCase d col ++ rest)) =
      (Xml.events rest).map (caseEvents d col ++ ·) := by
  rw [events_head h.path, events_problem d col rest ((value_escaped _).mpr h.message),
    events_detail rest (lt_not_mem_detail h.path col), content_detail h.path h.message,
    if_neg h.noSectionEnd, Option.bind_some, Option.map_map, Option.map_map]
  rfl

theorem testCases_some {head : List (List Char × List Char)} {es : List Xml.Event} {t : TestCase}
    {more : List TestCase} (h : testCases (some head) es = t :: more) :
    ∃ problem, t = .of head problem := by
  induction es with
  | nil => cases h
  | cons e es ih =>
    cases e with
    | opened n as => exact ⟨as, (List.cons.inj h).1.symm⟩
    | empty n as => exact ⟨as, (List.cons.inj h).1.symm⟩
    | closed n => exact ⟨[], (List.cons.inj h).1.symm⟩
    | text c => exact ih h
    | aside => exact ih h

/-- A test case that reads as its diagnostic has a path that an attribute can hold. -/
theorem path_of_events {d : CheckerDiagnostic} {col : Nat} {rest : List Char} {es : List Xml.Event}
    {more : List TestCase} (h : Xml.events ('\n' :: (junitCase d col ++ rest)) = some es)
    (hcases : testCases none es = d.testCase :: more) : AttributePath d.path.toList := by
  rw [junitCase_eq, Xml.events_text (by decide) (by decide), Xml.content_space (by decide),
    Option.bind_some, Xml.events_start (by decide)] at h
  obtain ⟨fs, hfs, rfl⟩ := Option.map_eq_some_iff.mp h
  obtain ⟨⟨as, isEmpty, after⟩, has, hrest⟩ := Option.bind_eq_some_iff.mp hfs
  obtain ⟨v, r, bs, hv, rfl, -⟩ := Xml.attrs_quoted (by decide) has
  dsimp only at hrest
  split at hrest
  · obtain ⟨gs, -, rfl⟩ := Option.map_eq_some_iff.mp hrest
    have hname : ∃ problem, d.testCase = .of (("name".toList, v) :: bs) problem := by
      cases isEmpty with
      | true => exact ⟨[], (List.cons.inj hcases).1.symm⟩
      | false => exact testCases_some hcases
    obtain ⟨problem, hproblem⟩ := hname
    have hself : caseName d = v := congrArg TestCase.name hproblem
    rw [← hself] at hv
    obtain ⟨hquote, hplain, -⟩ := Xml.quoted_self hv
    intro c hc
    have hmem : c ∈ caseName d := by
      simp only [caseName, List.mem_append]
      exact .inr (.inr (.inl (.inl hc)))
    exact ⟨hplain c hmem, fun heq => hquote (heq ▸ hmem)⟩
  · cases hrest

/-- A test case that reads as its diagnostic carries it. -/
theorem carried_of_events {d : CheckerDiagnostic} {col : Nat} {rest : List Char}
    {es : List Xml.Event}
    {more : List TestCase} (h : Xml.events ('\n' :: (junitCase d col ++ rest)) = some es)
    (hcases : testCases none es = d.testCase :: more) : Carried d := by
  have hpath := path_of_events h hcases
  rw [events_head hpath] at h
  obtain ⟨fs, hfs, rfl⟩ := Option.map_eq_some_iff.mp h
  obtain ⟨m, hm⟩ := value_of_events_problem hfs
  rw [events_problem d col rest hm] at hfs
  obtain ⟨gs, hgs, rfl⟩ := Option.map_eq_some_iff.mp hfs
  have hself : m = d.message.toList := congrArg TestCase.message (List.cons.inj hcases).1
  rw [hself] at hm
  have hmessage := (value_escaped _).mp hm
  refine ⟨hpath, ?_, hmessage⟩
  intro hend
  rw [events_detail rest (lt_not_mem_detail hpath col), content_detail hpath hmessage,
    if_pos hend] at hgs
  cases hgs

/-! ## The report -/

/-- The attributes of the one suite. -/
def suiteAttrs (diags : List CheckerDiagnostic) : List (List Char × List Char) :=
  [("name".toList, "ry-check".toList),
    ("errors".toList, digits (diags.countP (·.severity = .error))),
    ("failures".toList, digits (diags.countP (·.severity = .warning))),
    ("tests".toList, digits diags.length)]

def headerEvents (diags : List CheckerDiagnostic) : List Xml.Event :=
  [.text "\n".toList, .opened "testsuites".toList [("name".toList, "ry".toList)],
    .text "\n  ".toList, .opened "testsuite".toList (suiteAttrs diags)]

def footerEvents : List Xml.Event :=
  [.text "\n  ".toList, .closed "testsuite".toList, .text "\n".toList, .closed "testsuites".toList,
    .text "\n".toList]

/-- What follows the tag of the suite. -/
def suiteBody (cases : List (List Char)) : List Char :=
  '\n' :: (endedLines cases ++ "  </testsuite>\n</testsuites>\n".toList)

/-- An attribute of a tag, and what follows it. -/
def withAttr (key : String) (text rest : List Char) : List Char :=
  ' ' :: (key.toList ++ '=' :: '"' :: (text ++ '"' :: rest))

/-- A report with the suite's body. -/
def suite (diags : List CheckerDiagnostic) (body : List Char) : List Char :=
  "\n".toList ++ '<' :: ("testsuites".toList ++ withAttr "name" "ry".toList ('>' ::
    ("\n  ".toList ++ '<' :: ("testsuite".toList ++ withAttr "name" "ry-check".toList
      (withAttr "errors" (digits (diags.countP (·.severity = .error)))
        (withAttr "failures" (digits (diags.countP (·.severity = .warning)))
          (withAttr "tests" (digits diags.length) ('>' :: body))))))))

theorem junit_eq {diags : List CheckerDiagnostic} {srcs : String → Option (List Char)}
    {out : List Char}
    (h : junit diags srcs = some out) :
    ∃ cases, diags.mapM (fun d => (charColFor d srcs).map (junitCase d)) = some cases ∧
      out = Xml.declaration ++ suite diags (suiteBody cases) := by
  obtain ⟨cases, hcases, rfl⟩ := Option.map_eq_some_iff.mp h
  refine ⟨cases, hcases, ?_⟩
  unfold Xml.declaration suite suiteBody withAttr
  simp only [String.reduceToList, List.append_assoc, List.cons_append]
  rfl

theorem events_suite (diags : List CheckerDiagnostic) (body : List Char) :
    Xml.events (suite diags body) = (Xml.events body).map (headerEvents diags ++ ·) := by
  have hdigits : ∀ n, '"' ∉ digits n ∧ Xml.value (digits n) = some (digits n) :=
    fun n => value_clean (digits_plain n)
  have hry : Xml.value "ry".toList = some "ry".toList := rfl
  have hcheck : Xml.value "ry-check".toList = some "ry-check".toList := rfl
  unfold suite withAttr
  rw [Xml.events_text (by decide) (by decide), Xml.content_space (by decide), Option.bind_some,
    Xml.events_start (by decide), Xml.attrs_value (by decide) (by decide) hry, Xml.attrs_close,
    Option.map_some, Option.bind_some]
  dsimp only
  rw [if_pos (by simp), Xml.events_text (by decide) (by decide), Xml.content_space (by decide),
    Option.bind_some, Xml.events_start (by decide), Xml.attrs_value (by decide) (by decide) hcheck,
    Xml.attrs_value (by decide) (hdigits _).1 (hdigits _).2,
    Xml.attrs_value (by decide) (hdigits _).1 (hdigits _).2,
    Xml.attrs_value (by decide) (hdigits _).1 (hdigits _).2, Xml.attrs_close]
  simp only [Option.map_some, Option.bind_some, Bool.false_eq_true, if_false]
  rw [if_pos (by simp), Option.map_map, Option.map_map, Option.map_map]
  rfl

theorem events_footer : Xml.events "\n  </testsuite>\n</testsuites>\n".toList =
    some footerEvents := by
  have hlast : Xml.events "\n".toList = some [.text "\n".toList] := by
    have htoken : Xml.token "\n".toList = some (.text "\n".toList, []) := rfl
    rw [Xml.events_cons htoken (by decide), Xml.events_nil]
    rfl
  have hsplit : "\n  </testsuite>\n</testsuites>\n".toList =
      "\n  ".toList ++ '<' :: '/' :: ("testsuite".toList ++ '>' ::
        ("\n".toList ++ '<' :: '/' :: ("testsuites".toList ++ '>' :: "\n".toList))) := rfl
  rw [hsplit, Xml.events_text (by decide) (by decide), Xml.content_space (by decide),
    Option.bind_some, Xml.events_end (by decide), Xml.events_text (by decide) (by decide),
    Xml.content_space (by decide), Option.bind_some, Xml.events_end (by decide), hlast]
  rfl

theorem mapM_cons_some {A B : Type} {f : A → Option B} {a : A} {as : List A} {bs : List B}
    (h : (a :: as).mapM f = some bs) :
    ∃ b cs, f a = some b ∧ as.mapM f = some cs ∧ bs = b :: cs := by
  rw [List.mapM_cons] at h
  obtain ⟨b, hb, hrest⟩ := Option.bind_eq_some_iff.mp h
  obtain ⟨cs, hcs, heq⟩ := Option.bind_eq_some_iff.mp hrest
  exact ⟨b, cs, hb, hcs, (Option.some.inj heq).symm⟩

theorem endedLines_append_cons (line : List Char) (lines : List (List Char)) (tail : List Char) :
    '\n' :: (endedLines (line :: lines) ++ tail) =
      '\n' :: (line ++ '\n' :: (endedLines lines ++ tail)) := by
  simp [endedLines]

theorem nested_caseEvents (d : CheckerDiagnostic) (col : Nat) (n : List Char)
    (stack : List (List Char)) (es : List Xml.Event) :
    Xml.nested (n :: stack) true (caseEvents d col ++ es) = Xml.nested (n :: stack) true es := by
  simp [caseEvents, Xml.nested]

theorem testCases_caseEvents (d : CheckerDiagnostic) (col : Nat) (es : List Xml.Event) :
    testCases none (caseEvents d col ++ es) = d.testCase :: testCases none es := rfl

/-- The events of the test cases, when all are carried. -/
theorem events_cases {f : CheckerDiagnostic → Option (List Char)} {diags : List CheckerDiagnostic}
    {cases : List (List Char)} (hf : ∀ d c, f d = some c → ∃ col, c = junitCase d col)
    (hcases : diags.mapM f = some cases) (h : ∀ d ∈ diags, Carried d) :
    ∃ middle : List Xml.Event,
      (∀ tail, Xml.events ('\n' :: (endedLines cases ++ tail)) =
        (Xml.events ('\n' :: tail)).map (middle ++ ·)) ∧
      (∀ es, testCases none (middle ++ es) =
        diags.map CheckerDiagnostic.testCase ++ testCases none es) ∧
      ∀ n stack es,
        Xml.nested (n :: stack) true (middle ++ es) = Xml.nested (n :: stack) true es := by
  induction diags generalizing cases with
  | nil =>
    obtain rfl : cases = [] := by simpa using hcases.symm
    exact ⟨[], fun tail => by simp [endedLines], fun es => rfl, fun n stack es => rfl⟩
  | cons d ds ih =>
    obtain ⟨c, cs, hc, hcs, rfl⟩ := mapM_cons_some hcases
    obtain ⟨col, hcol⟩ := hf d c hc
    rw [List.forall_mem_cons] at h
    obtain ⟨middle, hevents, hread, hnested⟩ := ih hcs h.2
    refine ⟨caseEvents d col ++ middle, ?_, ?_, ?_⟩
    · intro tail
      rw [endedLines_append_cons, hcol, events_case h.1, hevents, Option.map_map]
      rfl
    · intro es
      rw [List.append_assoc, testCases_caseEvents, hread]
      rfl
    · intro n stack es
      rw [List.append_assoc, nested_caseEvents, hnested]

/-- Test cases that read as the diagnostics carry them. -/
theorem carried_of_cases {f : CheckerDiagnostic → Option (List Char)}
    {diags : List CheckerDiagnostic}
    {cases : List (List Char)} {tail : List Char} {es : List Xml.Event}
    (hf : ∀ d c, f d = some c → ∃ col, c = junitCase d col)
    (hcases : diags.mapM f = some cases)
    (hes : Xml.events ('\n' :: (endedLines cases ++ tail)) = some es)
    (hread : testCases none es = diags.map CheckerDiagnostic.testCase) :
    ∀ d ∈ diags, Carried d := by
  induction diags generalizing cases es with
  | nil =>
    intro d hd
    cases hd
  | cons d ds ih =>
    obtain ⟨c, cs, hc, hcs, rfl⟩ := mapM_cons_some hcases
    obtain ⟨col, hcol⟩ := hf d c hc
    rw [endedLines_append_cons, hcol] at hes
    have hcarried := carried_of_events hes hread
    rw [events_case hcarried] at hes
    obtain ⟨fs, hfs, rfl⟩ := Option.map_eq_some_iff.mp hes
    rw [testCases_caseEvents, List.map_cons] at hread
    rw [List.forall_mem_cons]
    exact ⟨hcarried, ih hcs hfs (List.cons.inj hread).2⟩

/-- The JUnit report reads as its diagnostics exactly when each is carried. -/
theorem junit_document {diags : List CheckerDiagnostic} {srcs : String → Option (List Char)}
    {out : List Char}
    (h : junit diags srcs = some out) : DocumentOf out diags ↔ ∀ d ∈ diags, Carried d := by
  obtain ⟨cases, hcases, rfl⟩ := junit_eq h
  have hf : ∀ d c, (charColFor d srcs).map (junitCase d) = some c → ∃ col, c = junitCase d col := by
    intro d c hc
    obtain ⟨col, -, rfl⟩ := Option.map_eq_some_iff.mp hc
    exact ⟨col, rfl⟩
  unfold DocumentOf
  rw [Xml.document_declared, events_suite]
  constructor
  · rintro ⟨es, hes, hread⟩
    obtain ⟨hes, -⟩ := Option.filter_eq_some_iff.mp hes
    obtain ⟨fs, hfs, rfl⟩ := Option.map_eq_some_iff.mp hes
    exact carried_of_cases hf hcases hfs hread
  · intro hcarried
    obtain ⟨middle, hevents, hread, hnested⟩ := events_cases hf hcases hcarried
    refine ⟨headerEvents diags ++ (middle ++ footerEvents), ?_, ?_⟩
    · have hfooter : Xml.events ('\n' :: "  </testsuite>\n</testsuites>\n".toList) =
          some footerEvents := events_footer
      have hnest : Xml.nested [] false (headerEvents diags ++ (middle ++ footerEvents)) =
          Xml.nested ["testsuite".toList, "testsuites".toList] true footerEvents := by
        rw [← hnested]
        rfl
      rw [suiteBody, hevents, hfooter, Option.map_some, Option.map_some, Option.filter_some,
        if_pos (by rw [hnest]; rfl)]
    · have hskip : testCases none (headerEvents diags ++ (middle ++ footerEvents)) =
          testCases none (middle ++ footerEvents) := rfl
      rw [hskip, hread]
      exact List.append_nil _

end Ry
