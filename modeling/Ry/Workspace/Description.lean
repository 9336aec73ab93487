import Ry.Lib.Folding
import Ry.Lib.Table
import Ry.Suppress.Conservative

/-! # The packages a DESCRIPTION names

`read_description_packages` of `lib.rs`: the file is read line by line, a line that begins with a
blank goes on with the field before it, and the entries of `Depends` and `Suggests` are split at
commas.  Beside it, the format and R's reading of it.
-/

namespace Ry

structure DescriptionPackages where
  depends : Finset (List Char)
  suggests : Finset (List Char)
deriving DecidableEq

/-- The fields read so far, and the one that a continuation line goes on with. -/
structure FieldReader where
  fields : Table (List Char) (List Char)
  current : Option (List Char)

def isContinuation (line : List Char) : Bool := line.head?.any fun c => c = ' ' || c = '\t'

/-- `line.split_once(':')` -/
def splitColon (line : List Char) : Option (List Char × List Char) :=
  if ':' ∈ line then some (line.takeWhile (· ≠ ':'), (line.dropWhile (· ≠ ':')).tail) else none

namespace FieldReader

def start : FieldReader := ⟨∅, none⟩

def read (s : FieldReader) (line : List Char) : FieldReader :=
  if isContinuation line then
    match s.current with
    | some name =>
      { s with fields := s.fields.insert name ((s.fields.lookup name).getD [] ++ trim line) }
    | none => s
  else
    match splitColon line with
    | some (name, value) => ⟨s.fields.insert name (trim value), some name⟩
    | none => s

end FieldReader

/-- The packages of one field. -/
def fieldPackages (fields : Table (List Char) (List Char)) (field : String) : Finset (List Char) :=
  ((((fields.lookup field.toList).toList.flatMap commaParts).filterMap fun entry =>
    (splitWhitespace entry).head?).filter fun name =>
      !name.isEmpty && name != "R".toList).toFinset

/-- `none` is a file that cannot be read. -/
def readDescriptionPackages (text : Option (List Char)) : DescriptionPackages :=
  match text with
  | none => ⟨∅, ∅⟩
  | some text =>
    let fields := ((sourceLines text).foldl FieldReader.read .start).fields
    ⟨fieldPackages fields "Depends", fieldPackages fields "Suggests"⟩

/-! ## The format -/

/-- The white space of the format, the line feeds of continued values included. -/
def isDcfBlank (c : Char) : Bool := c = ' ' || c = '\t' || c = '\n'

/-- What a package's name is made of. -/
def isPackageChar (c : Char) : Bool := c.isAlphanum || c = '.'

/-- A field, its value with the line feeds of its continuation lines. -/
structure DcfField where
  name : List Char
  value : List Char
  name_ne_nil : name ≠ []
  name_first : isContinuation name = false
  name_plain : ∀ c ∈ name, c ≠ ':' ∧ c ≠ '\n'
  continued : ∀ line ∈ (rawLines value).tail, isContinuation line = true

def DcfField.lines (f : DcfField) : List (List Char) := rawLines (f.name ++ ':' :: f.value)

/-- An entry of a dependency field: a package's name, its version requirement in parentheses if it
has one, and white space around them. -/
inductive IsDependency : List Char → Prop
  | blank (blanks : List Char) (hblanks : ∀ c ∈ blanks, isDcfBlank c = true) : IsDependency blanks
  | package (before name after : List Char) (hbefore : ∀ c ∈ before, isDcfBlank c = true)
      (hne : name ≠ []) (hname : ∀ c ∈ name, isPackageChar c = true)
      (hafter : ∀ c ∈ after, isDcfBlank c = true) : IsDependency (before ++ name ++ after)
  | versioned (before name gap version after : List Char)
      (hbefore : ∀ c ∈ before, isDcfBlank c = true)
      (hne : name ≠ []) (hname : ∀ c ∈ name, isPackageChar c = true)
      (hgap : ∀ c ∈ gap, isDcfBlank c = true) (hversion : ',' ∉ version)
      (hafter : ∀ c ∈ after, isDcfBlank c = true) :
      IsDependency (before ++ name ++ gap ++ '(' :: version ++ ')' :: after)

/-- A DESCRIPTION: one record, whose dependency fields are lists of entries. -/
structure Description where
  fields : List DcfField
  dependencies : ∀ f ∈ fields, f.name = "Depends".toList ∨ f.name = "Suggests".toList →
    ∀ entry ∈ commaParts f.value, IsDependency entry

namespace Description

def lines (d : Description) : List (List Char) := d.fields.flatMap DcfField.lines

/-- The text of a file with the record, and blank lines around it. -/
def IsText (d : Description) (text : List Char) : Prop :=
  ∃ above below, (∀ line ∈ above ++ below, ∀ c ∈ line, c = ' ' ∨ c = '\t') ∧
    sourceLines text = above ++ d.lines ++ below

/-- The last field of the name. -/
def value (d : Description) (field : String) : Option (List Char) :=
  (d.fields.reverse.find? (·.name = field.toList)).map (·.value)

def entries (d : Description) (field : String) : List (List Char) :=
  (d.value field).toList.flatMap commaParts

end Description

/-- The name R reads of an entry. -/
def rEntryName (entry : List Char) : List Char :=
  (entry.dropWhile isDcfBlank).takeWhile isPackageChar

/-- What R reads of a dependency field, `R` itself excluded. -/
def rPackages (d : Description) (field : String) : Finset (List Char) :=
  (((d.entries field).map rEntryName).filter fun name => name ≠ [] ∧ name ≠ "R".toList).toFinset

/-- The entry has no version requirement, or white space and no line break before it. -/
def isSpaced (entry : List Char) : Bool :=
  let rest := (entry.dropWhile isDcfBlank).dropWhile isPackageChar
  rest.all isDcfBlank ||
    (rest.takeWhile isDcfBlank ≠ [] && '\n' ∉ rest.takeWhile isDcfBlank)

/-! ## The fields -/

theorem splitColon_cut {name value : List Char} (h : ':' ∉ name) :
    splitColon (name ++ ':' :: value) = some (name, value) := by
  have htake : (name ++ ':' :: value).takeWhile (· ≠ ':') = name := by
    rw [List.takeWhile_append_of_pos fun c hc => by simpa using ne_of_mem_of_not_mem hc h]
    simp
  have hdrop : (name ++ ':' :: value).dropWhile (· ≠ ':') = ':' :: value := by
    rw [List.dropWhile_append_of_pos fun c hc => by simpa using ne_of_mem_of_not_mem hc h]
    simp
  rw [splitColon, if_pos (by simp), htake, hdrop, List.tail_cons]

/-- Text before the first line feed is put before the first line. -/
theorem rawLines_prefix {before : List Char} (h : '\n' ∉ before) (text : List Char) :
    rawLines (before ++ text) = (rawLines text).modifyHead (before ++ ·) := by
  induction before with
  | nil => cases hlines : rawLines text <;> simp [hlines]
  | cons c before ih =>
    obtain ⟨hc, hbefore⟩ := not_or.mp (mt List.mem_cons.mpr h)
    rw [rawLines, List.cons_append, List.splitOnP_cons_eq_if_modifyHead,
      if_neg (by simpa using Ne.symm hc)]
    change (rawLines (before ++ text)).modifyHead (c :: ·) = _
    rw [ih hbefore, List.modifyHead_modifyHead]
    rfl

namespace FieldReader

theorem foldl_continuations {name value : List Char} {s : FieldReader}
    (hcurrent : s.current = some name) (hvalue : s.fields.lookup name = some value)
    {lines : List (List Char)} (h : ∀ line ∈ lines, isContinuation line = true) :
    (lines.foldl read s).current = some name ∧ ∀ other, (lines.foldl read s).fields.lookup other =
      if other = name then some (value ++ lines.flatMap trim) else s.fields.lookup other := by
  induction lines generalizing s value with
  | nil =>
    refine ⟨hcurrent, fun other => ?_⟩
    by_cases hother : other = name
    · subst hother
      simpa using hvalue
    · simp [hother]
  | cons line lines ih =>
    obtain ⟨hline, hlines⟩ := List.forall_mem_cons.mp h
    have hstep : s.read line =
        ⟨s.fields.insert name (value ++ trim line), some name⟩ := by
      rw [read, if_pos hline, hcurrent]
      simp [hvalue]
    rw [List.foldl_cons, hstep]
    have hinsert := Table.lookup_insert s.fields name name (value ++ trim line)
    obtain ⟨hcurrent', hfields⟩ := ih (s := ⟨s.fields.insert name (value ++ trim line), some name⟩)
      rfl (hinsert.trans (if_pos rfl)) hlines
    refine ⟨hcurrent', fun other => (hfields other).trans ?_⟩
    by_cases hother : other = name
    · simp [hother]
    · simp only [if_neg hother, Table.lookup_insert]

/-- Reading a field's lines records its value, the trimmed lines put together. -/
theorem foldl_field (f : DcfField) (s : FieldReader) :
    (f.lines.foldl read s).current = some f.name ∧ ∀ other,
      (f.lines.foldl read s).fields.lookup other =
        if other = f.name then some (Folding.joined isWhitespace f.value)
        else s.fields.lookup other := by
  have hcolon : ':' ∉ f.name := fun h => (f.name_plain _ h).1 rfl
  have hfeed : '\n' ∉ f.name ++ [':'] := by
    intro h
    rcases List.mem_append.mp h with h | h
    · exact (f.name_plain _ h).2 rfl
    · exact absurd h (by decide)
  obtain ⟨first, rest, hlines⟩ : ∃ first rest, rawLines f.value = first :: rest :=
    List.exists_cons_of_ne_nil (List.splitOnP_ne_nil _ _)
  have hfield : f.lines = (f.name ++ ':' :: first) :: rest := by
    have := rawLines_prefix hfeed f.value
    rw [hlines] at this
    simpa [DcfField.lines] using this
  have hfirst : isContinuation (f.name ++ ':' :: first) = false := by
    obtain ⟨c, cs, hname⟩ := List.exists_cons_of_ne_nil f.name_ne_nil
    have := f.name_first
    rw [hname] at this ⊢
    exact this
  have hstep : s.read (f.name ++ ':' :: first) =
      ⟨s.fields.insert f.name (trim first), some f.name⟩ := by
    rw [read, if_neg (by simp [hfirst]), splitColon_cut hcolon]
  have hrest : ∀ line ∈ rest, isContinuation line = true := by
    have := f.continued
    rwa [hlines] at this
  rw [hfield, List.foldl_cons, hstep]
  have hinsert := Table.lookup_insert s.fields f.name f.name (trim first)
  obtain ⟨hcurrent, hfields⟩ := foldl_continuations
    (s := ⟨s.fields.insert f.name (trim first), some f.name⟩) rfl (hinsert.trans (if_pos rfl)) hrest
  refine ⟨hcurrent, fun other => (hfields other).trans ?_⟩
  rw [Folding.joined, hlines, List.flatMap_cons, Table.lookup_insert]
  by_cases hother : other = f.name
  · simp only [if_pos hother]
    rfl
  · simp only [if_neg hother]

theorem foldl_fields (fields : List DcfField) (s : FieldReader) (other : List Char) :
    ((fields.flatMap DcfField.lines).foldl read s).fields.lookup other =
      ((fields.reverse.find? (·.name = other)).map fun f => Folding.joined isWhitespace f.value).or
        (s.fields.lookup other) := by
  induction fields using List.reverseRecOn with
  | nil => simp
  | append_singleton fields f ih =>
    rw [List.flatMap_append, List.foldl_append, List.flatMap_singleton, (foldl_field f _).2,
      List.reverse_append, List.reverse_singleton, List.singleton_append, List.find?_cons]
    by_cases hf : f.name = other
    · simp [hf]
    · simp [hf, Ne.symm hf, ih]

/-- A line of blanks goes on with a field, and adds nothing to it. -/
theorem read_blank {line : List Char} (h : ∀ c ∈ line, c = ' ' ∨ c = '\t') {s : FieldReader}
    (hcurrent : ∀ name, s.current = some name → (s.fields.lookup name).isSome) :
    s.read line = s := by
  have htrim : trim line = [] := by
    refine trim_eq_nil_iff.mpr fun c hc => ?_
    rcases h c hc with rfl | rfl <;> rfl
  cases line with
  | nil => rfl
  | cons c line =>
    have hcontinuation : isContinuation (c :: line) = true := by
      simpa [isContinuation] using h c List.mem_cons_self
    rw [read, if_pos hcontinuation, htrim]
    cases hname : s.current with
    | none => rfl
    | some name =>
      obtain ⟨value, hvalue⟩ := Option.isSome_iff_exists.mp (hcurrent name hname)
      have hinsert : s.fields.insert name value = s.fields := by
        refine Finmap.ext_lookup fun other => ?_
        rw [Table.lookup_insert]
        by_cases hother : other = name
        · rw [if_pos hother, hother, hvalue]
        · rw [if_neg hother]
      simp only [hvalue, Option.getD_some, List.append_nil, hinsert]
      rw [← hname]

theorem foldl_blank {lines : List (List Char)} (h : ∀ line ∈ lines, ∀ c ∈ line, c = ' ' ∨ c = '\t')
    {s : FieldReader}
    (hcurrent : ∀ name, s.current = some name → (s.fields.lookup name).isSome) :
    lines.foldl read s = s := by
  induction lines with
  | nil => rfl
  | cons line lines ih =>
    obtain ⟨hline, hlines⟩ := List.forall_mem_cons.mp h
    rw [List.foldl_cons, read_blank hline hcurrent]
    exact ih hlines

/-- The field that a continuation line goes on with has been read. -/
theorem current_fields (fields : List DcfField) (s : FieldReader)
    (hcurrent : ∀ name, s.current = some name → (s.fields.lookup name).isSome) (name : List Char)
    (h : ((fields.flatMap DcfField.lines).foldl read s).current = some name) :
    (((fields.flatMap DcfField.lines).foldl read s).fields.lookup name).isSome := by
  induction fields using List.reverseRecOn with
  | nil => exact hcurrent name h
  | append_singleton fields f ih =>
    rw [List.flatMap_append, List.foldl_append, List.flatMap_singleton] at h ⊢
    obtain ⟨hname, hfields⟩ := foldl_field f ((fields.flatMap DcfField.lines).foldl read s)
    rw [hname] at h
    rw [hfields, if_pos (Option.some.inj h).symm]
    rfl

end FieldReader

/-- A field that is read has the value of the last field of its name, unfolded. -/
theorem lookup_fields {d : Description} {text : List Char} (h : d.IsText text) (field : String) :
    ((sourceLines text).foldl FieldReader.read .start).fields.lookup field.toList =
      (d.value field).map (Folding.joined isWhitespace) := by
  obtain ⟨above, below, hblank, hlines⟩ := h
  obtain ⟨habove, hbelow⟩ := List.forall_mem_append.mp hblank
  have hstart : ∀ name, FieldReader.start.current = some name →
      (FieldReader.start.fields.lookup name).isSome := by
    rintro name ⟨⟩
  rw [hlines, List.foldl_append, List.foldl_append, FieldReader.foldl_blank habove hstart,
    Description.lines,
    FieldReader.foldl_blank hbelow (FieldReader.current_fields d.fields .start hstart),
    FieldReader.foldl_fields, Description.value, Option.map_map]
  rw [show FieldReader.start.fields.lookup field.toList = none from Finmap.lookup_empty _,
    Option.or_none]
  rfl

/-! ## The words of an entry -/

theorem isWhitespace_of_dcfBlank {c : Char} (h : isDcfBlank c = true) : isWhitespace c = true := by
  simp only [isDcfBlank, Bool.or_eq_true, decide_eq_true_eq] at h
  rcases h with (rfl | rfl) | rfl <;> decide

theorem not_isWhitespace_of_packageChar {c : Char} (h : isPackageChar c = true) :
    isWhitespace c = false := by
  have hrange : (46 = c.toNat) ∨ (48 ≤ c.toNat ∧ c.toNat ≤ 57) ∨ (65 ≤ c.toNat ∧ c.toNat ≤ 90) ∨
      (97 ≤ c.toNat ∧ c.toNat ≤ 122) := by
    simp only [isPackageChar, Char.isAlphanum, Char.isAlpha, Char.isUpper, Char.isLower,
      Char.isDigit, Bool.or_eq_true, Bool.and_eq_true, decide_eq_true_eq, ge_iff_le,
      UInt32.le_iff_toNat_le] at h
    rcases h with ((h | h) | h) | rfl
    · exact .inr (.inr (.inl h))
    · exact .inr (.inr (.inr h))
    · exact .inr (.inl h)
    · exact .inl rfl
  have hspace : c ≠ ' ' := by
    rintro rfl
    simp at hrange
  simp only [isWhitespace, Bool.or_eq_false_iff, Bool.and_eq_false_iff, decide_eq_false_iff_not,
    hspace, not_false_eq_true, and_true]
  omega

theorem splitWhitespace_blanks {blanks : List Char} (h : ∀ c ∈ blanks, isWhitespace c = true)
    (text : List Char) : splitWhitespace (blanks ++ text) = splitWhitespace text := by
  induction blanks with
  | nil => rfl
  | cons c blanks ih =>
    obtain ⟨hc, hblanks⟩ := List.forall_mem_cons.mp h
    rw [← ih hblanks, splitWhitespace, List.cons_append, List.splitOnP_cons_eq_if_modifyHead,
      if_pos hc]
    simp [splitWhitespace]

/-- The first word of a text is all up to the next white space. -/
theorem splitWhitespace_first {blanks word rest : List Char}
    (hblanks : ∀ c ∈ blanks, isWhitespace c = true) (hne : word ≠ [])
    (hword : ∀ c ∈ word, isWhitespace c = false) :
    (splitWhitespace (blanks ++ word ++ rest)).head? =
      some (word ++ rest.takeWhile (!isWhitespace ·)) := by
  obtain ⟨c, cs, rfl⟩ := List.exists_cons_of_ne_nil hne
  rw [List.append_assoc, splitWhitespace_blanks hblanks]
  have htext : c :: cs ++ rest = c :: (cs ++ rest) := rfl
  obtain ⟨more, hmore⟩ := splitWhitespace_head htext (hword c List.mem_cons_self)
  rw [hmore, List.head?_cons,
    List.takeWhile_append_of_pos fun d hd => by simp [hword d hd]]

/-- What the code takes for the name of an entry: none where R reads none, R's where the entry is
spaced, and else something with a parenthesis in it. -/
def IsEntryWord (entry : List Char) (word : Option (List Char)) : Prop :=
  if rEntryName entry = [] then word = none
  else if isSpaced entry then word = some (rEntryName entry)
  else ∃ text, word = some text ∧ '(' ∈ text

section Squeezed

open Folding

theorem squeeze_word {word : List Char} (h : ∀ c ∈ word, isWhitespace c = false)
    (text : List Char) : squeeze isWhitespace [] false (word ++ text) =
      word ++ squeeze isWhitespace [] false text := by
  induction word with
  | nil => rfl
  | cons c word ih =>
    obtain ⟨hc, hword⟩ := List.forall_mem_cons.mp h
    rw [List.cons_append, squeeze, if_neg (by simp [hc]), ih hword]
    rfl

/-- White space before a comma or the end: some of it may be kept. -/
theorem squeeze_gap {blanks tail : List Char} (h : ∀ c ∈ blanks, isWhitespace c = true)
    (folded : Bool) (htail : tail = [] ∨ ∃ rest, tail = ',' :: rest) :
    ∃ kept, (∀ c ∈ kept, isWhitespace c = true) ∧
      squeeze isWhitespace [] folded (blanks ++ tail) =
        kept ++ squeeze isWhitespace [] false tail := by
  rcases htail with rfl | ⟨rest, rfl⟩
  · refine ⟨[], by simp, ?_⟩
    rw [List.append_nil, squeeze_end h]
    rfl
  · have hcomma : isWhitespace ',' = false := by decide
    refine ⟨if folded ∨ '\n' ∈ blanks then [] else blanks, fun c hc => ?_, ?_⟩
    · split at hc
      · cases hc
      · exact h c hc
    · have hnext : squeeze isWhitespace [] false (',' :: rest) =
          ',' :: squeeze isWhitespace [] false rest := by simp [squeeze, hcomma]
      rw [squeeze_blanks h hcomma, hnext, List.nil_append]

theorem squeeze_name {before name : List Char} (hbefore : ∀ c ∈ before, isWhitespace c = true)
    (hne : name ≠ []) (hname : ∀ c ∈ name, isWhitespace c = false) (folded : Bool)
    (text : List Char) : ∃ kept, (∀ c ∈ kept, isWhitespace c = true) ∧
      squeeze isWhitespace [] folded (before ++ name ++ text) =
        kept ++ name ++ squeeze isWhitespace [] false text := by
  obtain ⟨c, cs, rfl⟩ := List.exists_cons_of_ne_nil hne
  obtain ⟨hc, hcs⟩ := List.forall_mem_cons.mp hname
  refine ⟨if folded ∨ '\n' ∈ before then [] else before, fun d hd => ?_, ?_⟩
  · split at hd
    · cases hd
    · exact hbefore d hd
  · rw [List.append_assoc, List.cons_append, squeeze_blanks hbefore hc, squeeze_word hcs]
    simp

theorem rEntryName_blank {blanks : List Char} (h : ∀ c ∈ blanks, isDcfBlank c = true) :
    rEntryName blanks = [] := by
  rw [rEntryName, List.dropWhile_eq_nil_iff.mpr h, List.takeWhile_nil]

/-- An entry is read up to where its name ends. -/
theorem entry_parts {before name : List Char} (rest : List Char) (hbefore : ∀ c ∈ before, isDcfBlank c = true)
    (hne : name ≠ []) (hname : ∀ c ∈ name, isPackageChar c = true)
    (hrest : ∀ c, rest.head? = some c → isPackageChar c = false) :
    rEntryName (before ++ name ++ rest) = name ∧
      ((before ++ name ++ rest).dropWhile isDcfBlank).dropWhile isPackageChar = rest := by
  obtain ⟨c, cs, rfl⟩ := List.exists_cons_of_ne_nil hne
  have hc : isDcfBlank c = false := by
    rw [← Bool.not_eq_true]
    intro hblank
    have hword := not_isWhitespace_of_packageChar (hname c List.mem_cons_self)
    rw [isWhitespace_of_dcfBlank hblank] at hword
    cases hword
  have hstart : (before ++ (c :: cs) ++ rest).dropWhile isDcfBlank = (c :: cs) ++ rest := by
    rw [List.append_assoc, List.dropWhile_append_of_pos hbefore, List.cons_append,
      List.dropWhile_cons_of_neg (by simp [hc])]
  have hend : rest.takeWhile isPackageChar = [] ∧ rest.dropWhile isPackageChar = rest := by
    cases rest with
    | nil => exact ⟨rfl, rfl⟩
    | cons d rest => simp [hrest d rfl]
  rw [rEntryName, hstart, List.takeWhile_append_of_pos hname, List.dropWhile_append_of_pos hname,
    hend.1, hend.2, List.append_nil]
  exact ⟨rfl, rfl⟩

theorem not_packageChar_of_dcfBlank {c : Char} (h : isDcfBlank c = true) :
    isPackageChar c = false := by
  rw [← Bool.not_eq_true]
  intro hc
  have hword := not_isWhitespace_of_packageChar hc
  rw [isWhitespace_of_dcfBlank h] at hword
  cases hword

theorem not_packageChar_gap {gap : List Char} (rest : List Char) (hgap : ∀ c ∈ gap, isDcfBlank c = true)
    (hrest : ∀ c, rest.head? = some c → isPackageChar c = false) (c : Char)
    (h : (gap ++ rest).head? = some c) : isPackageChar c = false := by
  cases gap with
  | nil => exact hrest c h
  | cons d gap =>
    obtain rfl := Option.some.inj h
    exact not_packageChar_of_dcfBlank (hgap _ List.mem_cons_self)

theorem isSpaced_versioned {before name gap : List Char} (rest : List Char)
    (hbefore : ∀ c ∈ before, isDcfBlank c = true) (hne : name ≠ [])
    (hname : ∀ c ∈ name, isPackageChar c = true) (hgap : ∀ c ∈ gap, isDcfBlank c = true) :
    isSpaced (before ++ name ++ (gap ++ '(' :: rest)) = true ↔ gap ≠ [] ∧ '\n' ∉ gap := by
  have hparts := (entry_parts _ hbefore hne hname (not_packageChar_gap ('(' :: rest) hgap
    fun c hc => by obtain rfl := Option.some.inj hc; decide)).2
  have htake : (gap ++ '(' :: rest).takeWhile isDcfBlank = gap := by
    rw [List.takeWhile_append_of_pos hgap, List.takeWhile_cons_of_neg (by decide), List.append_nil]
  have hall : (gap ++ '(' :: rest).all isDcfBlank = false := by
    simp [isDcfBlank]
  rw [isSpaced, hparts, htake, hall]
  simp

/-- What is left of an entry, and its first word. -/
theorem squeeze_entry {entry : List Char} (h : IsDependency entry) (folded : Bool)
    {tail : List Char} (htail : tail = [] ∨ ∃ rest, tail = ',' :: rest) :
    ∃ kept, ',' ∉ kept ∧ IsEntryWord entry (splitWhitespace kept).head? ∧
      squeeze isWhitespace [] folded (entry ++ tail) =
        kept ++ squeeze isWhitespace [] false tail := by
  have hnoComma {text : List Char} (htext : ∀ c ∈ text, isWhitespace c = true) : ',' ∉ text :=
    fun hmem => by simpa [isWhitespace] using htext _ hmem
  cases h with
  | blank blanks hblanks =>
    obtain ⟨kept, hkept, heq⟩ :=
      squeeze_gap (fun c hc => isWhitespace_of_dcfBlank (hblanks c hc)) folded htail
    refine ⟨kept, hnoComma hkept, ?_, heq⟩
    rw [IsEntryWord, if_pos (rEntryName_blank hblanks), ← List.append_nil kept,
      splitWhitespace_blanks hkept]
    rfl
  | package before name after hbefore hne hname hafter =>
    have hword := fun c hc => not_isWhitespace_of_packageChar (hname c hc)
    obtain ⟨kept, hkept, heq⟩ := squeeze_name (fun c hc => isWhitespace_of_dcfBlank (hbefore c hc))
      hne hword folded (after ++ tail)
    obtain ⟨last, hlast, heq'⟩ :=
      squeeze_gap (fun c hc => isWhitespace_of_dcfBlank (hafter c hc)) false htail
    refine ⟨kept ++ name ++ last, ?_, ?_, ?_⟩
    · simp only [List.mem_append, not_or]
      exact ⟨⟨hnoComma hkept, fun h => by simpa [isPackageChar] using hname _ h⟩, hnoComma hlast⟩
    · obtain ⟨hread, hrest⟩ := entry_parts _ hbefore hne hname
        (not_packageChar_gap [] hafter (by simp))
      rw [List.append_nil] at hread hrest
      have hspaced : isSpaced (before ++ name ++ after) = true := by
        rw [isSpaced, hrest, List.all_eq_true.mpr hafter]
        rfl
      have hnone : last.takeWhile (!isWhitespace ·) = [] := by
        cases last with
        | nil => rfl
        | cons c last => simp [hlast c List.mem_cons_self]
      rw [IsEntryWord, hread, if_neg hne, if_pos hspaced,
        splitWhitespace_first hkept hne hword, hnone, List.append_nil]
    · rw [List.append_assoc, heq, heq']
      simp
  | versioned before name gap version after hbefore hne hname hgap hversion hafter =>
    have hword := fun c hc => not_isWhitespace_of_packageChar (hname c hc)
    have hgapSpace := fun c hc => isWhitespace_of_dcfBlank (hgap c hc)
    obtain ⟨kept, hkept, heq⟩ := squeeze_name (fun c hc => isWhitespace_of_dcfBlank (hbefore c hc))
      hne hword folded (gap ++ '(' :: (version ++ ')' :: (after ++ tail)))
    obtain ⟨bound, hbound, heqBound⟩ := squeeze_visible (p := isWhitespace) (c := ')')
      (by decide) [] false version (after ++ tail)
    obtain ⟨last, hlast, heqLast⟩ :=
      squeeze_gap (fun c hc => isWhitespace_of_dcfBlank (hafter c hc)) false htail
    have heqGap := squeeze_blanks hgapSpace (c := '(') (by decide) [] false
      (version ++ ')' :: (after ++ tail))
    rw [heqGap, heqBound, heqLast] at heq
    set inner := if false = true ∨ '\n' ∈ gap then [] else [] ++ gap with hinner
    have hinnerSpace : ∀ c ∈ inner, isWhitespace c = true := by
      intro c hc
      rw [hinner] at hc
      split at hc
      · cases hc
      · exact hgapSpace c hc
    refine ⟨kept ++ name ++ (inner ++ '(' :: (bound ++ ')' :: last)), ?_, ?_, ?_⟩
    · simp only [List.mem_append, List.mem_cons, not_or]
      refine ⟨⟨hnoComma hkept, fun h => by simpa [isPackageChar] using hname _ h⟩,
        hnoComma hinnerSpace, by decide, fun h => hversion (by simpa using hbound _ h), by decide,
        hnoComma hlast⟩
    · have hread := (entry_parts (gap ++ '(' :: (version ++ ')' :: after)) hbefore hne hname
        (not_packageChar_gap _ hgap fun c hc => by obtain rfl := Option.some.inj hc; decide)).1
      have hspaced := isSpaced_versioned (version ++ ')' :: after) hbefore hne hname hgap
      have hentry : before ++ name ++ gap ++ '(' :: version ++ ')' :: after =
          before ++ name ++ (gap ++ '(' :: (version ++ ')' :: after)) := by simp
      rw [IsEntryWord, hentry, hread, if_neg hne, splitWhitespace_first hkept hne hword]
      by_cases hgood : gap ≠ [] ∧ '\n' ∉ gap
      · rw [if_pos (hspaced.mpr hgood)]
        obtain ⟨c, cs, hcs⟩ := List.exists_cons_of_ne_nil hgood.1
        have hinnerGap : inner = c :: cs := by
          rw [hinner, if_neg (by simpa using hgood.2), List.nil_append, hcs]
        have hc : isWhitespace c = true := hgapSpace c (hcs ▸ List.mem_cons_self)
        rw [hinnerGap, List.cons_append, List.takeWhile_cons_of_neg (by simp [hc]),
          List.append_nil]
      · rw [if_neg (mt hspaced.mp hgood)]
        have hinnerNil : inner = [] := by
          rw [hinner]
          split
          · rfl
          · rename_i hfeed
            rw [List.nil_append]
            by_contra hne
            exact hgood ⟨hne, by simpa using hfeed⟩
        refine ⟨_, rfl, ?_⟩
        rw [hinnerNil, List.nil_append, List.takeWhile_cons_of_pos (by decide)]
        simp
    · have htext : before ++ name ++ gap ++ '(' :: version ++ ')' :: after ++ tail =
          before ++ name ++ (gap ++ '(' :: (version ++ ')' :: (after ++ tail))) := by simp
      rw [htext, heq]
      simp

/-- Entry by entry, what the code takes for the names. -/
theorem words_of_value (value : List Char) (h : ∀ entry ∈ commaParts value, IsDependency entry)
    (folded : Bool) : List.Forall₂ IsEntryWord (commaParts value)
      ((commaParts (squeeze isWhitespace [] folded value)).map fun entry =>
        (splitWhitespace entry).head?) := by
  have hsingle {text : List Char} (htext : ',' ∉ text) : commaParts text = [text] :=
    List.splitOnP_eq_singleton fun c hc => by simpa using ne_of_mem_of_not_mem hc htext
  have hcons {text : List Char} (htext : ',' ∉ text) (rest : List Char) :
      commaParts (text ++ ',' :: rest) = text :: commaParts rest :=
    List.splitOnP_append_cons_of_forall_mem
      (fun c hc => by simpa using ne_of_mem_of_not_mem hc htext) ',' (by simp) rest
  by_cases hcomma : ',' ∈ value
  · obtain ⟨entry, rest, rfl, hentry⟩ :
        ∃ entry rest, value = entry ++ ',' :: rest ∧ ',' ∉ entry := ⟨_, _, cut_at hcomma⟩
    rw [hcons hentry] at h ⊢
    obtain ⟨hfirst, hrest⟩ := List.forall_mem_cons.mp h
    obtain ⟨kept, hkept, hword, heq⟩ := squeeze_entry hfirst folded (.inr ⟨rest, rfl⟩)
    have hnext : squeeze isWhitespace [] false (',' :: rest) =
        ',' :: squeeze isWhitespace [] false rest := rfl
    rw [heq, hnext, hcons hkept, List.map_cons]
    exact .cons hword (words_of_value rest hrest false)
  · rw [hsingle hcomma] at h ⊢
    obtain ⟨kept, hkept, hword, heq⟩ :=
      squeeze_entry (h value List.mem_cons_self) folded (.inl rfl)
    rw [List.append_nil, show squeeze isWhitespace [] false [] = [] from rfl,
      List.append_nil] at heq
    rw [heq, hsingle hkept]
    exact .cons hword .nil
termination_by value.length
decreasing_by
  subst value
  simp only [List.length_append, List.length_cons]
  omega

end Squeezed

/-! ## One field, and the file -/

theorem rEntryName_chars {entry : List Char} {c : Char} (h : c ∈ rEntryName entry) :
    isPackageChar c = true := List.mem_takeWhile_imp h

theorem IsDependency.named_of_not_spaced {entry : List Char} (h : IsDependency entry)
    (hspaced : ¬isSpaced entry = true) : rEntryName entry ≠ [] := by
  cases h with
  | blank blanks hblanks =>
    rw [isSpaced, List.dropWhile_eq_nil_iff.mpr hblanks] at hspaced
    exact absurd rfl hspaced
  | package before name after hbefore hne hname hafter =>
    have hread := (entry_parts _ hbefore hne hname
      (not_packageChar_gap [] hafter (by simp))).1
    rw [List.append_nil] at hread
    rwa [hread]
  | versioned before name gap version after hbefore hne hname hgap hversion hafter =>
    have hread := (entry_parts (gap ++ '(' :: (version ++ ')' :: after)) hbefore hne hname
      (not_packageChar_gap _ hgap fun c hc => by obtain rfl := Option.some.inj hc; decide)).1
    simp only [List.append_assoc, List.cons_append] at hread ⊢
    rwa [hread]

/-- What both make of the entries is the same where each is spaced. -/
theorem names_iff {entries : List (List Char)} {words : List (Option (List Char))}
    (hwords : List.Forall₂ IsEntryWord entries words)
    (hentries : ∀ entry ∈ entries, IsDependency entry) :
    ((words.filterMap id).filter fun name => !name.isEmpty && name != "R".toList).toFinset =
        ((entries.map rEntryName).filter fun name => name ≠ [] ∧ name ≠ "R".toList).toFinset ↔
      ∀ entry ∈ entries, isSpaced entry = true := by
  constructor
  · intro heq entry hentry
    by_contra hspaced
    obtain ⟨word, hmem, hword⟩ : ∃ word ∈ words, IsEntryWord entry word := by
      clear heq hentries
      induction hwords with
      | nil => cases hentry
      | cons hfirst _ ih =>
        rcases List.mem_cons.mp hentry with rfl | hentry
        · exact ⟨_, List.mem_cons_self, hfirst⟩
        · obtain ⟨word, hmem, hword⟩ := ih hentry
          exact ⟨word, List.mem_cons_of_mem _ hmem, hword⟩
    rw [IsEntryWord, if_neg ((hentries entry hentry).named_of_not_spaced hspaced),
      if_neg hspaced] at hword
    obtain ⟨text, rfl, hparen⟩ := hword
    have hne : text ≠ [] := List.ne_nil_of_mem hparen
    have hR : text ≠ "R".toList := by
      rintro rfl
      exact absurd hparen (by decide)
    have hcode : text ∈ ((words.filterMap id).filter fun name =>
        !name.isEmpty && name != "R".toList).toFinset := by
      rw [List.mem_toFinset, List.mem_filter, List.mem_filterMap]
      exact ⟨⟨_, hmem, rfl⟩, by simpa using ⟨hne, hR⟩⟩
    rw [heq, List.mem_toFinset, List.mem_filter, List.mem_map] at hcode
    obtain ⟨⟨other, -, rfl⟩, -⟩ := hcode
    exact absurd (rEntryName_chars hparen) (by decide)
  · intro hspaced
    have hnames : words.filterMap id = (entries.map rEntryName).filter (· ≠ []) := by
      clear hentries
      induction hwords with
      | nil => rfl
      | cons hfirst _ ih =>
        obtain ⟨hentry, hentries⟩ := List.forall_mem_cons.mp hspaced
        rw [IsEntryWord] at hfirst
        split at hfirst
        · rename_i hnil
          rw [hfirst, List.filterMap_cons_none rfl, ih hentries, List.map_cons, hnil]
          rfl
        · rename_i hnamed
          rw [hfirst, List.filterMap_cons_some (f := id) rfl, ih hentries, List.map_cons,
            List.filter_cons_of_pos (by simpa using hnamed)]
    rw [hnames, List.filter_filter]
    congr 1
    refine List.filter_congr fun name _ => Bool.eq_iff_iff.mpr ?_
    simp [and_comm]

theorem fieldPackages_iff {d : Description} {text : List Char} (h : d.IsText text) (field : String)
    (hfield : field = "Depends" ∨ field = "Suggests") :
    fieldPackages ((sourceLines text).foldl FieldReader.read .start).fields field =
        rPackages d field ↔
      ∀ entry ∈ d.entries field, isSpaced entry = true := by
  rw [fieldPackages, lookup_fields h field, rPackages, Description.entries]
  cases hvalue : d.value field with
  | none => simp
  | some value =>
    obtain ⟨f, hfind, rfl⟩ := Option.map_eq_some_iff.mp hvalue
    have hmem : f ∈ d.fields := List.mem_reverse.mp (List.mem_of_find?_eq_some hfind)
    have hname : f.name = field.toList := by simpa using List.find?_some hfind
    have hentries := d.dependencies f hmem
      (hfield.imp (fun h => by rw [hname, h]) fun h => by rw [hname, h])
    have hwords := words_of_value f.value hentries true
    rw [← Folding.joined_eq (by decide)] at hwords
    have hiff := names_iff hwords hentries
    rw [List.filterMap_map] at hiff
    simpa using hiff

/-- The packages are those R reads where every version requirement has white space before it, and
stands in the line of its package. -/
theorem readDescriptionPackages_iff (d : Description) (text : List Char) (h : d.IsText text) :
    readDescriptionPackages (some text) = ⟨rPackages d "Depends", rPackages d "Suggests"⟩ ↔
      ∀ field ∈ ["Depends", "Suggests"], ∀ entry ∈ d.entries field, isSpaced entry = true := by
  have hdepends := fieldPackages_iff h "Depends" (.inl rfl)
  have hsuggests := fieldPackages_iff h "Suggests" (.inr rfl)
  rw [readDescriptionPackages, DescriptionPackages.mk.injEq, hdepends, hsuggests]
  simp

/-! ## A version bound that touches its package -/

section Examples

/-- A value of one line. -/
def oneField (name : String) (value : List Char) (hne : name.toList ≠ [])
    (hfirst : isContinuation name.toList = false)
    (hplain : ∀ c ∈ name.toList, c ≠ ':' ∧ c ≠ '\n') (hvalue : '\n' ∉ value)
    (hentry : IsDependency value) (hcomma : ',' ∉ value) : Description where
  fields := [⟨name.toList, value, hne, hfirst, hplain, by simp [rawLines_line hvalue]⟩]
  dependencies f hf _ entry hmem := by
    obtain rfl := List.mem_singleton.mp hf
    have hparts : commaParts value = [value] :=
      List.splitOnP_eq_singleton fun c hc => by simpa using ne_of_mem_of_not_mem hc hcomma
    rw [hparts] at hmem
    obtain rfl := List.mem_singleton.mp hmem
    exact hentry

/-- `Depends: cli(>= 3)` -/
def touching : Description :=
  oneField "Depends" [' ', 'c', 'l', 'i', '(', '>', '=', ' ', '3', ')'] (by simp) (by decide)
    (by simp) (by decide)
    (.versioned [' '] ['c', 'l', 'i'] [] ['>', '=', ' ', '3'] [] (by simp [isDcfBlank]) (by simp)
      (by simp [isPackageChar, Char.isAlphanum, Char.isAlpha, Char.isLower]) (by simp) (by simp)
      (by simp)) (by simp)

theorem touching_text : touching.IsText "Depends: cli(>= 3)\n".toList := by
  refine ⟨[], [], by decide, ?_⟩
  simp only [String.reduceToList]
  rfl

/-- The name read of `cli(>= 3)` is `cli(>=`. -/
theorem touching_misread : ¬∀ (d : Description) (text : List Char), d.IsText text →
    readDescriptionPackages (some text) = ⟨rPackages d "Depends", rPackages d "Suggests"⟩ := by
  intro h
  have heq := congrArg DescriptionPackages.depends (h touching _ touching_text)
  have hspaced := (fieldPackages_iff touching_text _ (.inl rfl)).mp heq
  exact absurd (hspaced [' ', 'c', 'l', 'i', '(', '>', '=', ' ', '3', ')'] (by decide)) (by decide)

/-- `Depends: cli (>= 3)` -/
def spaced : Description :=
  oneField "Depends" [' ', 'c', 'l', 'i', ' ', '(', '>', '=', ' ', '3', ')'] (by simp) (by decide)
    (by simp) (by decide)
    (.versioned [' '] ['c', 'l', 'i'] [' '] ['>', '=', ' ', '3'] [] (by simp [isDcfBlank]) (by simp)
      (by simp [isPackageChar, Char.isAlphanum, Char.isAlpha, Char.isLower])
      (by simp [isDcfBlank]) (by simp) (by simp)) (by simp)

theorem readDescriptionPackages_spaced :
    readDescriptionPackages (some "Depends: cli (>= 3)\n".toList) =
      ⟨rPackages spaced "Depends", rPackages spaced "Suggests"⟩ := by
  refine (readDescriptionPackages_iff spaced _ ⟨[], [], by decide, ?_⟩).mpr (by decide)
  simp only [String.reduceToList]
  rfl

end Examples

end Ry
