import Mathlib.Data.List.TakeWhile
import Mathlib.Data.List.Infix

/-! # Reading XML

A document as a streaming reader sees it: tags, texts and asides in their order.  Line ends are
normalised, references are replaced, and white space in an attribute value becomes a space.  A
document has the declaration of UTF-8 or none, and no document type.
-/

namespace Xml

/-! ## Characters and names -/

/-- A character that a document may hold. -/
def isChar (c : Char) : Bool :=
  c = '\t' || c = '\n' || c = '\r' || (0x20 ≤ c.toNat && c.toNat ≤ 0xFFFD) || 0x10000 ≤ c.toNat

def isSpace (c : Char) : Bool := c = ' ' || c = '\t' || c = '\n' || c = '\r'

def inRanges (ranges : List (Nat × Nat)) (c : Char) : Bool :=
  ranges.any fun r => r.1 ≤ c.toNat && c.toNat ≤ r.2

def isNameStart : Char → Bool :=
  inRanges [(0x3A, 0x3A), (0x41, 0x5A), (0x5F, 0x5F), (0x61, 0x7A), (0xC0, 0xD6), (0xD8, 0xF6),
    (0xF8, 0x2FF), (0x370, 0x37D), (0x37F, 0x1FFF), (0x200C, 0x200D), (0x2070, 0x218F),
    (0x2C00, 0x2FEF), (0x3001, 0xD7FF), (0xF900, 0xFDCF), (0xFDF0, 0xFFFD), (0x10000, 0xEFFFF)]

def isNameChar (c : Char) : Bool :=
  isNameStart c ||
    inRanges [(0x2D, 0x2E), (0x30, 0x39), (0xB7, 0xB7), (0x300, 0x36F), (0x203F, 0x2040)] c

def isName : List Char → Bool
  | [] => false
  | c :: cs => isNameStart c && cs.all isNameChar

/-- The name a text begins with, and the rest. -/
def name : List Char → Option (List Char × List Char)
  | [] => none
  | c :: cs =>
    if isNameStart c then some (c :: cs.takeWhile isNameChar, cs.dropWhile isNameChar) else none

/-! ## Text with references -/

/-- The normalisation of line ends. -/
def lineEnds : List Char → List Char
  | [] => []
  | '\r' :: '\n' :: cs => '\n' :: lineEnds cs
  | c :: cs => (if c = '\r' then '\n' else c) :: lineEnds cs

def hexValue (c : Char) : Nat :=
  if c.isDigit then c.toNat - 48 else if c.isUpper then c.toNat - 55 else c.toNat - 87

def isHexDigit (c : Char) : Bool := c.isDigit || ('a' ≤ c && c ≤ 'f') || ('A' ≤ c && c ≤ 'F')

def charOf (n : Nat) : Option Char :=
  if n.isValidChar ∧ isChar (Char.ofNat n) then some (Char.ofNat n) else none

/-- What a reference stands for. -/
def referent : List Char → Option Char
  | ['a', 'm', 'p'] => some '&'
  | ['l', 't'] => some '<'
  | ['g', 't'] => some '>'
  | ['q', 'u', 'o', 't'] => some '"'
  | ['a', 'p', 'o', 's'] => some '\''
  | '#' :: 'x' :: digits =>
    if digits ≠ [] ∧ digits.all isHexDigit then
      charOf (digits.foldl (fun n c => 16 * n + hexValue c) 0)
    else none
  | '#' :: digits =>
    if digits ≠ [] ∧ digits.all Char.isDigit then
      charOf (digits.foldl (fun n c => 10 * n + (c.toNat - 48)) 0)
    else none
  | _ => none

/-- A text with its references replaced; `ref` is the reference that is being read. -/
def characters (literal : Char → Char) : Option (List Char) → List Char → Option (List Char)
  | none, [] => some []
  | some _, [] => none
  | none, c :: cs =>
    if c = '&' then characters literal (some []) cs
    else if c = '<' ∨ !isChar c then none
    else (characters literal none cs).map (literal c :: ·)
  | some ref, c :: cs =>
    if c = ';' then
      (referent ref).bind fun d => (characters literal none cs).map (d :: ·)
    else characters literal (some (ref ++ [c])) cs

/-- White space in an attribute value. -/
def blank (c : Char) : Char := if isSpace c then ' ' else c

/-- What stands between the quotes of an attribute. -/
def value (raw : List Char) : Option (List Char) := characters blank none (lineEnds raw)

/-- What stands between two tags. -/
def content (raw : List Char) : Option (List Char) :=
  if "]]>".toList <:+: raw then none else characters id none (lineEnds raw)

/-! ## Tags -/

inductive Event
  | opened (name : List Char) (attributes : List (List Char × List Char))
  | empty (name : List Char) (attributes : List (List Char × List Char))
  | closed (name : List Char)
  | text (content : List Char)
  /-- A comment or a processing instruction. -/
  | aside
deriving DecidableEq

/-- A quoted value, and what follows it. -/
def quoted : List Char → Option (List Char × List Char)
  | [] => none
  | q :: cs =>
    if (q = '"' ∨ q = '\'') ∧ q ∈ cs then
      (value (cs.takeWhile (· ≠ q))).map fun v => (v, (cs.dropWhile (· ≠ q)).drop 1)
    else none

def attr (text : List Char) : Option ((List Char × List Char) × List Char) :=
  (name text).bind fun (key, rest) =>
    match rest.dropWhile isSpace with
    | '=' :: rest => (quoted (rest.dropWhile isSpace)).map fun (v, rest) => ((key, v), rest)
    | _ => none

/-- The attributes of a tag, whether it ends in `/>`, and what follows the tag. -/
def attrs (text : List Char) :
    Option (List (List Char × List Char) × Bool × List Char) :=
  match text.dropWhile isSpace with
  | '>' :: rest => some ([], false, rest)
  | '/' :: '>' :: rest => some ([], true, rest)
  | next =>
    if next.length < text.length then
      match attr next with
      | none => none
      | some (a, rest) =>
        if _h : rest.length < text.length then
          (attrs rest).map fun (as, isEmpty, rest) => (a :: as, isEmpty, rest)
        else none
    else none
termination_by text.length

def startTag (text : List Char) : Option (Event × List Char) :=
  (name text).bind fun (n, rest) =>
    (attrs rest).bind fun (as, isEmpty, rest) =>
      if (as.map Prod.fst).Nodup then some (if isEmpty then .empty n as else .opened n as, rest)
      else none

def endTag (text : List Char) : Option (Event × List Char) :=
  (name text).bind fun (n, rest) =>
    match rest.dropWhile isSpace with
    | '>' :: rest => some (.closed n, rest)
    | _ => none

def comment : List Char → Option (List Char)
  | [] => none
  | '-' :: '-' :: '>' :: rest => some rest
  | '-' :: '-' :: _ => none
  | c :: cs => if isChar c then comment cs else none

def instruction : List Char → Option (List Char)
  | [] => none
  | '?' :: '>' :: rest => some rest
  | c :: cs => if isChar c then instruction cs else none

def cdata : List Char → Option (List Char × List Char)
  | [] => none
  | ']' :: ']' :: '>' :: rest => some ([], rest)
  | c :: cs => if isChar c then (cdata cs).map fun (text, rest) => (c :: text, rest) else none

/-- What follows a `<`. -/
def markup : List Char → Option (Event × List Char)
  | '/' :: rest => endTag rest
  | '?' :: rest =>
    (name rest).bind fun (target, rest) =>
      if target.map Char.toLower = ['x', 'm', 'l'] then none
      else (instruction rest).map fun rest => (.aside, rest)
  | '!' :: '-' :: '-' :: rest => (comment rest).map fun rest => (.aside, rest)
  | '!' :: rest =>
    if "[CDATA[".toList.isPrefixOf rest then
      (cdata (rest.drop 7)).map fun (text, rest) => (.text text, rest)
    else none
  | rest => startTag rest

def token : List Char → Option (Event × List Char)
  | '<' :: rest => markup rest
  | text =>
    (content (text.takeWhile (· ≠ '<'))).map fun c => (.text c, text.dropWhile (· ≠ '<'))

def events (text : List Char) : Option (List Event) :=
  if text = [] then some []
  else
    match token text with
    | none => none
    | some (e, rest) =>
      if _h : rest.length < text.length then (events rest).map (e :: ·) else none
termination_by text.length

/-! ## Documents -/

/-- Whether the tags nest below the open ones, in one element; `rooted` once it is begun. -/
def nested : List (List Char) → Bool → List Event → Bool
  | stack, rooted, [] => stack.isEmpty && rooted
  | stack, rooted, .opened n _ :: es => !(stack.isEmpty && rooted) && nested (n :: stack) true es
  | stack, rooted, .empty _ _ :: es => !(stack.isEmpty && rooted) && nested stack true es
  | n :: stack, rooted, .closed m :: es => n == m && nested stack rooted es
  | [], _, .closed _ :: _ => false
  | stack, rooted, .text c :: es => (!stack.isEmpty || c.all isSpace) && nested stack rooted es
  | stack, rooted, .aside :: es => nested stack rooted es

def declaration : List Char := "<?xml version=\"1.0\" encoding=\"UTF-8\"?>".toList

/-- The events of a well-formed document. -/
def document (text : List Char) : Option (List Event) :=
  (events (if declaration.isPrefixOf text then text.drop declaration.length else text)).filter
    (nested [] false)

/-! ## Texts that stand for themselves -/

/-- A character that an attribute value spells as itself. -/
def Plain (c : Char) : Prop := isChar c = true ∧ c ∉ ['&', '<', '\t', '\n', '\r']

instance : DecidablePred Plain := fun _ => inferInstanceAs (Decidable (_ ∧ _))

variable {literal : Char → Char} {open_ : Option (List Char)} {text rest v : List Char}

theorem lineEnds_cons {c : Char} (cs : List Char) (h : c ≠ '\r') :
    lineEnds (c :: cs) = c :: lineEnds cs := by
  rw [lineEnds, if_neg h]
  rintro _ rfl
  exact absurd rfl h

theorem lineEnds_self (h : '\r' ∉ text) : lineEnds text = text := by
  induction text with
  | nil => rfl
  | cons c cs ih =>
    rw [List.mem_cons, not_or] at h
    rw [lineEnds_cons cs (Ne.symm h.1), ih h.2]

/-- Each character stays one, except in a `\r\n`. -/
theorem lineEnds_length (text : List Char) :
    (lineEnds text).length ≤ text.length ∧
      ((lineEnds text).length = text.length →
        lineEnds text = text.map fun c => if c = '\r' then '\n' else c) := by
  fun_induction lineEnds text with
  | case1 => exact ⟨Nat.le_refl _, fun _ => rfl⟩
  | case2 cs ih =>
    refine ⟨?_, fun h => ?_⟩
    · simp only [List.length_cons]
      omega
    · simp only [List.length_cons] at h
      omega
  | case3 c cs hne ih =>
    refine ⟨Nat.succ_le_succ ih.1, fun h => ?_⟩
    rw [ih.2 (Nat.succ.inj h)]
    rfl

theorem map_eq_self {A : Type} {f : A → A} {xs : List A} : xs.map f = xs ↔ ∀ x ∈ xs, f x = x := by
  have h : xs.map f = xs.map id ↔ ∀ x ∈ xs, f x = id x := List.map_inj_left
  rw [List.map_id] at h
  exact h

theorem blank_eq_self {c : Char} :
    blank (if c = '\r' then '\n' else c) = c ↔ c ∉ ['\t', '\n', '\r'] := by
  by_cases hr : c = '\r'
  · subst hr
    decide
  · rw [if_neg hr]
    unfold blank isSpace
    by_cases ht : c = '\t'
    · subst ht
      decide
    · by_cases hn : c = '\n'
      · subst hn
        decide
      · by_cases hs : c = ' ' <;> simp [hr, ht, hn, hs]

/-- White space other than spaces does not survive in a value. -/
theorem map_blank_lineEnds_eq_self (text : List Char) :
    (lineEnds text).map blank = text ↔ ∀ c ∈ text, c ∉ ['\t', '\n', '\r'] := by
  constructor
  · intro h c hc
    have hlen : (lineEnds text).length = text.length := by
      rw [← List.length_map blank, h]
    rw [(lineEnds_length text).2 hlen, List.map_map] at h
    exact blank_eq_self.mp (map_eq_self.mp h c hc)
  · intro h
    have hr : '\r' ∉ text := fun hmem => h _ hmem (by decide)
    rw [lineEnds_self hr, map_eq_self]
    intro c hc
    have hself := blank_eq_self.mpr (h c hc)
    have hne : c ≠ '\r' := fun heq => hr (heq ▸ hc)
    rwa [if_neg hne] at hself

/-- A reference takes more characters than it stands for. -/
theorem characters_length (h : characters literal open_ text = some v) :
    v.length ≤ text.length := by
  fun_induction characters literal open_ text generalizing v with
  | case1 => simp_all
  | case2 => cases h
  | case3 cs ih => exact Nat.le_succ_of_le (ih h)
  | case4 => cases h
  | case5 c cs _ _ ih =>
    obtain ⟨w, hw, rfl⟩ := Option.map_eq_some_iff.mp h
    exact Nat.succ_le_succ (ih hw)
  | case6 ref cs ih =>
    obtain ⟨d, -, hd⟩ := Option.bind_eq_some_iff.mp h
    obtain ⟨w, hw, rfl⟩ := Option.map_eq_some_iff.mp hd
    exact Nat.succ_le_succ (ih hw)
  | case7 ref c cs _ ih => exact Nat.le_succ_of_le (ih h)

theorem characters_append (h : characters literal open_ text = some v) :
    characters literal open_ (text ++ rest) =
      (characters literal none rest).map (v ++ ·) := by
  fun_induction characters literal open_ text generalizing v with
  | case1 =>
    obtain rfl : [] = v := Option.some.inj h
    simp
  | case2 => cases h
  | case3 cs ih =>
    rw [List.cons_append, characters, if_pos rfl, ih h]
  | case4 => cases h
  | case5 c cs hamp hbad ih =>
    obtain ⟨w, hw, rfl⟩ := Option.map_eq_some_iff.mp h
    rw [List.cons_append, characters, if_neg hamp, if_neg hbad, ih hw, Option.map_map]
    rfl
  | case6 ref cs ih =>
    obtain ⟨d, hd, hrest⟩ := Option.bind_eq_some_iff.mp h
    obtain ⟨w, hw, rfl⟩ := Option.map_eq_some_iff.mp hrest
    rw [List.cons_append, characters, if_pos rfl, hd, Option.bind_some, ih hw, Option.map_map]
    rfl
  | case7 ref c cs hsemi ih => rw [List.cons_append, characters, if_neg hsemi, ih h]

/-- Nothing is shorter only where every character stands for itself. -/
theorem characters_same (h : characters literal none text = some v)
    (hlen : text.length ≤ v.length) :
    (∀ c ∈ text, isChar c = true ∧ c ≠ '&' ∧ c ≠ '<') ∧ v = text.map literal := by
  induction text generalizing v with
  | nil =>
    obtain rfl : [] = v := Option.some.inj h
    simp
  | cons c cs ih =>
    rw [characters] at h
    split at h
    · have hshort := characters_length h
      rw [List.length_cons] at hlen
      omega
    · rename_i hamp
      split at h
      · cases h
      · rename_i hbad
        obtain ⟨w, hw, rfl⟩ := Option.map_eq_some_iff.mp h
        obtain ⟨hall, rfl⟩ := ih hw (Nat.le_of_succ_le_succ hlen)
        refine ⟨?_, rfl⟩
        rw [List.forall_mem_cons]
        refine ⟨⟨?_, hamp, fun hlt => hbad (.inl hlt)⟩, hall⟩
        by_contra hchar
        exact hbad (.inr (by simpa using hchar))

theorem characters_legal (h : ∀ c ∈ text, isChar c = true ∧ c ≠ '&' ∧ c ≠ '<') :
    characters literal none text = some (text.map literal) := by
  induction text with
  | nil => rfl
  | cons c cs ih =>
    rw [List.forall_mem_cons] at h
    obtain ⟨⟨hchar, hamp, hlt⟩, hrest⟩ := h
    rw [characters, if_neg hamp, if_neg (by simp [hlt, hchar]), ih hrest]
    rfl

/-- A value reads as what is written exactly where every character stands for itself. -/
theorem value_self (text : List Char) : value text = some text ↔ ∀ c ∈ text, Plain c := by
  unfold value
  constructor
  · intro h
    have hle := (lineEnds_length text).1
    have hlen : (lineEnds text).length = text.length :=
      Nat.le_antisymm hle (characters_length h)
    obtain ⟨hall, hself⟩ := characters_same h hle
    have hspace := (map_blank_lineEnds_eq_self text).mp hself.symm
    intro c hc
    have hr : '\r' ∉ text := fun hmem => hspace _ hmem (by decide)
    rw [lineEnds_self hr] at hall
    obtain ⟨hchar, hamp, hlt⟩ := hall c hc
    refine ⟨hchar, ?_⟩
    have hsp := hspace c hc
    simp only [List.mem_cons, not_or] at hsp ⊢
    exact ⟨hamp, hlt, hsp⟩
  · intro h
    have hspace : ∀ c ∈ text, c ∉ ['\t', '\n', '\r'] := by
      intro c hc hmem
      exact (h c hc).2 (List.mem_cons_of_mem _ (List.mem_cons_of_mem _ hmem))
    have hr : '\r' ∉ text := fun hmem => hspace _ hmem (by decide)
    have hself := (map_blank_lineEnds_eq_self text).mpr hspace
    rw [lineEnds_self hr] at hself ⊢
    rw [characters_legal, hself]
    intro c hc
    obtain ⟨hchar, hother⟩ := h c hc
    simp only [List.mem_cons, not_or] at hother
    exact ⟨hchar, hother.1, hother.2.1⟩

/-- A text of white space. -/
theorem content_space (h : text.all (fun c => c = ' ' || c = '\n') = true) :
    content text = some text := by
  rw [List.all_eq_true] at h
  have hspace : ∀ c ∈ text, c = ' ' ∨ c = '\n' := by simpa using h
  have hend : ¬ "]]>".toList <:+: text := by
    intro hend
    rcases hspace '>' (hend.subset (by decide)) with h | h <;> exact absurd h (by decide)
  have hr : '\r' ∉ text := by
    intro hr
    rcases hspace _ hr with h | h <;> exact absurd h (by decide)
  rw [content, if_neg hend, lineEnds_self hr, characters_legal, List.map_id]
  intro c hc
  rcases hspace c hc with rfl | rfl <;> decide

/-! ## Tags that are written in the usual way -/

theorem name_append {n : List Char} {c : Char} (hn : isName n) (hc : isNameChar c = false) :
    name (n ++ c :: rest) = some (n, c :: rest) := by
  cases n with
  | nil => cases hn
  | cons d ds =>
    simp only [isName, Bool.and_eq_true, List.all_eq_true] at hn
    rw [List.cons_append, name, if_pos hn.1, List.takeWhile_append_of_pos hn.2,
      List.dropWhile_append_of_pos hn.2, List.takeWhile_cons_of_neg (by simp [hc]),
      List.dropWhile_cons_of_neg (by simp [hc]), List.append_nil]

theorem quoted_value (h : '"' ∉ text) :
    quoted ('"' :: (text ++ '"' :: rest)) = (value text).map fun v => (v, rest) := by
  have hall : ∀ c ∈ text, (decide (c ≠ '"')) = true := by
    intro c hc
    exact decide_eq_true fun heq => h (heq ▸ hc)
  rw [quoted, if_pos ⟨.inl rfl, by simp⟩, List.takeWhile_append_of_pos hall,
    List.dropWhile_append_of_pos hall, List.takeWhile_cons_of_neg (by simp),
    List.dropWhile_cons_of_neg (by simp), List.append_nil]
  rfl

/-- A value that reads as the text it was written from ends where that text does. -/
theorem quoted_self {more : List Char}
    (h : quoted ('"' :: (text ++ '"' :: rest)) = some (text, more)) :
    '"' ∉ text ∧ (∀ c ∈ text, Plain c) ∧ more = rest := by
  by_cases hq : '"' ∈ text
  · obtain ⟨before, after, htext, hbefore⟩ := List.eq_append_cons_of_mem hq
    have hcut : quoted ('"' :: (text ++ '"' :: rest)) =
        (value before).map fun v => (v, after ++ '"' :: rest) := by
      rw [← quoted_value hbefore, htext, List.append_assoc, List.cons_append]
    rw [hcut] at h
    obtain ⟨v, hv, heq⟩ := Option.map_eq_some_iff.mp h
    obtain ⟨rfl, -⟩ := Prod.mk.inj heq
    have hshort := Nat.le_trans (characters_length hv) (lineEnds_length before).1
    have hlen := congrArg List.length htext
    rw [List.length_append, List.length_cons] at hlen
    omega
  · rw [quoted_value hq] at h
    obtain ⟨v, hv, heq⟩ := Option.map_eq_some_iff.mp h
    obtain ⟨rfl, rfl⟩ := Prod.mk.inj heq
    exact ⟨hq, (value_self v).mp hv, rfl⟩

theorem attr_quoted {key : List Char} (hkey : isName key) :
    attr (key ++ '=' :: '"' :: rest) =
      (quoted ('"' :: rest)).map fun (v, rest) => ((key, v), rest) := by
  rw [attr, name_append hkey (by decide)]
  rfl

theorem attrs_close : attrs ('>' :: rest) = some ([], false, rest) := by
  rw [attrs]
  rfl

theorem dropWhile_space {c : Char} (hc : isNameStart c) :
    (' ' :: c :: text).dropWhile isSpace = c :: text := by
  have hspace : isSpace c = false := by
    by_contra h
    simp only [isSpace, Bool.not_eq_false, Bool.or_eq_true, decide_eq_true_eq] at h
    obtain ((rfl | rfl) | rfl) | rfl := h <;> exact absurd hc (by decide)
  rw [List.dropWhile_cons_of_pos (by decide), List.dropWhile_cons_of_neg (by simp [hspace])]

/-- One more attribute, after a space. -/
theorem attrs_more {c : Char} (hc : isNameStart c) :
    attrs (' ' :: c :: text) =
      match attr (c :: text) with
      | none => none
      | some (a, rest) =>
        if rest.length < (' ' :: c :: text).length then
          (attrs rest).map fun (as, isEmpty, rest) => (a :: as, isEmpty, rest)
        else none := by
  rw [attrs, dropWhile_space hc]
  split
  · rename_i heq
    rw [(List.cons.inj heq).1] at hc
    exact absurd hc (by decide)
  · rename_i heq
    rw [(List.cons.inj heq).1] at hc
    exact absurd hc (by decide)
  · rw [if_pos (by simp)]
    split <;> simp_all

theorem attrs_some {c : Char} (hc : isNameStart c) {as : List (List Char × List Char)}
    {isEmpty : Bool} {more : List Char} (h : attrs (' ' :: c :: text) = some (as, isEmpty, more)) :
    ∃ a rest bs, attr (c :: text) = some (a, rest) ∧ as = a :: bs ∧
      attrs rest = some (bs, isEmpty, more) := by
  rw [attrs_more hc] at h
  cases hattr : attr (c :: text) with
  | none => rw [hattr] at h; cases h
  | some result =>
    obtain ⟨a, rest⟩ := result
    rw [hattr] at h
    dsimp only at h
    split at h
    · obtain ⟨⟨bs, e, m⟩, hbs, heq⟩ := Option.map_eq_some_iff.mp h
      simp only [Prod.mk.injEq] at heq
      obtain ⟨rfl, rfl, rfl⟩ := heq
      exact ⟨a, rest, bs, rfl, rfl, hbs⟩
    · cases h

theorem attrs_cons {c : Char} (hc : isNameStart c) {a : List Char × List Char}
    (h : attr (c :: text) = some (a, rest)) (hlt : rest.length ≤ text.length) :
    attrs (' ' :: c :: text) =
      (attrs rest).map fun (as, isEmpty, rest) => (a :: as, isEmpty, rest) := by
  rw [attrs_more hc, h]
  dsimp only
  rw [if_pos (by simp only [List.length_cons]; omega)]

/-- An attribute that is written with double quotes, after a space. -/
theorem attrs_quoted {key : List Char} (hkey : isName key) {as : List (List Char × List Char)}
    {isEmpty : Bool} {more : List Char}
    (h : attrs (' ' :: (key ++ '=' :: '"' :: text)) = some (as, isEmpty, more)) :
    ∃ v rest bs, quoted ('"' :: text) = some (v, rest) ∧ as = (key, v) :: bs ∧
      attrs rest = some (bs, isEmpty, more) := by
  cases key with
  | nil => cases hkey
  | cons c key =>
    have hstart : isNameStart c := (Bool.and_eq_true_iff.mp hkey).1
    rw [List.cons_append] at h
    obtain ⟨a, rest, bs, hattr, has, hrest⟩ := attrs_some hstart h
    rw [← List.cons_append, attr_quoted hkey] at hattr
    obtain ⟨⟨v, r⟩, hv, heq⟩ := Option.map_eq_some_iff.mp hattr
    obtain ⟨rfl, rfl⟩ := Prod.mk.inj heq
    exact ⟨v, r, bs, hv, has, hrest⟩

theorem attrs_value {key : List Char} (hkey : isName key) (hq : '"' ∉ text)
    (hv : value text = some v) :
    attrs (' ' :: (key ++ '=' :: '"' :: (text ++ '"' :: rest))) =
      (attrs rest).map fun (as, isEmpty, rest) => ((key, v) :: as, isEmpty, rest) := by
  cases key with
  | nil => cases hkey
  | cons c key =>
    have hstart : isNameStart c := (Bool.and_eq_true_iff.mp hkey).1
    rw [List.cons_append]
    refine attrs_cons hstart ?_ ?_
    · rw [← List.cons_append, attr_quoted hkey, quoted_value hq, hv]
      rfl
    · simp only [List.length_append, List.length_cons]
      omega

/-! ## Events -/

theorem events_nil : events [] = some [] := by
  rw [events, if_pos rfl]

/-- Events come one token after the other. -/
theorem events_some {es : List Event} (h : events text = some es) (hne : text ≠ []) :
    ∃ e rest fs, token text = some (e, rest) ∧ es = e :: fs ∧ events rest = some fs := by
  rw [events, if_neg hne] at h
  cases htoken : token text with
  | none => rw [htoken] at h; cases h
  | some result =>
    obtain ⟨e, rest⟩ := result
    rw [htoken] at h
    dsimp only at h
    split at h
    · obtain ⟨fs, hfs, rfl⟩ := Option.map_eq_some_iff.mp h
      exact ⟨e, rest, fs, rfl, rfl, hfs⟩
    · cases h

theorem events_cons {e : Event} (h : token text = some (e, rest))
    (hlt : rest.length < text.length) :
    events text = (events rest).map (e :: ·) := by
  have hne : text ≠ [] := by
    rintro rfl
    exact absurd hlt (Nat.not_lt_zero _)
  rw [events, if_neg hne, h]
  dsimp only
  rw [dif_pos hlt]

theorem token_text {w : List Char} (hw : '<' ∉ w) (hne : w ≠ []) :
    token (w ++ '<' :: rest) = (content w).map fun c => (.text c, '<' :: rest) := by
  have hall : ∀ c ∈ w, decide (c ≠ '<') = true :=
    fun c hc => decide_eq_true fun heq => hw (heq ▸ hc)
  cases w with
  | nil => exact absurd rfl hne
  | cons c w =>
    rw [List.cons_append, token, ← List.cons_append, List.takeWhile_append_of_pos hall,
      List.dropWhile_append_of_pos hall, List.takeWhile_cons_of_neg (by simp),
      List.dropWhile_cons_of_neg (by simp), List.append_nil]
    intro more heq
    obtain ⟨rfl, -⟩ := List.cons.inj heq
    exact hw List.mem_cons_self

/-- The text before a tag. -/
theorem events_text {w : List Char} (hw : '<' ∉ w) (hne : w ≠ []) :
    events (w ++ '<' :: rest) =
      (content w).bind fun c => (events ('<' :: rest)).map (.text c :: ·) := by
  have htoken := @token_text rest w hw hne
  cases hc : content w with
  | none =>
    rw [hc] at htoken
    rw [events, if_neg (by simp), htoken]
    rfl
  | some c =>
    rw [hc] at htoken
    refine events_cons htoken ?_
    have hpos := List.length_pos_of_ne_nil hne
    rw [List.length_append]
    omega

theorem attrs_length {as : List (List Char × List Char)} {isEmpty : Bool}
    (h : attrs text = some (as, isEmpty, rest)) : rest.length < text.length := by
  have hdrop := (List.dropWhile_suffix isSpace (l := text)).length_le
  fun_induction attrs text generalizing as isEmpty with
  | case1 text next heq =>
    obtain ⟨-, -, rfl⟩ : _ ∧ _ ∧ next = rest := by simpa using h
    rw [heq, List.length_cons] at hdrop
    omega
  | case2 text next heq =>
    obtain ⟨-, -, rfl⟩ : _ ∧ _ ∧ next = rest := by simpa using h
    rw [heq, List.length_cons, List.length_cons] at hdrop
    omega
  | case3 => cases h
  | case4 text _ _ _ _ _ _ _ ih =>
    obtain ⟨⟨bs, e, m⟩, hbs, heq⟩ := Option.map_eq_some_iff.mp h
    simp only [Prod.mk.injEq] at heq
    obtain ⟨-, -, rfl⟩ := heq
    exact Nat.lt_trans (ih hbs (List.dropWhile_suffix isSpace).length_le) ‹_›
  | case5 => cases h
  | case6 => cases h

theorem token_start {n : List Char} (hn : isName n) :
    token ('<' :: (n ++ ' ' :: text)) =
      (attrs (' ' :: text)).bind fun (as, isEmpty, rest) =>
        if (as.map Prod.fst).Nodup then some (if isEmpty then .empty n as else .opened n as, rest)
        else none := by
  have hmarkup : token ('<' :: (n ++ ' ' :: text)) = startTag (n ++ ' ' :: text) := by
    cases n with
    | nil => cases hn
    | cons c n =>
      have hstart : isNameStart c := (Bool.and_eq_true_iff.mp hn).1
      show markup (c :: (n ++ ' ' :: text)) = _
      unfold markup
      split
      case h_5 => rfl
      all_goals
        rename_i heq
        rw [(List.cons.inj heq).1] at hstart
        exact absurd hstart (by decide)
  rw [hmarkup, startTag, name_append hn (by decide), Option.bind_some]

/-- A start tag with attributes. -/
theorem events_start {n : List Char} (hn : isName n) :
    events ('<' :: (n ++ ' ' :: text)) =
      (attrs (' ' :: text)).bind fun (as, isEmpty, rest) =>
        if (as.map Prod.fst).Nodup then
          (events rest).map ((if isEmpty then .empty n as else .opened n as) :: ·)
        else none := by
  have htoken := @token_start text n hn
  cases hattrs : attrs (' ' :: text) with
  | none =>
    rw [hattrs] at htoken
    rw [events, if_neg (by simp), htoken]
    rfl
  | some result =>
    obtain ⟨as, isEmpty, rest⟩ := result
    rw [hattrs, Option.bind_some] at htoken
    rw [Option.bind_some]
    dsimp only at htoken ⊢
    split
    · rename_i hnodup
      rw [if_pos hnodup] at htoken
      refine events_cons htoken ?_
      have hlt := attrs_length hattrs
      rw [List.length_cons, List.length_append]
      omega
    · rename_i hdup
      rw [if_neg hdup] at htoken
      rw [events, if_neg (by simp), htoken]

theorem events_end {n : List Char} (hn : isName n) :
    events ('<' :: '/' :: (n ++ '>' :: rest)) = (events rest).map (.closed n :: ·) := by
  refine events_cons ?_ ?_
  · show endTag _ = _
    rw [endTag, name_append hn (by decide)]
    rfl
  · simp only [List.length_append, List.length_cons]
    omega

theorem document_declared (text : List Char) :
    document (declaration ++ text) = (events text).filter (nested [] false) := by
  rw [document, if_pos (List.isPrefixOf_iff_prefix.mpr (List.prefix_append _ _)), List.drop_left]

end Xml
