import Ry.Lib.Lines
import Ry.Workspace.Discovery

/-! # Lines of `.Rbuildignore`

R reads a line of `.Rbuildignore` as a regular expression and looks for it in a path;
`rbuildignorePattern` makes a glob of the line.  Both are read here: of the expressions, those of
characters, dots, bracket expressions, escaped punctuation, `*`, `?` and the two anchors, letter
case aside; of globs, what the crate documents.  `rbuildignorePattern_exact` is for the lines whose
constructs mean the same in a glob once translated.  A quantifier after anything but a dot does not:
`^a*b$` finds `b`, and the glob `a*b` does not.
-/

namespace Ry.Discovery

/-- What stands between square brackets. -/
structure CharClass where
  negated : Bool
  content : List Char
  deriving DecidableEq

/-- Characters and ranges of characters. -/
def specifiers : List Char → List (Char × Char)
  | first :: '-' :: last :: rest => (first, last) :: specifiers rest
  | c :: rest => (c, c) :: specifiers rest
  | [] => []

def CharClass.has (cls : CharClass) (c : Char) : Bool :=
  (specifiers cls.content).any (fun range => range.1 ≤ c && c ≤ range.2) != cls.negated

/-- The text up to the bracket that closes a class, and the text after it.  A bracket in the first
place is a member. -/
def splitClass : List Char → Option (List Char × List Char)
  | [] => none
  | first :: rest =>
    if ']' ∈ rest then
      some (first :: rest.takeWhile (· ≠ ']'), (rest.dropWhile (· ≠ ']')).tail)
    else none

/-- Escapes, named classes and ranges the wrong way round are not read. -/
def readsMembers (content : List Char) : Bool :=
  !content.contains '\\' && (specifiers content).all (fun range => range.1 ≤ range.2) &&
    (content.zip content.tail).all fun (c, d) => !(c == '[' && [':', '.', '='].contains d)

theorem splitClass_eq_some {cs content rest : List Char} (h : splitClass cs = some (content, rest)) :
    cs = content ++ ']' :: rest ∧ content ≠ [] ∧ ']' ∉ content.tail := by
  cases cs with
  | nil => cases h
  | cons first cs =>
    rw [splitClass] at h
    split at h
    · rename_i hmem
      cases h
      obtain ⟨hcut, hfree⟩ := cut_at hmem
      exact ⟨by rw [List.cons_append, ← hcut], List.cons_ne_nil _ _, hfree⟩
    · cases h

theorem splitClass_append {first : Char} {members rest : List Char} (h : ']' ∉ members) :
    splitClass (first :: (members ++ ']' :: rest)) = some (first :: members, rest) := by
  have hpos : ∀ c ∈ members, decide (c ≠ ']') = true := fun c hc =>
    decide_eq_true fun heq => h (heq ▸ hc)
  rw [splitClass, if_pos (by simp), List.takeWhile_append_of_pos hpos,
    List.dropWhile_append_of_pos hpos]
  simp

/-! ## Regular expressions -/

inductive RegexAtom
  | literal (c : Char)
  | dot
  | oneOf (cls : CharClass)
  deriving DecidableEq

inductive Repeats
  | once
  | optional
  | star
  deriving DecidableEq

structure RegexItem where
  atom : RegexAtom
  repeats : Repeats
  deriving DecidableEq

/-- A line: whether it starts with `^`, its items, and whether it ends with `$`. -/
structure Regex where
  start : Bool
  items : List RegexItem
  stop : Bool
  deriving DecidableEq

/-- A dot is no line feed. -/
def RegexAtom.Fits : RegexAtom → Char → Prop
  | literal c, d => c = d
  | dot, d => d ≠ '\n'
  | oneOf cls, d => cls.has d

def RegexItem.Takes (item : RegexItem) (text : List Char) : Prop :=
  match item.repeats with
  | .once => ∃ c, text = [c] ∧ item.atom.Fits c
  | .optional => text = [] ∨ ∃ c, text = [c] ∧ item.atom.Fits c
  | .star => ∀ c ∈ text, item.atom.Fits c

def itemsTake : List RegexItem → List Char → Prop
  | [], text => text = []
  | item :: items, text => ∃ first rest, text = first ++ rest ∧ item.Takes first ∧ itemsTake items rest

/-- The expression is found in a path; `$` also stands before a last line feed. -/
def Regex.Finds (r : Regex) (path : List Char) : Prop :=
  ∃ before text after, path = before ++ text ++ after ∧ itemsTake r.items text ∧
    (r.start → before = []) ∧ (r.stop → after = [] ∨ after = ['\n'])

/-- What a line has no plain character for. -/
def metacharacters : List Char := ['^', '$', '*', '?', '(', ')', '|', '\x7b', '\x7d', '+']

def readAtom : List Char → Option (RegexAtom × List Char)
  | '\\' :: c :: rest => if c.isAlphanum then none else some (.literal c, rest)
  | '.' :: rest => some (.dot, rest)
  | '[' :: rest =>
    let negated := rest.head? == some '^'
    (splitClass (if negated then rest.tail else rest)).bind fun (content, rest) =>
      if readsMembers content then some (.oneOf ⟨negated, content⟩, rest) else none
  | c :: rest => if c = '\\' ∨ c ∈ metacharacters then none else some (.literal c, rest)
  | [] => none

/-- Quantifiers that are lazy or possessive are not read. -/
def readRepeats : List Char → Option (Repeats × List Char)
  | '*' :: rest => if rest.head?.any (['*', '?', '+'].contains ·) then none else some (.star, rest)
  | '?' :: rest => if rest.head?.any (['*', '?', '+'].contains ·) then none else some (.optional, rest)
  | rest => some (.once, rest)

theorem length_readAtom {cs rest : List Char} {atom : RegexAtom}
    (h : readAtom cs = some (atom, rest)) : rest.length < cs.length := by
  unfold readAtom at h
  split at h
  · split at h
    · cases h
    · cases h
      simp only [List.length_cons]
      omega
  · cases h
    exact Nat.lt_succ_self _
  · obtain ⟨⟨content, rest'⟩, hsplit, h⟩ := Option.bind_eq_some_iff.mp h
    have hlen := congrArg List.length (splitClass_eq_some hsplit).1
    dsimp only at h
    split at h
    · cases h
      rw [List.length_append, List.length_cons] at hlen
      rw [List.length_cons]
      split at hlen
      · rw [List.length_tail] at hlen
        omega
      · omega
    · cases h
  · split at h
    · cases h
    · cases h
      exact Nat.lt_succ_self _
  · cases h

theorem length_readRepeats {cs rest : List Char} {repeats : Repeats}
    (h : readRepeats cs = some (repeats, rest)) : rest.length ≤ cs.length := by
  unfold readRepeats at h
  split at h
  · split at h
    · cases h
    · cases h
      exact Nat.le_succ _
  · split at h
    · cases h
    · cases h
      exact Nat.le_succ _
  · cases h
    exact Nat.le_refl _

def readItems (cs : List Char) : Option (List RegexItem) :=
  if cs = [] then some []
  else
    match _hatom : readAtom cs with
    | none => none
    | some (atom, rest) =>
      match _hrepeats : readRepeats rest with
      | none => none
      | some (repeats, rest) => (readItems rest).map (⟨atom, repeats⟩ :: ·)
termination_by cs.length
decreasing_by exact Nat.lt_of_le_of_lt (length_readRepeats _hrepeats) (length_readAtom _hatom)

theorem readItems_nil : readItems [] = some [] := by rw [readItems, if_pos rfl]

/-- The items of a line that is not over. -/
theorem readItems_eq_some {cs : List Char} (hcs : cs ≠ []) {items : List RegexItem}
    (h : readItems cs = some items) :
    ∃ atom repeats rest rest' items', readAtom cs = some (atom, rest) ∧
      readRepeats rest = some (repeats, rest') ∧ readItems rest' = some items' ∧
        items = ⟨atom, repeats⟩ :: items' := by
  rw [readItems, if_neg hcs] at h
  split at h
  · cases h
  · rename_i atom rest hatom
    split at h
    · cases h
    · rename_i repeats rest' hrepeats
      obtain ⟨items', hitems, heq⟩ := Option.map_eq_some_iff.mp h
      exact ⟨atom, repeats, rest, rest', items', hatom, hrepeats, hitems, heq.symm⟩

theorem readItems_of_readAtom {cs rest rest' : List Char} {atom : RegexAtom} {repeats : Repeats}
    (hatom : readAtom cs = some (atom, rest)) (hrepeats : readRepeats rest = some (repeats, rest')) :
    readItems cs = (readItems rest').map (⟨atom, repeats⟩ :: ·) := by
  have hcs : cs ≠ [] := by
    rintro rfl
    cases hatom
  rw [readItems, if_neg hcs]
  split
  · rename_i hnone
    rw [hnone] at hatom
    cases hatom
  · rename_i hsome
    rw [hsome] at hatom
    cases hatom
    split
    · rename_i hnone
      rw [hnone] at hrepeats
      cases hrepeats
    · rename_i hsome
      rw [hsome] at hrepeats
      cases hrepeats
      rfl

/-- The dollar at the end is no escaped one. -/
def endsAnchored (line : List Char) : Bool :=
  line.getLast? == some '$' && (line.dropLast.reverse.takeWhile (· == '\\')).length % 2 == 0

/-- A line as R reads it. -/
def readRegex (line : List Char) : Option Regex :=
  let start := line.head? == some '^'
  let stop := endsAnchored line
  let body := if start then line.tail else line
  let body := if stop && body.getLast? == some '$' then body.dropLast else body
  (readItems body).map fun items => ⟨start, items, stop⟩

/-! ## Globs -/

inductive GlobToken
  | char (c : Char)
  | any
  | sequence
  | oneOf (cls : CharClass)
  deriving DecidableEq

/-- The tokens match the whole text. -/
def matchTokens : List GlobToken → List Char → Bool
  | [], text => text.isEmpty
  | .char c :: tokens, d :: text => c == d && matchTokens tokens text
  | .any :: tokens, _ :: text => matchTokens tokens text
  | .oneOf cls :: tokens, d :: text => cls.has d && matchTokens tokens text
  | .sequence :: tokens, text => text.tails.any (matchTokens tokens)
  | .char _ :: _, [] | .any :: _, [] | .oneOf _ :: _, [] => false

def readToken : List Char → Option (GlobToken × List Char)
  | '?' :: rest => some (.any, rest)
  | '*' :: rest => some (.sequence, rest)
  | '[' :: rest =>
    let negated := rest.head? == some '!'
    (splitClass (if negated then rest.tail else rest)).map fun (content, rest) =>
      (.oneOf ⟨negated, content⟩, rest)
  | c :: rest => some (.char c, rest)
  | [] => none

theorem length_readToken {cs rest : List Char} {token : GlobToken}
    (h : readToken cs = some (token, rest)) : rest.length < cs.length := by
  unfold readToken at h
  split at h
  · cases h
    exact Nat.lt_succ_self _
  · cases h
    exact Nat.lt_succ_self _
  · obtain ⟨⟨content, rest'⟩, hsplit, h⟩ := Option.map_eq_some_iff.mp h
    cases h
    have hlen := congrArg List.length (splitClass_eq_some hsplit).1
    rw [List.length_append, List.length_cons] at hlen
    rw [List.length_cons]
    split at hlen
    · rw [List.length_tail] at hlen
      omega
    · omega
  · cases h
    exact Nat.lt_succ_self _
  · cases h

/-- The tokens of a glob, `**` as two of them. -/
def readGlob (cs : List Char) : Option (List GlobToken) :=
  if cs = [] then some []
  else
    match _htoken : readToken cs with
    | none => none
    | some (token, rest) => (readGlob rest).map (token :: ·)
termination_by cs.length
decreasing_by exact length_readToken _htoken

theorem readGlob_nil : readGlob [] = some [] := by rw [readGlob, if_pos rfl]

theorem readGlob_of_readToken {cs rest : List Char} {token : GlobToken}
    (h : readToken cs = some (token, rest)) : readGlob cs = (readGlob rest).map (token :: ·) := by
  have hcs : cs ≠ [] := by
    rintro rfl
    cases h
  rw [readGlob, if_neg hcs]
  split
  · rename_i hnone
    rw [hnone] at h
    cases h
  · rename_i hsome
    rw [hsome] at h
    cases h
    rfl

/-- Two wildcards side by side are a `**`: an error in a component with anything else, and one
wildcard where they are the last component. -/
def Steady (tokens : List GlobToken) : Prop :=
  ¬ [.sequence, .sequence] <:+: tokens ∨
    ∃ init, tokens = init ++ [.sequence, .sequence] ∧
      ¬ [.sequence, .sequence] <:+: init ++ [.sequence] ∧
        (init = [] ∨ init.getLast? = some (.char '/'))

/-- What the glob crate documents of patterns without other `**`. -/
def Glob.Documented {Pattern : Type} (glob : Glob Pattern) : Prop :=
  ∀ text pattern tokens, glob.new text = some pattern → readGlob text.toList = some tokens →
    Steady tokens → ∀ path, glob.matchesText pattern path = matchTokens tokens path.toList

/-- Globs by their tokens. -/
def tokenGlob : Glob (List GlobToken) where
  new text := readGlob text.toList
  matchesText tokens path := matchTokens tokens path.toList
  matchesWithin tokens path := matchTokens tokens path.toList

theorem tokenGlob_documented : tokenGlob.Documented := by
  intro text pattern tokens hnew hread _ path
  obtain rfl := Option.some.inj (hnew.symm.trans hread)
  rfl

theorem matchTokens_sequence {tokens : List GlobToken} {text : List Char} :
    matchTokens (.sequence :: tokens) text ↔
      ∃ first rest, text = first ++ rest ∧ matchTokens tokens rest := by
  rw [matchTokens, List.any_eq_true]
  constructor
  · rintro ⟨rest, hmem, hrest⟩
    obtain ⟨first, rfl⟩ := (List.mem_tails _ _).mp hmem
    exact ⟨first, rest, rfl, hrest⟩
  · rintro ⟨first, rest, rfl, hrest⟩
    exact ⟨rest, (List.mem_tails _ _).mpr (List.suffix_append _ _), hrest⟩

theorem matchTokens_append {tokens tokens' : List GlobToken} {text : List Char} :
    matchTokens (tokens ++ tokens') text ↔
      ∃ first rest, text = first ++ rest ∧ matchTokens tokens first ∧ matchTokens tokens' rest := by
  induction tokens generalizing text with
  | nil =>
    constructor
    · exact fun h => ⟨[], text, rfl, rfl, h⟩
    · rintro ⟨first, rest, rfl, hfirst, hrest⟩
      obtain rfl := List.isEmpty_iff.mp hfirst
      exact hrest
  | cons token tokens ih =>
    have hone : ∀ (fits : Char → Bool), (∀ tokens c text,
          matchTokens (token :: tokens) (c :: text) = (fits c && matchTokens tokens text)) →
        (∀ tokens, matchTokens (token :: tokens) [] = false) →
        (matchTokens (token :: tokens ++ tokens') text ↔ ∃ first rest, text = first ++ rest ∧
          matchTokens (token :: tokens) first ∧ matchTokens tokens' rest) := by
      intro fits hcons hnil
      cases text with
      | nil =>
        rw [List.cons_append, hnil]
        constructor
        · intro h
          cases h
        · rintro ⟨first, rest, heq, hfirst, -⟩
          obtain ⟨rfl, -⟩ := List.append_eq_nil_iff.mp heq.symm
          rw [hnil] at hfirst
          cases hfirst
      | cons c text =>
        rw [List.cons_append, hcons, Bool.and_eq_true, ih]
        constructor
        · rintro ⟨hc, first, rest, rfl, hfirst, hrest⟩
          exact ⟨c :: first, rest, rfl, by rw [hcons, hc, hfirst]; rfl, hrest⟩
        · rintro ⟨first, rest, heq, hfirst, hrest⟩
          cases first with
          | nil =>
            rw [hnil] at hfirst
            cases hfirst
          | cons d first =>
            obtain ⟨rfl, rfl⟩ := List.cons.inj heq
            rw [hcons, Bool.and_eq_true] at hfirst
            exact ⟨hfirst.1, first, rest, rfl, hfirst.2, hrest⟩
    cases token with
    | char c => exact hone (c == ·) (fun _ _ _ => rfl) fun _ => rfl
    | any => exact hone (fun _ => true) (fun _ _ _ => rfl) fun _ => rfl
    | oneOf cls => exact hone cls.has (fun _ _ _ => rfl) fun _ => rfl
    | sequence =>
      rw [List.cons_append, matchTokens_sequence]
      constructor
      · rintro ⟨before, rest, rfl, hrest⟩
        obtain ⟨first, rest, rfl, hfirst, hrest⟩ := ih.mp hrest
        refine ⟨before ++ first, rest, (List.append_assoc _ _ _).symm, ?_, hrest⟩
        exact matchTokens_sequence.mpr ⟨before, first, rfl, hfirst⟩
      · rintro ⟨first, rest, rfl, hfirst, hrest⟩
        obtain ⟨before, middle, rfl, hmiddle⟩ := matchTokens_sequence.mp hfirst
        exact ⟨before, middle ++ rest, List.append_assoc _ _ _,
          ih.mpr ⟨middle, rest, rfl, hmiddle, hrest⟩⟩

/-! ## Lines that mean the same -/

/-- The token of an item that a glob can say. -/
def RegexItem.token (item : RegexItem) : GlobToken :=
  match item.atom, item.repeats with
  | .literal c, _ => .char c
  | .dot, .star => .sequence
  | .dot, _ => .any
  | .oneOf cls, _ => .oneOf cls

/-- An item that means the same in a glob: a quantifier is the star of `.*`, a character is no
wildcard, and a class has no dot and no first `^` or `!`. -/
def RegexItem.Plain (item : RegexItem) : Prop :=
  match item.atom, item.repeats with
  | .literal c, .once => c ∉ ['*', '?', '[']
  | .dot, .once | .dot, .star => True
  | .oneOf cls, .once =>
    cls.negated = false ∧ '.' ∉ cls.content ∧ cls.content.head? ≠ some '!'
  | _, _ => False

instance : DecidablePred RegexItem.Plain
  | ⟨.literal c, .once⟩ => inferInstanceAs (Decidable (c ∉ ['*', '?', '[']))
  | ⟨.dot, .once⟩ | ⟨.dot, .star⟩ => isTrue trivial
  | ⟨.oneOf cls, .once⟩ => inferInstanceAs (Decidable
      (cls.negated = false ∧ '.' ∉ cls.content ∧ cls.content.head? ≠ some '!'))
  | ⟨.literal _, .optional⟩ | ⟨.literal _, .star⟩ | ⟨.dot, .optional⟩ | ⟨.oneOf _, .optional⟩
  | ⟨.oneOf _, .star⟩ => isFalse id

def Regex.tokens (r : Regex) : List GlobToken :=
  (if r.start then [] else [.sequence]) ++ r.items.map RegexItem.token ++
    if r.stop then [] else [.sequence]

/-- A line that means the same as its glob. -/
structure Regex.Plain (r : Regex) : Prop where
  items : ∀ item ∈ r.items, item.Plain
  steady : Steady r.tokens

theorem RegexItem.takes_iff {item : RegexItem} (hplain : item.Plain) {text : List Char}
    (htext : '\n' ∉ text) : item.Takes text ↔ matchTokens [item.token] text := by
  -- one character, which the atom and its token take alike
  have hone : ∀ (fits : Char → Bool) (token : GlobToken),
      (∀ c text, matchTokens [token] (c :: text) = (fits c && text.isEmpty)) →
      matchTokens [token] [] = false → (∀ c ∈ text, item.atom.Fits c ↔ fits c) →
      ((∃ c, text = [c] ∧ item.atom.Fits c) ↔ matchTokens [token] text) := by
    intro fits token hcons hnil hfits
    cases text with
    | nil => simp [hnil]
    | cons c text =>
      rw [hcons, Bool.and_eq_true, List.isEmpty_iff, ← hfits c List.mem_cons_self]
      constructor
      · rintro ⟨d, heq, hd⟩
        cases heq
        exact ⟨hd, rfl⟩
      · rintro ⟨hc, rfl⟩
        exact ⟨c, rfl, hc⟩
  obtain ⟨atom, repeats⟩ := item
  cases atom with
  | literal c =>
    cases repeats with
    | once => exact hone (c == ·) _ (fun _ _ => rfl) rfl fun d _ => (beq_iff_eq).symm
    | optional | star => cases hplain
  | dot =>
    have hdot : ∀ c ∈ text, RegexAtom.dot.Fits c := by
      intro c hc heq
      exact htext (heq ▸ hc)
    cases repeats with
    | once =>
      exact hone (fun _ => true) _ (fun _ _ => rfl) rfl fun c hc => ⟨fun _ => rfl, fun _ => hdot c hc⟩
    | optional => cases hplain
    | star =>
      refine ⟨fun _ => ?_, fun _ => hdot⟩
      exact matchTokens_sequence.mpr ⟨text, [], (List.append_nil _).symm, rfl⟩
  | oneOf cls =>
    cases repeats with
    | once => exact hone cls.has _ (fun _ _ => rfl) rfl fun _ _ => Iff.rfl
    | optional | star => cases hplain

/-- On paths without line feeds, plain items take what their tokens match. -/
theorem itemsTake_iff {items : List RegexItem} (hplain : ∀ item ∈ items, item.Plain)
    {text : List Char} (htext : '\n' ∉ text) :
    itemsTake items text ↔ matchTokens (items.map RegexItem.token) text := by
  induction items generalizing text with
  | nil => exact List.isEmpty_iff.symm
  | cons item items ih =>
    obtain ⟨hitem, hitems⟩ := List.forall_mem_cons.mp hplain
    have hmap : (item :: items).map RegexItem.token =
        [item.token] ++ items.map RegexItem.token := rfl
    rw [hmap, matchTokens_append, itemsTake]
    refine exists_congr fun first => exists_congr fun rest => and_congr_right fun heq => ?_
    rw [heq, List.mem_append, not_or] at htext
    exact and_congr (RegexItem.takes_iff hitem htext.1) (ih hitems htext.2)

/-- A line and its glob agree on a path without line feeds. -/
theorem Regex.finds_iff {r : Regex} (hplain : ∀ item ∈ r.items, item.Plain) {path : List Char}
    (hpath : '\n' ∉ path) : r.Finds path ↔ matchTokens r.tokens path := by
  have hend : ∀ (anchored : Bool) (text : List Char),
      matchTokens (if anchored then [] else [.sequence]) text ↔ (anchored → text = []) := by
    intro anchored text
    cases anchored with
    | true => exact ⟨fun h _ => List.isEmpty_iff.mp h, fun h => List.isEmpty_iff.mpr (h rfl)⟩
    | false =>
      refine iff_of_true ?_ fun h => absurd h (by decide)
      exact matchTokens_sequence.mpr ⟨text, [], (List.append_nil _).symm, rfl⟩
  rw [Regex.tokens, matchTokens_append]
  constructor
  · rintro ⟨before, text, after, rfl, htext, hstart, hstop⟩
    simp only [List.mem_append, not_or] at hpath
    refine ⟨before ++ text, after, rfl, matchTokens_append.mpr ⟨before, text, rfl, ?_, ?_⟩, ?_⟩
    · exact (hend _ _).mpr hstart
    · exact (itemsTake_iff hplain hpath.1.2).mp htext
    · refine (hend _ _).mpr fun h => (hstop h).resolve_right ?_
      rintro rfl
      exact hpath.2 List.mem_cons_self
  · rintro ⟨front, after, rfl, hfront, hafter⟩
    obtain ⟨before, text, rfl, hbefore, htext⟩ := matchTokens_append.mp hfront
    simp only [List.mem_append, not_or] at hpath
    refine ⟨before, text, after, rfl, (itemsTake_iff hplain hpath.1.2).mpr htext, ?_, ?_⟩
    · exact (hend _ _).mp hbefore
    · exact fun h => Or.inl ((hend _ _).mp hafter h)

/-! ## The translation -/

theorem readRepeats_once {cs rest : List Char} (h : readRepeats cs = some (.once, rest)) :
    cs = rest ∧ ∀ c ∈ cs.head?, c ≠ '*' ∧ c ≠ '?' := by
  unfold readRepeats at h
  split at h
  · split at h <;> cases h
  · split at h <;> cases h
  · rename_i hstar hoption
    cases h
    refine ⟨rfl, fun c hc => ?_⟩
    obtain ⟨tail, rfl⟩ := List.head?_eq_some_iff.mp hc
    exact ⟨fun heq => hstar tail (by rw [heq]), fun heq => hoption tail (by rw [heq])⟩

theorem readRepeats_star {cs rest : List Char} (h : readRepeats cs = some (.star, rest)) :
    cs = '*' :: rest := by
  unfold readRepeats at h
  split at h
  · split at h
    · cases h
    · cases h
      rfl
  · split at h <;> cases h
  · cases h

/-- What the loop of `rbuildignore_pattern` writes of a character that it copies. -/
theorem globBody_cons {c : Char} (hescape : c ≠ '\\') (hdot : c ≠ '.') (rest : List Char) :
    globBody (c :: rest) = (globBody rest).map (c :: ·) := by
  rw [globBody.eq_def]
  split <;> first | rfl | simp_all

theorem globBody_dot {rest : List Char} (h : ∀ c ∈ rest.head?, c ≠ '*') :
    globBody ('.' :: rest) = (globBody rest).map ('?' :: ·) := by
  cases rest with
  | nil => rfl
  | cons c rest =>
    rw [globBody]
    intro tail heq
    exact h c rfl (List.cons.inj heq).1

/-- Plain members of a class are copied. -/
theorem globBody_copies {content : List Char} (hescape : '\\' ∉ content) (hdot : '.' ∉ content)
    (rest : List Char) : globBody (content ++ rest) = (globBody rest).map (content ++ ·) := by
  induction content with
  | nil => simp
  | cons c content ih =>
    rw [List.mem_cons, not_or] at hescape hdot
    rw [List.cons_append, globBody_cons (fun h => hescape.1 h.symm) (fun h => hdot.1 h.symm),
      ih hescape.2 hdot.2, Option.map_map]
    rfl

/-- The text is written of these items: as it is, and read again, whatever follows. -/
def Writes (cs : List Char) (tokens : List GlobToken) : Prop :=
  ∃ text, globBody cs = some text ∧
    ∀ post, readGlob (text ++ post) = (readGlob post).map (tokens ++ ·)

theorem writes_nil : Writes [] [] := ⟨[], rfl, fun post => by simp⟩

/-- One item's text, before the others'. -/
theorem Writes.cons {cs rest written : List Char} {token : GlobToken} {tokens : List GlobToken}
    (h : Writes rest tokens) (hbody : globBody cs = (globBody rest).map (written ++ ·))
    (hread : ∀ post, readToken (written ++ post) = some (token, post)) :
    Writes cs (token :: tokens) := by
  obtain ⟨text, htext, hpost⟩ := h
  refine ⟨written ++ text, by rw [hbody, htext]; rfl, fun post => ?_⟩
  rw [List.append_assoc, readGlob_of_readToken (hread _), hpost, Option.map_map]
  rfl

theorem readToken_char {c : Char} (h : c ∉ ['*', '?', '[']) (post : List Char) :
    readToken (c :: post) = some (.char c, post) := by
  simp only [List.mem_cons, List.not_mem_nil, or_false, not_or] at h
  rw [readToken.eq_def]
  split <;> simp_all

/-- A plain item that is no dot has no quantifier. -/
theorem RegexItem.Plain.once {atom : RegexAtom} {repeats : Repeats}
    (h : RegexItem.Plain ⟨atom, repeats⟩) (hdot : atom ≠ .dot) : repeats = .once := by
  cases atom with
  | dot => exact absurd rfl hdot
  | literal c | oneOf cls =>
    cases repeats with
    | once => rfl
    | optional | star => cases h

theorem Writes.literal {c : Char} {cs rest rest' : List Char} {repeats : Repeats}
    {tokens : List GlobToken} (h : Writes rest' tokens)
    (hplain : RegexItem.Plain ⟨.literal c, repeats⟩)
    (hrepeats : readRepeats rest = some (repeats, rest'))
    (hbody : globBody cs = (globBody rest).map (c :: ·)) :
    Writes cs (RegexItem.token ⟨.literal c, repeats⟩ :: tokens) := by
  obtain rfl := hplain.once fun h => by cases h
  obtain ⟨rfl, -⟩ := readRepeats_once hrepeats
  exact @Writes.cons _ _ [c] _ _ h hbody (readToken_char hplain)

theorem Writes.dot {rest rest' : List Char} {repeats : Repeats} {tokens : List GlobToken}
    (h : Writes rest' tokens) (hplain : RegexItem.Plain ⟨.dot, repeats⟩)
    (hrepeats : readRepeats rest = some (repeats, rest')) :
    Writes ('.' :: rest) (RegexItem.token ⟨.dot, repeats⟩ :: tokens) := by
  cases repeats with
  | once =>
    obtain ⟨rfl, hhead⟩ := readRepeats_once hrepeats
    exact @Writes.cons _ _ ['?'] _ _ h (globBody_dot fun c hc => (hhead c hc).1) fun post => rfl
  | optional => cases hplain
  | star =>
    obtain rfl := readRepeats_star hrepeats
    exact @Writes.cons _ _ ['*'] _ _ h rfl fun post => rfl

/-- A class without a first `!` is read again from what is written of it. -/
theorem readToken_oneOf {content rest post : List Char} {cs : List Char}
    (hsplit : splitClass cs = some (content, rest)) (hhead : content.head? ≠ some '!') :
    readToken ('[' :: (content ++ ']' :: post)) = some (.oneOf ⟨false, content⟩, post) := by
  obtain ⟨-, hne, hclosed⟩ := splitClass_eq_some hsplit
  obtain ⟨first, members, rfl⟩ := List.exists_cons_of_ne_nil hne
  have hfirst : ((first :: members ++ ']' :: post).head? == some '!') = false := by
    rw [List.cons_append, List.head?_cons, beq_eq_false_iff_ne]
    exact hhead
  rw [readToken]
  simp only [hfirst, Bool.false_eq_true, if_false]
  rw [List.cons_append, splitClass_append (show ']' ∉ members from hclosed)]
  rfl

theorem Writes.oneOf {cs content rest : List Char} {tokens : List GlobToken}
    (h : Writes rest tokens) (hsplit : splitClass cs = some (content, rest))
    (hescape : '\\' ∉ content) (hdot : '.' ∉ content) (hhead : content.head? ≠ some '!') :
    Writes ('[' :: cs) (.oneOf ⟨false, content⟩ :: tokens) := by
  obtain ⟨rfl, -, -⟩ := splitClass_eq_some hsplit
  have hcopies : '[' :: (content ++ ']' :: rest) = ('[' :: (content ++ [']'])) ++ rest := by simp
  refine @Writes.cons _ _ ('[' :: (content ++ [']'])) _ _ h ?_ fun post => ?_
  · rw [hcopies]
    exact globBody_copies (by simp [hescape]) (by simp [hdot]) rest
  · have hpost : '[' :: (content ++ [']']) ++ post = '[' :: (content ++ ']' :: post) := by simp
    rw [hpost]
    exact readToken_oneOf hsplit hhead

/-- The items that are read are written as their tokens. -/
theorem writes_readItems {cs : List Char} {items : List RegexItem} (h : readItems cs = some items)
    (hplain : ∀ item ∈ items, item.Plain) : Writes cs (items.map RegexItem.token) := by
  induction hlen : cs.length using Nat.strong_induction_on generalizing cs items with
  | _ n ih =>
    subst hlen
    by_cases hcs : cs = []
    · subst hcs
      rw [readItems_nil] at h
      cases h
      exact writes_nil
    · obtain ⟨atom, repeats, rest, rest', items', hatom, hrepeats, hitems, rfl⟩ :=
        readItems_eq_some hcs h
      obtain ⟨hitem, hplain⟩ := List.forall_mem_cons.mp hplain
      have hrest := ih _ (Nat.lt_of_le_of_lt (length_readRepeats hrepeats) (length_readAtom hatom))
        hitems hplain rfl
      rw [List.map_cons]
      unfold readAtom at hatom
      split at hatom
      · -- an escaped character
        split at hatom
        · cases hatom
        · cases hatom
          exact hrest.literal hitem hrepeats rfl
      · cases hatom
        exact hrest.dot hitem hrepeats
      · -- a class
        obtain ⟨⟨content, rest⟩, hsplit, hatom⟩ := Option.bind_eq_some_iff.mp hatom
        dsimp only at hatom
        split at hatom
        · rename_i hmembers
          cases hatom
          obtain rfl := hitem.once fun h => by cases h
          obtain ⟨hnegated, hdot, hhead⟩ := hitem
          obtain ⟨rfl, -⟩ := readRepeats_once hrepeats
          have hescape : '\\' ∉ content := by
            simp only [readsMembers, Bool.and_eq_true, Bool.not_eq_true', List.contains_eq_mem,
              decide_eq_false_iff_not] at hmembers
            exact hmembers.1.1
          dsimp only at hnegated
          rw [hnegated] at hsplit ⊢
          exact hrest.oneOf hsplit hescape hdot hhead
        · cases hatom
      · split at hatom
        · cases hatom
        · rename_i hchar
          cases hatom
          rw [not_or] at hchar
          refine hrest.literal hitem hrepeats (globBody_cons hchar.1 ?_ _)
          rintro rfl
          rename_i hnodot _ _
          exact hnodot rfl
      · cases hatom

/-- The anchors and the body are the same to both. -/
theorem rbuildignorePattern_eq_some {Pattern : Type} {glob : Glob Pattern} {line : String}
    {pattern : Pattern} {r : Regex} (hnew : rbuildignorePattern glob line = some pattern)
    (hread : readRegex line.toList = some r) :
    ∃ body text, readItems body = some r.items ∧ globBody body = some text ∧
      glob.new (String.ofList ((if r.start then [] else ['*']) ++ text ++
        if r.stop then [] else ['*'])) = some pattern := by
  obtain ⟨items, hitems, rfl⟩ := Option.map_eq_some_iff.mp hread
  have hstop : (line.toList.getLast? == some '$' &&
      (if line.toList.getLast? == some '$' then
        (line.toList.dropLast.reverse.takeWhile (· == '\\')).length else 0) % 2 == 0) =
      endsAnchored line.toList := by
    rw [endsAnchored]
    cases hlast : line.toList.getLast? == some '$' <;> simp
  rw [rbuildignorePattern] at hnew
  dsimp only at hnew
  split at hnew
  · cases hnew
  · rw [hstop] at hnew
    obtain ⟨text, htext, hnew⟩ := Option.bind_eq_some_iff.mp hnew
    exact ⟨_, text, hitems, htext, hnew⟩

/-- The glob for a line that is plain reads as the line's tokens. -/
theorem readGlob_tokens {r : Regex} (hplain : ∀ item ∈ r.items, item.Plain) {body text : List Char}
    (hitems : readItems body = some r.items) (htext : globBody body = some text) :
    readGlob ((if r.start then [] else ['*']) ++ text ++ if r.stop then [] else ['*']) =
      some r.tokens := by
  obtain ⟨text', htext', hpost⟩ := writes_readItems hitems hplain
  obtain rfl := Option.some.inj (htext.symm.trans htext')
  have hsequence : ∀ cs, readGlob ('*' :: cs) = (readGlob cs).map (.sequence :: ·) := fun cs =>
    readGlob_of_readToken rfl
  have hend : readGlob (if r.stop then [] else ['*']) =
      some (if r.stop then [] else [GlobToken.sequence]) := by
    cases r.stop with
    | true => exact readGlob_nil
    | false => exact (hsequence []).trans (by rw [readGlob_nil]; rfl)
  have hfront := hpost (if r.stop then [] else ['*'])
  rw [hend] at hfront
  rw [Regex.tokens, List.append_assoc, List.append_assoc]
  cases r.start with
  | true => exact hfront
  | false => exact (hsequence _).trans (congrArg (Option.map _) hfront)

/-- `^d.*\.R$` -/
def scripts : Regex :=
  ⟨true, [⟨.literal 'd', .once⟩, ⟨.dot, .star⟩, ⟨.literal '.', .once⟩, ⟨.literal 'R', .once⟩], true⟩

theorem readRegex_scripts : readRegex "^d.*\\.R$".toList = some scripts := by
  have hitems : readItems "d.*\\.R".toList = some scripts.items := by
    rw [@readItems_of_readAtom _ ".*\\.R".toList ".*\\.R".toList (.literal 'd') .once rfl rfl,
      @readItems_of_readAtom _ "*\\.R".toList "\\.R".toList .dot .star rfl rfl,
      @readItems_of_readAtom _ "R".toList "R".toList (.literal '.') .once rfl rfl,
      @readItems_of_readAtom _ [] [] (.literal 'R') .once rfl rfl, readItems_nil]
    rfl
  exact congrArg (Option.map _) hitems

theorem rbuildignorePattern_scripts :
    rbuildignorePattern tokenGlob "^d.*\\.R$" = some scripts.tokens := by
  have hread : readGlob "d*.R".toList = some scripts.tokens := by
    rw [@readGlob_of_readToken _ "*.R".toList (.char 'd') rfl,
      @readGlob_of_readToken _ ".R".toList .sequence rfl,
      @readGlob_of_readToken _ "R".toList (.char '.') rfl,
      @readGlob_of_readToken _ [] (.char 'R') rfl, readGlob_nil]
    rfl
  exact hread

/-- `^a*b$` -/
def leading : Regex := ⟨true, [⟨.literal 'a', .star⟩, ⟨.literal 'b', .once⟩], true⟩

end Ry.Discovery
