import Ry.Syntax.Literals
import Mathlib.Data.List.Infix

/-! # Quoted tokens

`unquoteRString` is the value of a string literal, plain or raw, and `decodeRQuotedName` the name
that a quoted token stands for.  R takes no name of no characters, so the token of two backticks
has no value, and `decodeRQuotedName` gives it one (`Token.readAsR_iff`).
-/

namespace Ry.Syntax

/-- The text without its quotes.  The opening quote is one byte; the end is walked back to the last
character boundary before the closing one. -/
def stripQuotesAtBoundaries (raw : List Char) : List Char :=
  if byteLen raw < 2 then raw else suffixBytes (prefixBytes raw (byteLen raw - 1)) 1

def closeBracket (c : Char) : Option Char :=
  match c with
  | '(' => some ')'
  | '[' => some ']'
  | '{' => some '}'
  | _ => none

/-- The content of a raw string, whose letter `r` or `R` is not in `body`. -/
def tryUnwrapRawString (body : List Char) : Option (List Char) :=
  match body with
  | [] => none
  | quote :: body =>
    if quote ≠ '"' ∧ quote ≠ '\'' then none
    else
      let dashes := (body.takeWhile (· == '-')).length
      match body[dashes]?.bind closeBracket with
      | none => none
      | some close =>
        let contentStart := dashes + 1
        let closeIdx := body.length - (dashes + 2)
        if body.length < dashes + 2 then none
        else if closeIdx < contentStart ∨ body[closeIdx]? ≠ some close ∨
            (body.drop (closeIdx + 1)).dropLast ≠ body.take dashes ∨
            body.getLast? ≠ some quote then none
        else some ((body.take closeIdx).drop contentStart)

def unquoteRString (raw : List Char) : List Char :=
  let rest := if raw.head? = some 'r' ∨ raw.head? = some 'R' then some raw.tail else none
  match rest.bind tryUnwrapRawString with
  | some unprocessed => unprocessed
  | none => if byteLen raw < 2 then raw else processREscapes (stripQuotesAtBoundaries raw)

/-- The name of a quoted token, or nothing where it is not certain. -/
def decodeRQuotedName (raw : List Char) : Option (List Char) :=
  if byteLen raw < 2 ∨
      ¬ ∃ quote ∈ ['`', '\'', '"'], raw.head? = some quote ∧ raw.getLast? = some quote then none
  else
    let inner := raw.tail.dropLast
    if raw.head? = some '`' ∧ (['\\', 'u'] <:+: inner ∨ ['\\', 'U'] <:+: inner) then none
    else
      let decoded := unquoteRString raw
      if '\\' ∈ inner ∧ decoded = inner then none else some decoded

/-! ## Tokens and their values -/

/-- No quote stands in this text but after a backslash, and no backslash at its end. -/
def Unquoted (quote : Char) : List Char → Prop
  | [] => True
  | ['\\'] => False
  | '\\' :: _ :: cs => Unquoted quote cs
  | c :: cs => c ≠ quote ∧ Unquoted quote cs

/-- A string or a name in quotes.  No source of R holds the character NUL. -/
structure Quoted where
  quote : Char
  inner : List Char
  isQuote : quote = '"' ∨ quote = '\'' ∨ quote = '`'
  unquoted : Unquoted quote inner
  noNul : '\x00' ∉ inner

/-- A raw string: it ends at the first bracket that its dashes and its quote follow. -/
structure RawString where
  letter : Char
  quote : Char
  dashes : Nat
  opening : Char
  closing : Char
  content : List Char
  isLetter : letter = 'r' ∨ letter = 'R'
  isQuote : quote = '"' ∨ quote = '\''
  brackets : (opening, closing) ∈ [('(', ')'), ('[', ']'), ('{', '}')]
  unclosed : ¬ closing :: (List.replicate dashes '-' ++ [quote]) <:+: content
  noNul : '\x00' ∉ content

inductive Token where
  | quoted (t : Quoted)
  | raw (t : RawString)

def Quoted.text (t : Quoted) : List Char := t.quote :: (t.inner ++ [t.quote])

def RawString.text (t : RawString) : List Char :=
  t.letter :: t.quote :: (List.replicate t.dashes '-' ++ t.opening ::
    (t.content ++ t.closing :: (List.replicate t.dashes '-' ++ [t.quote])))

/-- R gives the token this value: a text, and in backticks a name, without Unicode escapes and of
one character at least. -/
def Quoted.Gives (t : Quoted) (value : List Char) : Prop :=
  ∃ us bs, Accepts us t.inner ∧ Denotes us bs ∧ fromUtf8 bs = some value ∧
    (t.quote = '`' → ¬ us.any LitUnit.isCode ∧ value ≠ [])

namespace Token

def text : Token → List Char
  | .quoted t => t.text
  | .raw t => t.text

def inner : Token → List Char
  | .quoted t => t.inner
  | .raw t => t.content

def IsString : Token → Prop
  | .quoted t => t.quote ≠ '`'
  | .raw _ => True

def Gives (t : Token) (value : List Char) : Prop :=
  match t with
  | .quoted t => t.Gives value
  | .raw t => t.content = value

/-- A string is decoded to its value or kept as it is, and a name is the value of its token. -/
structure ReadAsR (t : Token) : Prop where
  value : t.IsString → ∀ v, t.Gives v → unquoteRString t.text = v
  kept : t.IsString → (¬ ∃ v, t.Gives v) → unquoteRString t.text = t.inner
  name : ∀ v, decodeRQuotedName t.text = some v → t.Gives v

end Token

/-! ## Values of texts -/

theorem decodeREscapes_eq_some_iff {s v : List Char} :
    decodeREscapes s = some v ↔ ∃ bs, GivesBytes s bs ∧ fromUtf8 bs = some v := by
  rw [decodeREscapes, Option.bind_eq_some_iff]
  exact exists_congr fun bs => and_congr_left' Escapes.scan_eq_some_iff

theorem lexes_map_char {cs : List Char} (h : '\\' ∉ cs) : Lexes (cs.map .char) cs := by
  induction cs with
  | nil => exact .nil
  | cons c cs ih =>
    rw [List.mem_cons, not_or] at h
    exact .cons (.plain (fun hc => h.1 hc.symm) cs) (ih h.2)

theorem denotes_map_char (cs : List Char) : Denotes (cs.map .char) (utf8 cs) := by
  induction cs with
  | nil => exact .nil
  | cons c cs ih => exact .char c ih

/-- A text without backslashes is its own value. -/
theorem decodeREscapes_of_plain {cs : List Char} (h : '\\' ∉ cs) : decodeREscapes cs = some cs := by
  refine decodeREscapes_eq_some_iff.mpr ⟨utf8 cs, ⟨_, ⟨lexes_map_char h, ?_⟩, denotes_map_char cs⟩,
    fromUtf8_utf8 cs⟩
  rintro ⟨hbyte, -⟩
  rw [List.any_map, List.any_eq_true] at hbyte
  obtain ⟨c, -, hc⟩ := hbyte
  cases hc

theorem lexes_suffix {u : LitUnit} {cs rest : List Char} (h : Opens u cs rest) : rest <:+ cs := by
  cases h with
  | plain => exact List.suffix_cons _ _
  | letter => exact ⟨[_, _], rfl⟩
  | @octal ds => exact ⟨'\\' :: ds, by simp⟩
  | @hex ds => exact ⟨'\\' :: 'x' :: ds, by simp⟩
  | @unicode next _ ds => exact ⟨'\\' :: next :: ds, by simp⟩
  | @braced next _ ds => exact ⟨'\\' :: next :: '{' :: (ds ++ ['}']), by simp⟩

theorem letters_of_code {n : Nat} {cs rest : List Char} (h : Opens (.code n) cs rest) :
    ['\\', 'u'] <+: cs ∨ ['\\', 'U'] <+: cs := by
  cases h with
  | unicode hnext =>
    rcases (Escapes.unicode_letter hnext).1.2 with rfl | rfl
    · exact Or.inl ⟨_, rfl⟩
    · exact Or.inr ⟨_, rfl⟩
  | braced hnext =>
    rcases (Escapes.unicode_letter hnext).1.2 with rfl | rfl
    · exact Or.inl ⟨_, rfl⟩
    · exact Or.inr ⟨_, rfl⟩

/-- A Unicode escape shows. -/
theorem infix_of_code {us : List LitUnit} {cs : List Char} (h : Lexes us cs)
    (hcode : us.any LitUnit.isCode) : ['\\', 'u'] <:+: cs ∨ ['\\', 'U'] <:+: cs := by
  induction h with
  | nil => cases hcode
  | @cons u us cs rest hopens _ ih =>
    rw [List.any_cons, Bool.or_eq_true] at hcode
    rcases hcode with hu | hus
    · cases u with
      | code n => exact (letters_of_code hopens).imp List.IsPrefix.isInfix List.IsPrefix.isInfix
      | char c => cases hu
      | byte n => cases hu
    · have hsuffix := (lexes_suffix hopens).isInfix
      exact (ih hus).imp (fun h => h.trans hsuffix) fun h => h.trans hsuffix

theorem utf8EncodeChar_ne_nil (c : Char) : String.utf8EncodeChar c ≠ [] := by
  intro h
  have hpos := c.utf8Size_pos
  rw [← String.length_utf8EncodeChar, h] at hpos
  exact Nat.lt_irrefl _ hpos

theorem denotes_empty {us : List LitUnit} (h : Denotes us []) : us = [] := by
  have happend : ∀ {c : Char} {bs : List UInt8}, String.utf8EncodeChar c ++ bs ≠ [] :=
    fun heq => utf8EncodeChar_ne_nil _ (List.append_eq_nil_iff.mp heq).1
  generalize hbs : ([] : List UInt8) = bs at h
  cases h with
  | nil => rfl
  | char => exact absurd hbs.symm happend
  | byte => cases hbs
  | scalar => exact absurd hbs.symm happend
  | pair => exact absurd hbs.symm happend

/-- A text whose value is empty is empty. -/
theorem eq_nil_of_denotes {us : List LitUnit} {cs : List Char} {bs : List UInt8}
    (hlex : Lexes us cs) (h : Denotes us bs) (hvalue : fromUtf8 bs = some []) : cs = [] := by
  obtain rfl : bs = [] := (utf8_of_fromUtf8 hvalue).symm
  obtain rfl := denotes_empty h
  cases hlex
  rfl

/-! ## The functions on tokens -/

theorem isBackslash_of_infix {letter : Char} {cs : List Char} (h : ['\\', letter] <:+: cs) :
    '\\' ∈ cs := h.subset List.mem_cons_self

theorem byteLen_quote {quote : Char} (h : quote = '"' ∨ quote = '\'' ∨ quote = '`') :
    quote.utf8Size = 1 := by rcases h with rfl | rfl | rfl <;> rfl

theorem Quoted.byteLen_text (t : Quoted) : byteLen t.text = byteLen t.inner + 2 := by
  rw [text, byteLen_cons, byteLen_append, byteLen_cons, byteLen_nil, byteLen_quote t.isQuote]
  omega

theorem Quoted.strip_text (t : Quoted) : stripQuotesAtBoundaries t.text = t.inner := by
  have hquote : byteLen [t.quote] = 1 := by
    rw [byteLen_cons, byteLen_nil, byteLen_quote t.isQuote]
  have hbefore : byteLen t.text - 1 = byteLen (t.quote :: t.inner) := by
    rw [t.byteLen_text, byteLen_cons, byteLen_quote t.isQuote]
    omega
  rw [stripQuotesAtBoundaries, if_neg (by rw [t.byteLen_text]; omega), hbefore, Quoted.text,
    ← List.cons_append, prefixBytes_append, ← List.singleton_append, ← hquote, suffixBytes_append]

theorem Quoted.unquote_text (t : Quoted) : unquoteRString t.text = processREscapes t.inner := by
  have hletter : ¬ (t.text.head? = some 'r' ∨ t.text.head? = some 'R') := by
    have hquote := t.isQuote
    rw [Quoted.text, List.head?_cons]
    rcases hquote with h | h | h <;> rw [h] <;> decide
  simp only [unquoteRString, if_neg hletter, Option.bind_none]
  rw [if_neg (by rw [t.byteLen_text]; omega), t.strip_text]

theorem Quoted.decode_text (t : Quoted) :
    decodeRQuotedName t.text =
      if t.quote = '`' ∧ (['\\', 'u'] <:+: t.inner ∨ ['\\', 'U'] <:+: t.inner) then none
      else if '\\' ∈ t.inner ∧ processREscapes t.inner = t.inner then none
      else some (processREscapes t.inner) := by
  have hquotes : ∃ quote ∈ ['`', '\'', '"'],
      t.text.head? = some quote ∧ t.text.getLast? = some quote := by
    refine ⟨t.quote, ?_, rfl, ?_⟩
    · rcases t.isQuote with h | h | h <;> rw [h] <;> decide
    · rw [Quoted.text, ← List.cons_append]
      exact List.getLast?_concat
  have hinner : t.text.tail.dropLast = t.inner := by
    rw [Quoted.text, List.tail_cons, List.dropLast_concat]
  have hhead : t.text.head? = some '`' ↔ t.quote = '`' := by
    rw [Quoted.text, List.head?_cons, Option.some.injEq]
  rw [decodeRQuotedName, if_neg]
  · simp only [hinner, hhead, t.unquote_text]
  · rintro (hshort | hnot)
    · rw [t.byteLen_text] at hshort
      omega
    · exact hnot hquotes

theorem closeBracket_of_mem {opening closing : Char}
    (h : (opening, closing) ∈ [('(', ')'), ('[', ']'), ('{', '}')]) :
    closeBracket opening = some closing ∧ opening ≠ '-' := by
  simp only [List.mem_cons, List.not_mem_nil, or_false, Prod.mk.injEq] at h
  rcases h with ⟨rfl, rfl⟩ | ⟨rfl, rfl⟩ | ⟨rfl, rfl⟩ <;> decide

/-- A raw string is unwrapped. -/
theorem RawString.unwrap_text (t : RawString) : tryUnwrapRawString t.text.tail = some t.content := by
  obtain ⟨hclose, hopening⟩ := closeBracket_of_mem t.brackets
  have hquote : ¬ (t.quote ≠ '"' ∧ t.quote ≠ '\'') := by
    rintro ⟨hdouble, hsingle⟩
    exact t.isQuote.elim hdouble hsingle
  -- the body falls into the part before the closing bracket, and the rest
  let dash := List.replicate t.dashes '-'
  let start := dash ++ t.opening :: t.content
  let body := start ++ t.closing :: (dash ++ [t.quote])
  have hbody : t.text.tail = t.quote :: body := by
    simp [RawString.text, body, start, dash]
  have hdash : dash.length = t.dashes := List.length_replicate
  have hstart : start.length = t.dashes + 1 + t.content.length := by
    rw [List.length_append, List.length_cons, hdash]
    omega
  have hlen : body.length = start.length + (t.dashes + 2) := by
    have hend : (dash ++ [t.quote]).length = t.dashes + 1 := by
      rw [List.length_append, List.length_singleton, hdash]
    rw [List.length_append, List.length_cons, hend]
  have hsplit : body = dash ++ t.opening :: (t.content ++ t.closing :: (dash ++ [t.quote])) :=
    List.append_assoc _ _ _
  have hcount : (body.takeWhile (· == '-')).length = t.dashes := by
    have hall : ∀ c ∈ dash, (c == '-') = true := fun c hc =>
      beq_iff_eq.mpr (List.eq_of_mem_replicate hc)
    rw [hsplit, List.takeWhile_append_of_pos hall, List.takeWhile_cons,
      if_neg (by rwa [beq_iff_eq]), List.append_nil, hdash]
  have hopen : body[t.dashes]? = some t.opening := by
    rw [hsplit, ← hdash, List.getElem?_append_right (Nat.le_refl _), Nat.sub_self]
    rfl
  have hidx : body.length - (t.dashes + 2) = start.length := by omega
  have hat : body[start.length]? = some t.closing := by
    rw [List.getElem?_append_right (Nat.le_refl _), Nat.sub_self]
    rfl
  have hdrop : (body.drop (start.length + 1)).dropLast = dash := by
    rw [← List.drop_drop, List.drop_left, List.drop_one, List.tail_cons, List.dropLast_concat]
  have htake : body.take t.dashes = dash := by
    rw [hsplit, ← hdash, List.take_left]
  have hlast : body.getLast? = some t.quote := by
    have hconcat : body = (start ++ t.closing :: dash) ++ [t.quote] := by simp [body]
    rw [hconcat, List.getLast?_concat]
  have hcontent : (body.take start.length).drop (t.dashes + 1) = t.content := by
    rw [List.take_left, ← List.drop_drop, ← hdash, List.drop_left]
    rfl
  rw [hbody, tryUnwrapRawString, if_neg hquote]
  simp only [hcount, hopen, Option.bind_some, hclose, hidx, hat, hdrop, htake, hlast, hcontent]
  rw [if_neg (by omega), if_neg (by simp; omega)]

theorem RawString.unquote_text (t : RawString) : unquoteRString t.text = t.content := by
  have hletter : t.text.head? = some 'r' ∨ t.text.head? = some 'R' :=
    t.isLetter.imp (congrArg some) (congrArg some)
  simp only [unquoteRString, if_pos hletter, Option.bind_some, t.unwrap_text]

theorem RawString.decode_text (t : RawString) : decodeRQuotedName t.text = none := by
  rw [decodeRQuotedName, if_pos]
  refine Or.inr ?_
  rintro ⟨quote, hquote, hhead, -⟩
  obtain rfl : t.letter = quote := Option.some.inj hhead
  rcases t.isLetter with h | h <;> rw [h] at hquote <;> exact absurd hquote (by decide)

/-! ## Strings and names as R reads them -/

/-- Where R gives a string a value, it is decoded to it. -/
theorem decodeREscapes_of_gives {t : Quoted} {v : List Char} (h : t.Gives v) :
    decodeREscapes t.inner = some v := by
  obtain ⟨us, bs, haccepts, hdenotes, hvalue, -⟩ := h
  exact decodeREscapes_eq_some_iff.mpr ⟨bs, ⟨us, haccepts, hdenotes⟩, hvalue⟩

/-- A name that is given was decoded, and without Unicode escapes in backticks. -/
theorem decode_quoted {t : Quoted} {v : List Char} (h : decodeRQuotedName t.text = some v) :
    decodeREscapes t.inner = some v ∧
      (t.quote = '`' → ¬ (['\\', 'u'] <:+: t.inner ∨ ['\\', 'U'] <:+: t.inner)) := by
  rw [t.decode_text] at h
  split at h
  · cases h
  · rename_i hbackticks
    refine ⟨?_, fun hquote hletters => hbackticks ⟨hquote, hletters⟩⟩
    split at h
    · cases h
    · rename_i hcertain
      rw [Option.some.injEq] at h
      rw [← h, processREscapes]
      cases hdecode : decodeREscapes t.inner with
      | some v => rfl
      | none =>
        -- a text that is kept has a backslash
        refine absurd ⟨?_, by rw [processREscapes, hdecode]; rfl⟩ hcertain
        by_contra hplain
        rw [decodeREscapes_of_plain hplain] at hdecode
        cases hdecode

theorem gives_of_decode {t : Quoted} {v : List Char} (h : decodeREscapes t.inner = some v)
    (hletters : t.quote = '`' → ¬ (['\\', 'u'] <:+: t.inner ∨ ['\\', 'U'] <:+: t.inner))
    (hempty : ¬ (t.quote = '`' ∧ t.inner = [])) : t.Gives v := by
  obtain ⟨bs, ⟨us, haccepts, hdenotes⟩, hvalue⟩ := decodeREscapes_eq_some_iff.mp h
  refine ⟨us, bs, haccepts, hdenotes, hvalue, fun hquote => ⟨fun hcode => ?_, ?_⟩⟩
  · exact hletters hquote (infix_of_code haccepts.lexes hcode)
  · rintro rfl
    exact hempty ⟨hquote, eq_nil_of_denotes haccepts.lexes hdenotes hvalue⟩

theorem Quoted.text_eq_backticks {t : Quoted} :
    t.text = ['`', '`'] ↔ t.quote = '`' ∧ t.inner = [] := by
  constructor
  · intro h
    obtain ⟨hquote, hrest⟩ := List.cons.inj h
    have hlen := congrArg List.length hrest
    rw [List.length_append, List.length_singleton] at hlen
    exact ⟨hquote, List.length_eq_zero_iff.mp (Nat.succ.inj hlen)⟩
  · rintro ⟨hquote, hinner⟩
    rw [Quoted.text, hquote, hinner]
    rfl

theorem Quoted.readAsR (t : Quoted) (hempty : ¬ (t.quote = '`' ∧ t.inner = [])) :
    (Token.quoted t).ReadAsR where
  value _ v hv := by
    have hv : t.Gives v := hv
    refine t.unquote_text.trans ?_
    rw [processREscapes, decodeREscapes_of_gives hv]
    rfl
  kept hstring hnot := by
    have hstring : t.quote ≠ '`' := hstring
    refine t.unquote_text.trans ?_
    rw [processREscapes]
    cases hdecode : decodeREscapes t.inner with
    | none => rfl
    | some v => exact absurd ⟨v, gives_of_decode hdecode (fun h => absurd h hstring) hempty⟩ hnot
  name v hv := by
    obtain ⟨hdecode, hletters⟩ := decode_quoted hv
    exact gives_of_decode hdecode hletters hempty

theorem RawString.readAsR (t : RawString) : (Token.raw t).ReadAsR where
  value _ _ hv := t.unquote_text.trans hv
  kept _ _ := t.unquote_text
  name v hv := by
    have hnone : decodeRQuotedName (Token.raw t).text = none := t.decode_text
    rw [hnone] at hv
    cases hv

/-- Two backticks are decoded to a name. -/
theorem Quoted.decode_backticks {t : Quoted} (hquote : t.quote = '`') (hinner : t.inner = []) :
    decodeRQuotedName t.text = some [] := by
  rw [t.decode_text, hinner, if_neg (by rw [hquote]; decide),
    if_neg fun h => List.not_mem_nil h.1, processREscapes, decodeREscapes_of_plain List.not_mem_nil]
  rfl

theorem Token.not_readAsR {t : Token} (h : t.text = ['`', '`']) : ¬ t.ReadAsR := by
  intro hread
  cases t with
  | quoted t =>
    obtain ⟨hquote, hinner⟩ := Quoted.text_eq_backticks.mp h
    obtain ⟨us, bs, -, -, -, hname⟩ := hread.name [] (t.decode_backticks hquote hinner)
    exact (hname hquote).2 rfl
  | raw t =>
    have hletter : t.letter = '`' := (List.cons.inj h).1
    rcases t.isLetter with hr | hr <;> rw [hr] at hletter <;> exact absurd hletter (by decide)

/-- **Strings and names are read as R reads them**, but for the token of two backticks. -/
theorem Token.readAsR_iff (t : Token) : t.ReadAsR ↔ t.text ≠ ['`', '`'] := by
  constructor
  · exact fun hread h => Token.not_readAsR h hread
  · intro h
    cases t with
    | quoted t => exact t.readAsR fun hempty => h (Quoted.text_eq_backticks.mpr hempty)
    | raw t => exact t.readAsR

/-- The token of two backticks. -/
def backticks : Quoted where
  quote := '`'
  inner := []
  isQuote := Or.inr (Or.inr rfl)
  unquoted := trivial
  noNul := List.not_mem_nil

theorem backticks_not_readAsR :
    decodeRQuotedName ['`', '`'] = some [] ∧ ¬ (Token.quoted backticks).ReadAsR :=
  ⟨@Quoted.decode_backticks backticks rfl rfl, Token.not_readAsR rfl⟩

end Ry.Syntax
