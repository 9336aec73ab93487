import Ry.Lib.Utf8

/-! # Escapes of string literals

`processREscapes` decodes the text between the quotes of a string literal, or gives that text
back as it is.  It goes over the text once, keeps the bytes decoded so far and a high surrogate
that waits for its other half, and notes whether it has met byte escapes and Unicode escapes.

Its loop looks at single bytes, and every byte it compares with is ASCII; here it goes over
characters.
-/

namespace Ry.Syntax

/-- Where the loop of `process_r_escapes` stands. -/
structure Escapes where
  out : List UInt8 := []
  byteEscape : Bool := false
  unicodeEscape : Bool := false
  highSurrogate : Option Nat := none
  deriving DecidableEq

/-- What a reader of digits has read: their value, how many they are, and what follows. -/
structure Digits where
  value : Nat
  digits : Nat
  rest : List Char
  deriving DecidableEq

/-- Read at most `max` more digits of this base. -/
def readDigits (digit : Char → Option Nat) (base : Nat) : Nat → Nat → Nat → List Char → Digits
  | 0, value, digits, cs => ⟨value, digits, cs⟩
  | _ + 1, value, digits, [] => ⟨value, digits, []⟩
  | max + 1, value, digits, c :: cs =>
    match digit c with
    | some d => readDigits digit base max (value * base + d) (digits + 1) cs
    | none => ⟨value, digits, c :: cs⟩

def octalDigit (c : Char) : Option Nat :=
  if '0' ≤ c ∧ c ≤ '7' then some (c.toNat - '0'.toNat) else none

def hexDigit (c : Char) : Option Nat :=
  if '0' ≤ c ∧ c ≤ '9' then some (c.toNat - '0'.toNat)
  else if 'a' ≤ c ∧ c ≤ 'f' then some (c.toNat - 'a'.toNat + 10)
  else if 'A' ≤ c ∧ c ≤ 'F' then some (c.toNat - 'A'.toNat + 10)
  else none

/-- The character with this scalar value (`char::from_u32`). -/
def charFromU32 (n : Nat) : Option Char := if n.isValidChar then some (Char.ofNat n) else none

def IsHighSurrogate (n : Nat) : Prop := 0xD800 ≤ n ∧ n ≤ 0xDBFF

def IsLowSurrogate (n : Nat) : Prop := 0xDC00 ≤ n ∧ n ≤ 0xDFFF

instance (n : Nat) : Decidable (IsHighSurrogate n) := inferInstanceAs (Decidable (_ ∧ _))

instance (n : Nat) : Decidable (IsLowSurrogate n) := inferInstanceAs (Decidable (_ ∧ _))

/-- The scalar value of a surrogate pair. -/
def joinSurrogates (high low : Nat) : Nat := 0x10000 + (high - 0xD800) * 2 ^ 10 + (low - 0xDC00)

/-- What an escape of one letter stands for.  A line break may be escaped. -/
def simpleEscape (next : Char) : Option Char :=
  match next with
  | 'n' => some '\n'
  | 'r' => some '\r'
  | 't' => some '\t'
  | 'b' => some '\x08'
  | 'f' => some '\x0c'
  | 'v' => some '\x0b'
  | 'a' => some '\x07'
  | '"' => some '"'
  | '\'' => some '\''
  | '`' => some '`'
  | '\\' => some '\\'
  | ' ' => some ' '
  | '\n' => some '\n'
  | _ => none

/-- The most digits of a hexadecimal escape. -/
def maxDigits (next : Char) : Nat := if next = 'x' then 2 else if next = 'u' then 4 else 8

/-- The value of an escape in hexadecimal digits, perhaps in braces, and what follows. -/
def hexValue (next : Char) (cs : List Char) : Option (Nat × List Char) :=
  let braced := next ≠ 'x' ∧ cs.head? = some '{'
  let read := readDigits hexDigit 16 (maxDigits next) 0 0 (if braced then cs.tail else cs)
  if read.digits = 0 ∨ read.value = 0 then none
  else if braced then
    if read.rest.head? = some '}' then some (read.value, read.rest.tail) else none
  else some (read.value, read.rest)

namespace Escapes

def pushChar (st : Escapes) (c : Char) : Escapes :=
  { st with out := st.out ++ String.utf8EncodeChar c }

/-- The test at the end of the loop's body. -/
def unmixed (st : Escapes) : Option Escapes :=
  if st.byteEscape && st.unicodeEscape then none else some st

/-- An octal escape, from its first digit on. -/
def octal (st : Escapes) (cs : List Char) : Option (Escapes × List Char) :=
  let read := readDigits octalDigit 8 3 0 0 cs
  let st := { st with byteEscape := true }
  if read.value = 0 ∨ 255 < read.value then none
  else ({ st with out := st.out ++ [UInt8.ofNat read.value] }).unmixed.map (·, read.rest)

/-- A Unicode escape of this value.  A high surrogate goes back to the loop's start at once. -/
def unicode (st : Escapes) (value : Nat) : Option Escapes :=
  match st.highSurrogate with
  | some high =>
    if IsLowSurrogate value then
      (charFromU32 (joinSurrogates high value)).bind fun ch =>
        ({ st with highSurrogate := none }.pushChar ch).unmixed
    else none
  | none =>
    if IsHighSurrogate value then some { st with highSurrogate := some value }
    else (charFromU32 value).bind fun ch => (st.pushChar ch).unmixed

/-- An escape whose value `hexValue` has read; `next` is `x`, `u` or `U`. -/
def hex (st : Escapes) (next : Char) (cs : List Char) : Option (Escapes × List Char) :=
  (hexValue next cs).bind fun (value, rest) =>
    if next = 'x' then
      let st := { st with out := st.out ++ [UInt8.ofNat value], byteEscape := true }
      st.unmixed.map (·, rest)
    else ({ st with unicodeEscape := true }.unicode value).map (·, rest)

/-- What comes after a backslash. -/
def escape (st : Escapes) : List Char → Option (Escapes × List Char)
  | [] => none
  | next :: rest =>
    match simpleEscape next with
    | some ch => (st.pushChar ch).unmixed.map (·, rest)
    | none =>
      if (octalDigit next).isSome then st.octal (next :: rest)
      else if next = 'x' ∨ next = 'u' ∨ next = 'U' then st.hex next rest
      else none

/-- One turn of the loop.  After a high surrogate there has to be a Unicode escape. -/
def step (st : Escapes) (c : Char) (cs : List Char) : Option (Escapes × List Char) :=
  if st.highSurrogate.isSome ∧ ¬ (c = '\\' ∧ (cs.head? = some 'u' ∨ cs.head? = some 'U')) then none
  else if c ≠ '\\' then some (st.pushChar c, cs)
  else st.escape cs

end Escapes

theorem length_readDigits (digit : Char → Option Nat) (base max value digits : Nat)
    (cs : List Char) : (readDigits digit base max value digits cs).rest.length ≤ cs.length := by
  fun_induction readDigits digit base max value digits cs with
  | case3 max value digits c cs d hd ih => exact Nat.le_succ_of_le ih
  | _ => exact Nat.le_refl _

theorem length_hexValue {next : Char} {cs rest : List Char} {value : Nat}
    (h : hexValue next cs = some (value, rest)) : rest.length ≤ cs.length := by
  have htail : ∀ xs : List Char, xs.tail.length ≤ xs.length := by
    intro xs
    rw [List.length_tail]
    exact Nat.sub_le _ _
  have hread := length_readDigits hexDigit 16 (maxDigits next) 0 0
  by_cases hbraced : next ≠ 'x' ∧ cs.head? = some '{'
  · simp only [hexValue, if_pos hbraced] at h
    split at h
    · cases h
    · split at h
      · cases h
        exact (htail _).trans ((hread _).trans (htail _))
      · cases h
  · simp only [hexValue, if_neg hbraced] at h
    split at h
    · cases h
    · cases h
      exact hread _

namespace Escapes

theorem length_octal {st st' : Escapes} {cs rest : List Char} (h : st.octal cs = some (st', rest)) :
    rest.length ≤ cs.length := by
  simp only [octal] at h
  split at h
  · cases h
  · obtain ⟨st₁, -, hpair⟩ := Option.map_eq_some_iff.mp h
    cases hpair
    exact length_readDigits ..

theorem length_hex {st st' : Escapes} {next : Char} {cs rest : List Char}
    (h : st.hex next cs = some (st', rest)) : rest.length ≤ cs.length := by
  obtain ⟨⟨value, rest'⟩, hread, h⟩ := Option.bind_eq_some_iff.mp h
  dsimp only at h
  split at h <;> obtain ⟨_, -, hpair⟩ := Option.map_eq_some_iff.mp h <;> cases hpair <;>
    exact length_hexValue hread

theorem length_escape {st st' : Escapes} {cs rest : List Char}
    (h : st.escape cs = some (st', rest)) : rest.length ≤ cs.length := by
  cases cs with
  | nil => cases h
  | cons next cs =>
    rw [escape] at h
    split at h
    · obtain ⟨st₁, -, hpair⟩ := Option.map_eq_some_iff.mp h
      cases hpair
      exact Nat.le_succ _
    · split at h
      · exact length_octal h
      · split at h
        · exact Nat.le_succ_of_le (length_hex h)
        · cases h

/-- A turn leaves a shorter text. -/
theorem length_step {st st' : Escapes} {c : Char} {cs rest : List Char}
    (h : st.step c cs = some (st', rest)) : rest.length < (c :: cs).length := by
  rw [List.length_cons, Nat.lt_succ_iff]
  rw [step] at h
  split at h
  · cases h
  · split at h
    · cases h
      exact Nat.le_refl _
    · exact length_escape h

/-- The loop: the bytes decoded, or nothing where the literal is kept as it is. -/
def scan (st : Escapes) (cs : List Char) : Option (List UInt8) :=
  match cs with
  | [] => if st.highSurrogate.isSome then none else some st.out
  | c :: cs =>
    match _h : st.step c cs with
    | none => none
    | some (st', rest) => scan st' rest
termination_by cs.length
decreasing_by exact length_step _h

theorem scan_nil (st : Escapes) :
    st.scan [] = if st.highSurrogate.isSome then none else some st.out := by rw [scan]

theorem scan_cons (st : Escapes) (c : Char) (cs : List Char) :
    st.scan (c :: cs) = (st.step c cs).bind fun next => next.1.scan next.2 := by
  rw [scan]
  split
  · rename_i hstep
    rw [hstep]
    rfl
  · rename_i hstep
    rw [hstep]
    rfl

end Escapes

/-- Decode the escapes of a text, if it has a value that is a text. -/
def decodeREscapes (s : List Char) : Option (List Char) := (({} : Escapes).scan s).bind fromUtf8

def processREscapes (s : List Char) : List Char := (decodeREscapes s).getD s

end Ry.Syntax
