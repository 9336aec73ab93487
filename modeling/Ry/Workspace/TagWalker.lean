import Ry.Lib.BigEndian
import Ry.Lib.Utf8
import Mathlib.Data.Finset.Basic

/-! # The tag walker

`enumerate_workspace_tags` and `TagWalker` of `serialized.rs`.  The cursor is the rest of the
stream, and a count beyond it fails as an offset past the end does.

The walker's calls nest: its fuel is the number of bytes, and every third call at most reads a
word, so a stream is never cut short by it.
-/

namespace Ry

abbrev SymbolName := List Char

structure Walker where
  /-- The bytes from `pos` on. -/
  rest : List UInt8
  /-- The reference table: symbols keep their name. -/
  refs : List (Option SymbolName)

/-- A step of the walk, or its failure. -/
def TagWalk (α : Type) : Type := Walker → Option (α × Walker)

instance : Monad TagWalk where
  pure a := fun w => some (a, w)
  bind m f := fun w => (m w).bind fun (a, w') => f a w'

namespace TagWalk

def fail {α : Type} : TagWalk α := fun _ => none

def take (len : Nat) : TagWalk (List UInt8) := fun w =>
  if len ≤ w.rest.length then some (w.rest.take len, { w with rest := w.rest.drop len }) else none

def u32 : TagWalk Nat := do
  return ofBe (← take 4)

def i32 : TagWalk Int := do
  return signed32 (← u32)

/-- `usize::try_from`. -/
def usize (n : Int) : TagWalk Nat := if 0 ≤ n then pure n.toNat else fail

def peekU32 : TagWalk Nat := fun w =>
  if 4 ≤ w.rest.length then some (ofBe (w.rest.take 4), w) else none

/-- One signed integer, or `-1` and a 64-bit count. -/
def vecLen : TagWalk Nat := do
  let first ← i32
  if first = -1 then
    let hi ← u32
    let lo ← u32
    return hi * 2 ^ 32 + lo
  else usize first

def skipBytes (count width : Nat) : TagWalk Unit := do
  let _ ← take (count * width)

/-- Each element occupies at least one word. -/
def checkCount (count : Nat) : TagWalk Unit := fun w =>
  if w.rest.length / 4 < count then none else some ((), w)

/-- A new entry of the reference table. -/
def register (name : Option SymbolName) : TagWalk Unit := fun w =>
  some ((), { w with refs := w.refs ++ [name] })

/-- An earlier entry; the index counts from one. -/
def lookup (index : Nat) : TagWalk (Option SymbolName) := fun w =>
  match index with
  | 0 => none
  | slot + 1 => w.refs[slot]?.map (·, w)

def times {α : Type} (count : Nat) (step : TagWalk α) : TagWalk Unit :=
  match count with
  | 0 => pure ()
  | count + 1 => do
    let _ ← step
    times count step

def optional {α : Type} (present : Bool) (step : TagWalk α) : TagWalk Unit :=
  if present then do
    let _ ← step
  else pure ()

/-- The bytes of a CHARSXP, `none` for `NA_STRING`. -/
def charsxpBytes : TagWalk (Option (List UInt8)) := do
  let word ← u32
  if word % 256 ≠ 9 then fail
  else
    let len ← i32
    if len = -1 then return none
    else
      let bytes ← take (← usize len)
      return some bytes

/-- The name of a symbol, its CHARSXP to come.  A name that is not UTF-8 fails the walk. -/
def symbolName : TagWalk (Option SymbolName) := do
  match ← charsxpBytes with
  | none =>
    register none
    return none
  | some bytes =>
    match fromUtf8 bytes with
    | none => fail
    | some name =>
      register (some name)
      return some name

/-- The word of a node, after the mark of a shared one. -/
def afterRepDef (word : Nat) : TagWalk Nat :=
  if word = 244 then do
    let _ ← u32
    u32
  else pure word

def maxWalkDepth : Nat := 256

def hasAttr (word : Nat) : Bool := word.testBit 9

def hasTag (word : Nat) : Bool := word.testBit 10

mutual

/-- One item: the name of a symbol or of a reference to one. -/
def skipItem : Nat → Nat → TagWalk (Option SymbolName)
  | 0, _ => fail
  | fuel + 1, depth => if maxWalkDepth < depth then fail else skipTail fuel depth

/-- The loop of `skip_item`: a CDR, or a closure's body, is the next round. -/
def skipTail : Nat → Nat → TagWalk (Option SymbolName)
  | 0, _ => fail
  | fuel + 1, depth => do
    let word ← u32
    match word % 256 with
    | 255 =>
      if word / 256 = 0 then lookup (← u32) else lookup (word / 256)
    | 241 | 242 | 250 | 251 | 252 | 253 | 254 => return none
    | 1 => symbolName
    | 4 =>
      register none
      let _ ← u32
      times 4 (skipItem fuel (depth + 1))
      return none
    | 247 | 248 | 249 =>
      register none
      let _ ← u32
      let count ← vecLen
      checkCount count
      times count charsxpBytes
      return none
    | 2 | 6 | 5 | 17 =>
      optional (hasAttr word) (skipItem fuel (depth + 1))
      optional (hasTag word) (skipItem fuel (depth + 1))
      let _ ← skipItem fuel (depth + 1)
      skipTail fuel depth
    | 3 =>
      optional (hasAttr word) (skipItem fuel (depth + 1))
      let _ ← skipItem fuel (depth + 1)
      let _ ← skipItem fuel (depth + 1)
      skipTail fuel depth
    | typ =>
      skipPayload fuel typ (hasAttr word) depth
      return none

/-- The payload after a header word, then the attributes unless the type writes them itself. -/
def skipPayload : Nat → Nat → Bool → Nat → TagWalk Unit
  | 0, _, _, _ => fail
  | fuel + 1, typ, attr, depth => do
    payload fuel typ depth
    optional (attr && typ != 238) (skipItem fuel (depth + 1))

def payload : Nat → Nat → Nat → TagWalk Unit
  | 0, _, _ => fail
  | fuel + 1, typ, depth =>
    match typ with
    | 0 | 25 => pure ()
    | 7 | 8 => do
      let len ← usize (← i32)
      let _ ← take len
    | 9 => do
      let len ← i32
      if len = -1 then pure ()
      else
        let _ ← take (← usize len)
    | 10 | 13 => do skipBytes (← vecLen) 4
    | 14 => do skipBytes (← vecLen) 8
    | 15 => do skipBytes (← vecLen) 16
    | 16 => do
      let count ← vecLen
      checkCount count
      times count charsxpBytes
    | 19 | 20 => do
      let count ← vecLen
      checkCount count
      times count (skipItem fuel (depth + 1))
    | 21 => skipBytecode fuel depth
    | 22 => do
      register none
      times 2 (skipItem fuel (depth + 1))
    | 23 => register none
    | 24 => do skipBytes (← vecLen) 1
    | 238 => times 3 (skipItem fuel (depth + 1))
    | _ => fail

def skipBytecode : Nat → Nat → TagWalk Unit
  | 0, _ => fail
  | fuel + 1, depth => do
    let _ ← u32
    skipBcBody fuel (depth + 1)

/-- An INTSXP of instructions, then the constants. -/
def skipBcBody : Nat → Nat → TagWalk Unit
  | 0, _ => fail
  | fuel + 1, depth =>
    if maxWalkDepth < depth then fail
    else do
      if (← peekU32) % 256 ≠ 13 then fail
      else
        let _ ← skipItem fuel (depth + 1)
        let count ← usize (← i32)
        checkCount count
        times count (skipConstant fuel depth)

def skipConstant : Nat → Nat → TagWalk Unit
  | 0, _ => fail
  | fuel + 1, depth => do
    match ← peekU32 with
    | 21 =>
      let _ ← u32
      skipBcBody fuel (depth + 1)
    | 2 | 6 | 239 | 240 | 243 | 244 => skipBcLang fuel (depth + 1)
    | _ =>
      let _ ← u32
      let _ ← skipItem fuel (depth + 1)

def skipBcLang : Nat → Nat → TagWalk Unit
  | 0, _ => fail
  | fuel + 1, depth => if maxWalkDepth < depth then fail else skipBcTail fuel depth

/-- The loop of `skip_bc_lang`. -/
def skipBcTail : Nat → Nat → TagWalk Unit
  | 0, _ => fail
  | fuel + 1, depth => do
    let word ← u32
    if word = 243 then
      let _ ← u32
    else
      match ← afterRepDef word with
      | 0 => let _ ← skipItem fuel (depth + 1)
      | 239 | 240 =>
        let _ ← skipItem fuel (depth + 1)
        let _ ← skipItem fuel (depth + 1)
        skipBcLang fuel (depth + 1)
        skipBcTail fuel depth
      | 2 | 6 =>
        let _ ← skipItem fuel (depth + 1)
        skipBcLang fuel (depth + 1)
        skipBcTail fuel depth
      | _ => fail

end

/-- A tag that is not a symbol contributes no name. -/
def insertTag (tag : Option SymbolName) (names : Finset SymbolName) : Finset SymbolName :=
  match tag with
  | some tag => insert tag names
  | none => names

/-- The cells of the top-level pairlist. -/
def cells : Nat → Finset SymbolName → TagWalk (Finset SymbolName)
  | 0, _ => fail
  | fuel + 1, names => do
    let word ← u32
    match word % 256 with
    | 254 => return names
    | 2 =>
      optional (hasAttr word) (skipItem fuel 1)
      let tag ← if hasTag word then skipItem fuel 1 else pure none
      let _ ← skipItem fuel 1
      cells fuel (insertTag tag names)
    | _ => fail

/-- The versions after the format line, and version 3's native encoding. -/
def header : TagWalk Unit := do
  let version ← i32
  let _ ← i32
  let _ ← i32
  if version = 3 then
    let len ← usize (← i32)
    let _ ← take len
  else if version = 2 then pure ()
  else fail

/-- `X` and a line feed. -/
def xdrFormat : List UInt8 := [88, 10]

def enumerate (fuel : Nat) : TagWalk (Finset SymbolName) := do
  if (← take 2) ≠ xdrFormat then fail
  else
    header
    cells fuel ∅

end TagWalk

/-- The tags of a workspace, if the walk ends exactly at the end of the stream. -/
def enumerateWorkspaceTags (payload : List UInt8) : Option (Finset SymbolName) :=
  match TagWalk.enumerate payload.length ⟨payload, []⟩ with
  | some (names, ⟨[], _⟩) => some names
  | _ => none

end Ry
