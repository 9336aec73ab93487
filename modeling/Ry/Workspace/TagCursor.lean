import Ry.Workspace.TagWalker

/-! # The tag walker's cursor

`TagWalker` of `serialized.rs` with its offsets: an index into the slice, and arithmetic of 64
bits that fails where the source checks it and stops the program where it does not.  A walk that
fails leaves the cursor where it was, as `&mut self` does.
-/

namespace Ry

/-- Why a walk ends early. -/
inductive Stop
  /-- `Err(())` -/
  | malformed
  /-- A result out of range, unchecked. -/
  | overflow
  | fuel
deriving DecidableEq, Repr

/-- A byte slice, which takes at most half of the address space. -/
structure ByteSlice where
  bytes : List UInt8
  bound : bytes.length < 2 ^ 63

structure Cursor where
  pos : Nat
  refs : List (Option SymbolName)
  /-- The offsets `pos` had before, last first. -/
  trail : List Nat

def CursorWalk (α : Type) : Type := ByteSlice → Cursor → Except Stop α × Cursor

instance : Monad CursorWalk where
  pure a := fun _ c => (.ok a, c)
  bind m f := fun s c =>
    match m s c with
    | (.ok a, c') => f a s c'
    | (.error e, c') => (.error e, c')

namespace CursorWalk

def stop {α : Type} (e : Stop) : CursorWalk α := fun _ c => (.error e, c)

def fail {α : Type} : CursorWalk α := stop .malformed

def position : CursorWalk Nat := fun _ c => (.ok c.pos, c)

def length : CursorWalk Nat := fun s c => (.ok s.bytes.length, c)

/-- `get(start..end)` -/
def slice (start stop : Nat) : CursorWalk (List UInt8) := fun s c =>
  if start ≤ stop ∧ stop ≤ s.bytes.length then
    (.ok ((s.bytes.drop start).take (stop - start)), c)
  else (.error .malformed, c)

def moveTo (pos : Nat) : CursorWalk Unit := fun _ c =>
  (.ok (), { c with pos := pos, trail := c.pos :: c.trail })

def checkedAdd (a b : Nat) : CursorWalk Nat := if a + b < 2 ^ 64 then pure (a + b) else fail

def checkedMul (a b : Nat) : CursorWalk Nat := if a * b < 2 ^ 64 then pure (a * b) else fail

def add (a b : Nat) : CursorWalk Nat := if a + b < 2 ^ 64 then pure (a + b) else stop .overflow

def sub (a b : Nat) : CursorWalk Nat := if b ≤ a then pure (a - b) else stop .overflow

def take (len : Nat) : CursorWalk (List UInt8) := do
  let pos ← position
  let stop ← checkedAdd pos len
  let chunk ← slice pos stop
  moveTo stop
  return chunk

def u32 : CursorWalk Nat := do
  return ofBe (← take 4)

def i32 : CursorWalk Int := do
  return signed32 (← u32)

/-- `usize::try_from`. -/
def usize (n : Int) : CursorWalk Nat := if 0 ≤ n then pure n.toNat else fail

def peekU32 : CursorWalk Nat := do
  let pos ← position
  let stop ← checkedAdd pos 4
  return ofBe (← slice pos stop)

/-- One signed integer, or `-1` and a 64-bit count. -/
def vecLen : CursorWalk Nat := do
  let first ← i32
  if first = -1 then
    let hi ← u32
    let lo ← u32
    return (hi <<< 32 % 2 ^ 64) ||| lo
  else usize first

def skipBytes (count width : Nat) : CursorWalk Unit := do
  let len ← checkedMul count width
  let _ ← take len

/-- Each element occupies at least one word. -/
def checkCount (count : Nat) : CursorWalk Unit := do
  let len ← length
  let pos ← position
  let left ← sub len pos
  if left / 4 < count then fail else pure ()

def register (name : Option SymbolName) : CursorWalk Unit := fun _ c =>
  (.ok (), { c with refs := c.refs ++ [name] })

def tableLength : CursorWalk Nat := fun _ c => (.ok c.refs.length, c)

def setEntry (slot : Nat) (name : Option SymbolName) : CursorWalk Unit := fun _ c =>
  (.ok (), { c with refs := c.refs.set slot name })

/-- An earlier entry; the index counts from one. -/
def lookup (index : Nat) : CursorWalk (Option SymbolName) := fun _ c =>
  match index with
  | 0 => (.error .malformed, c)
  | slot + 1 =>
    match c.refs[slot]? with
    | some name => (.ok name, c)
    | none => (.error .malformed, c)

def times {α : Type} (count : Nat) (step : CursorWalk α) : CursorWalk Unit :=
  match count with
  | 0 => pure ()
  | count + 1 => do
    let _ ← step
    times count step

def optional {α : Type} (present : Bool) (step : CursorWalk α) : CursorWalk Unit :=
  if present then do
    let _ ← step
  else pure ()

/-- A call one level down. -/
def deeper {α : Type} (depth : Nat) (step : Nat → CursorWalk α) : CursorWalk α := do
  step (← add depth 1)

def charsxpBytes : CursorWalk (Option (List UInt8)) := do
  let word ← u32
  if word % 256 ≠ 9 then fail
  else
    let len ← i32
    if len = -1 then return none
    else
      let bytes ← take (← usize len)
      return some bytes

/-- A name that is not UTF-8 fails the walk. -/
def decodeName : Option (List UInt8) → CursorWalk (Option SymbolName)
  | none => pure none
  | some bytes =>
    match fromUtf8 bytes with
    | none => fail
    | some name => pure (some name)

def symbolName : CursorWalk (Option SymbolName) := do
  let slot ← tableLength
  register none
  let name ← decodeName (← charsxpBytes)
  setEntry slot name
  return name

def afterRepDef (word : Nat) : CursorWalk Nat :=
  if word = 244 then do
    let _ ← u32
    u32
  else pure word

open TagWalk (maxWalkDepth hasAttr hasTag insertTag xdrFormat)

mutual

def skipItem : Nat → Nat → CursorWalk (Option SymbolName)
  | 0, _ => stop .fuel
  | fuel + 1, depth => if maxWalkDepth < depth then fail else skipTail fuel depth
termination_by structural fuel => fuel

def skipTail : Nat → Nat → CursorWalk (Option SymbolName)
  | 0, _ => stop .fuel
  | fuel + 1, depth => do
    let word ← u32
    match word % 256 with
    | 255 =>
      if word / 256 = 0 then lookup (← u32) else lookup (word / 256)
    | 241 | 242 | 250 | 251 | 252 | 253 | 254 => return none
    | 1 => symbolName
    | 4 =>
      register none
      let _ ← u32
      times 4 (deeper depth (skipItem fuel))
      return none
    | 247 | 248 | 249 =>
      register none
      let _ ← u32
      let count ← vecLen
      checkCount count
      times count charsxpBytes
      return none
    | 2 | 6 | 5 | 17 =>
      optional (hasAttr word) (deeper depth (skipItem fuel))
      optional (hasTag word) (deeper depth (skipItem fuel))
      let _ ← deeper depth (skipItem fuel)
      skipTail fuel depth
    | 3 =>
      optional (hasAttr word) (deeper depth (skipItem fuel))
      let _ ← deeper depth (skipItem fuel)
      let _ ← deeper depth (skipItem fuel)
      skipTail fuel depth
    | typ =>
      skipPayload fuel typ (hasAttr word) depth
      return none
termination_by structural fuel => fuel

def skipPayload : Nat → Nat → Bool → Nat → CursorWalk Unit
  | 0, _, _, _ => stop .fuel
  | fuel + 1, typ, attr, depth => do
    payload fuel typ depth
    optional (attr && typ != 238) (deeper depth (skipItem fuel))
termination_by structural fuel => fuel

def payload : Nat → Nat → Nat → CursorWalk Unit
  | 0, _, _ => stop .fuel
  | fuel + 1, typ, depth =>
    match typ with
    | 0 | 25 => pure ()
    | 7 | 8 => do
      let len ← usize (← i32)
      let _ ← take len
    | 9 => do
      let len ← i32
      if len = -1 then pure ()
      else
        let _ ← take (← usize len)
    | 10 | 13 => do skipBytes (← vecLen) 4
    | 14 => do skipBytes (← vecLen) 8
    | 15 => do skipBytes (← vecLen) 16
    | 16 => do
      let count ← vecLen
      checkCount count
      times count charsxpBytes
    | 19 | 20 => do
      let count ← vecLen
      checkCount count
      times count (deeper depth (skipItem fuel))
    | 21 => skipBytecode fuel depth
    | 22 => do
      register none
      times 2 (deeper depth (skipItem fuel))
    | 23 => register none
    | 24 => do skipBytes (← vecLen) 1
    | 238 => times 3 (deeper depth (skipItem fuel))
    | _ => fail
termination_by structural fuel => fuel

def skipBytecode : Nat → Nat → CursorWalk Unit
  | 0, _ => stop .fuel
  | fuel + 1, depth => do
    let _ ← u32
    deeper depth (skipBcBody fuel)
termination_by structural fuel => fuel

def skipBcBody : Nat → Nat → CursorWalk Unit
  | 0, _ => stop .fuel
  | fuel + 1, depth =>
    if maxWalkDepth < depth then fail
    else do
      if (← peekU32) % 256 ≠ 13 then fail
      else
        let _ ← deeper depth (skipItem fuel)
        let count ← usize (← i32)
        checkCount count
        times count (skipConstant fuel depth)
termination_by structural fuel => fuel

def skipConstant : Nat → Nat → CursorWalk Unit
  | 0, _ => stop .fuel
  | fuel + 1, depth => do
    match ← peekU32 with
    | 21 =>
      let _ ← u32
      deeper depth (skipBcBody fuel)
    | 2 | 6 | 239 | 240 | 243 | 244 => deeper depth (skipBcLang fuel)
    | _ =>
      let _ ← u32
      let _ ← deeper depth (skipItem fuel)
termination_by structural fuel => fuel

def skipBcLang : Nat → Nat → CursorWalk Unit
  | 0, _ => stop .fuel
  | fuel + 1, depth => if maxWalkDepth < depth then fail else skipBcTail fuel depth
termination_by structural fuel => fuel

def skipBcTail : Nat → Nat → CursorWalk Unit
  | 0, _ => stop .fuel
  | fuel + 1, depth => do
    let word ← u32
    if word = 243 then
      let _ ← u32
    else
      match ← afterRepDef word with
      | 0 => let _ ← deeper depth (skipItem fuel)
      | 239 | 240 =>
        let _ ← deeper depth (skipItem fuel)
        let _ ← deeper depth (skipItem fuel)
        deeper depth (skipBcLang fuel)
        skipBcTail fuel depth
      | 2 | 6 =>
        let _ ← deeper depth (skipItem fuel)
        deeper depth (skipBcLang fuel)
        skipBcTail fuel depth
      | _ => fail
termination_by structural fuel => fuel
end

/-- The cells of the top-level pairlist. -/
def cells : Nat → Finset SymbolName → CursorWalk (Finset SymbolName)
  | 0, _ => stop .fuel
  | fuel + 1, names => do
    let word ← u32
    match word % 256 with
    | 254 => return names
    | 2 =>
      optional (hasAttr word) (skipItem fuel 1)
      let tag ← if hasTag word then skipItem fuel 1 else pure none
      let _ ← skipItem fuel 1
      cells fuel (insertTag tag names)
    | _ => fail

def header : CursorWalk Unit := do
  let version ← i32
  let _ ← i32
  let _ ← i32
  if version = 3 then
    let len ← usize (← i32)
    let _ ← take len
  else if version = 2 then pure ()
  else fail

def enumerate (fuel : Nat) : CursorWalk (Finset SymbolName) := do
  if (← take 2) ≠ xdrFormat then fail
  else
    header
    let names ← cells fuel ∅
    if (← position) ≠ (← length) then fail else return names

end CursorWalk

/-- `enumerate_workspace_tags`, and where it leaves the cursor. -/
def ByteSlice.enumerateTags (payload : ByteSlice) : Except Stop (Finset SymbolName) × Cursor :=
  CursorWalk.enumerate payload.bytes.length payload ⟨0, [], []⟩

end Ry
