import Ry.Core.Lengths
import Ry.Lib.Bytes

/-! # The text of an inferred type

`presentation.rs`: a renderer writes a type piece by piece and stops where the next piece would not
fit.  `compact_hint` has 160 bytes and leaves facts out, `expanded_type` has 8192 and means to write
every represented fact.

Which characters a debug string shows as they are is a table of the standard library; it is a
parameter here.
-/

namespace Ry.Presentation

def hintBytes : Nat := 160

def detailBytes : Nat := 8192

def maxDepth : Nat := 16

structure TypeView where
  text : List Char
  truncated : Bool
deriving DecidableEq

/-! ## Pieces -/

def modeText : Mode → List Char
  | .logical => "logical".toList
  | .integer => "integer".toList
  | .double => "double".toList
  | .complex => "complex".toList
  | .character => "character".toList
  | .raw => "raw".toList
  | .list => "list".toList
  | .null => "NULL".toList
  | .function => "function".toList
  | .environment => "environment".toList
  | .language => "language".toList
  | .opaqueMode => "opaque".toList
  | .union => "union".toList

def lengthText : Length → List Char
  | .zero => ['0']
  | .one => ['1']
  | .known value => Nat.toDigits 10 value
  | .unknown => ['?']
  | .nonempty => ['1', '+']
  | .atLeast value => Nat.toDigits 10 value ++ ['+']

variable (isPlain : Char → Bool)

/-- One character of a debug string. -/
def escapeDebug (c : Char) : List Char :=
  if c = '\x00' then ['\\', '0']
  else if c = '\t' then ['\\', 't']
  else if c = '\r' then ['\\', 'r']
  else if c = '\n' then ['\\', 'n']
  else if c = '\\' then ['\\', '\\']
  else if c = '"' then ['\\', '"']
  else if isPlain c then [c]
  else ['\\', 'u', '\x7b'] ++ Nat.toDigits 16 c.toNat ++ ['\x7d']

/-- The text in quotes, as `{:?}` writes it. -/
def debugText (text : List Char) : List Char := '"' :: (text.flatMap (escapeDebug isPlain) ++ ['"'])

/-! ## The renderer -/

structure Renderer where
  text : List Char
  maxBytes : Nat
  compact : Bool
  truncated : Bool

namespace Renderer

def new (maxBytes : Nat) (compact : Bool) : Renderer := ⟨[], maxBytes, compact, false⟩

def push (r : Renderer) (value : List Char) : Renderer :=
  if r.truncated then r
  else if byteLen value > r.maxBytes - byteLen r.text then { r with truncated := true }
  else { r with text := r.text ++ value }

/-- A name in quotes, cut to one character for each byte that is left. -/
def escapedName (r : Renderer) (name : List Char) : Renderer :=
  r.push (debugText isPlain (name.take (r.maxBytes - byteLen r.text)))

/-- Drop characters from the end until the marker fits. -/
def popFor (maxBytes : Nat) (text : List Char) : List Char :=
  if text ≠ [] ∧ byteLen text + 3 > maxBytes then popFor maxBytes text.dropLast else text
termination_by text.length
decreasing_by
  rename_i h
  rw [List.length_dropLast]
  exact Nat.sub_lt (List.length_pos_of_ne_nil h.1) one_pos

def finish (r : Renderer) : TypeView :=
  if r.truncated then ⟨popFor r.maxBytes r.text ++ ['…'], true⟩ else ⟨r.text, false⟩

/-- The names of a class vector, from the `index`-th on. -/
def classNames (index : Nat) : List String → Renderer → Renderer
  | [], r => r
  | name :: names, r =>
    if r.truncated then r
    else
      let r := if index ≠ 0 then r.push [','] else r
      classNames (index + 1) names (r.escapedName isPlain name.toList)

def classVector (cls : ClassVector) (r : Renderer) : Renderer :=
  if cls.known then
    if cls.names.length > 0 ∨ r.compact = false then
      let r := r.push (if r.compact then [':'] else " class=[".toList)
      let r := r.classNames isPlain 0 cls.names
      if r.compact = false then
        let r := r.push [']']
        if cls.names.length ≥ 4 then r.push " (may be truncated at 4 classes)".toList else r
      else if cls.names.length ≥ 4 then r.push ['+']
      else r
    else r
  else r.push (if r.compact then [':', '?'] else " class=?".toList)

/-- How many of a list are shown. -/
def shown (r : Renderer) (length : Nat) : Nat := if r.compact then min length 3 else length

/-- A function's type where no signature is known. -/
def noSignature (mode : Mode) (r : Renderer) : Renderer :=
  if mode.mayBeFunction then
    r.push (if r.compact then " (params?, return?)".toList else " function=?".toList)
  else r

def closeSchema (complete locallyConstructed : Bool) (r : Renderer) : Renderer :=
  let r := r.push (if complete then "; complete\x7d".toList else "; open\x7d".toList)
  if r.compact = false then
    r.push (if locallyConstructed then " (locally constructed: true)".toList
      else " (locally constructed: false)".toList)
  else r

end Renderer

mutual
def ty : RType → Nat → Renderer → Renderer
  | ⟨mode, length, cls, columns, fnSig, members, _⟩, depth, r =>
    if r.truncated then r
    else if depth ≥ maxDepth then
      { r.push "[nested facts omitted]".toList with truncated := true }
    else
      let r := r.push (modeText mode ++ "<len=".toList ++ lengthText length ++ ['>'])
      let r := if mode = .union then (tyMembers members (depth + 1) (r.push ['['])).push [']'] else r
      tySignature fnSig mode (depth + 1)
        (tyColumns columns (depth + 1) (r.classVector isPlain cls))
termination_by structural t => t
def tyMembers : Option (List RType) → Nat → Renderer → Renderer
  | none, _, r => r.push ['?']
  | some members, depth, r =>
    let shown := r.shown members.length
    let r := tyList members 0 shown depth r
    if shown < members.length ∧ r.truncated = false then
      r.push (", +".toList ++ Nat.toDigits 10 (members.length - shown) ++
        " known alternatives".toList)
    else r
termination_by structural m => m
def tyColumns : Option (ColumnSchema RType) → Nat → Renderer → Renderer
  | none, _, r => if r.compact = false then r.push " columns=?".toList else r
  | some schema, depth, r => tySchema schema depth (r.push ['\x7b'])
termination_by structural s => s
def tySchema : ColumnSchema RType → Nat → Renderer → Renderer
  | ⟨columns, complete, locallyConstructed⟩, depth, r =>
    let shown := r.shown columns.length
    let r := tyFields columns 0 shown depth r
    let r :=
      if shown < columns.length ∧ r.truncated = false then
        let r := if shown ≠ 0 then r.push [',', ' '] else r
        r.push ('+' :: Nat.toDigits 10 (columns.length - shown) ++ " known fields".toList)
      else r
    r.closeSchema complete locallyConstructed
termination_by structural s => s
def tySignature : Option (FunctionSignature RType) → Mode → Nat → Renderer → Renderer
  | none, mode, _, r => r.noSignature mode
  | some signature, _, depth, r => tyFunction signature depth r
termination_by structural s => s
def tyFunction : FunctionSignature RType → Nat → Renderer → Renderer
  | ⟨params, returnType⟩, depth, r =>
    if r.compact then ty returnType depth (r.push " (params partial) -> ".toList)
    else
      let r := tyList params 0 params.length depth (r.push " function=partial(params=[".toList)
      (ty returnType depth (r.push "], return=".toList)).push [')']
termination_by structural s => s
/-- The types from the `index`-th on, up to `shown`. -/
def tyList : List RType → Nat → Nat → Nat → Renderer → Renderer
  | [], _, _, _, r => r
  | t :: ts, index, shown, depth, r =>
    if index ≥ shown ∨ r.truncated = true then r
    else
      let r := if index ≠ 0 then r.push [',', ' '] else r
      tyList ts (index + 1) shown depth (ty t depth r)
termination_by structural ts => ts
def tyFields : List (String × RType) → Nat → Nat → Nat → Renderer → Renderer
  | [], _, _, _, r => r
  | c :: cs, index, shown, depth, r =>
    if index ≥ shown ∨ r.truncated = true then r
    else
      let r := if index ≠ 0 then r.push [',', ' '] else r
      tyFields cs (index + 1) shown depth (tyField c depth r)
termination_by structural cs => cs
def tyField : String × RType → Nat → Renderer → Renderer
  | (name, t), depth, r => ty t depth ((r.escapedName isPlain name.toList).push [':', ' '])
termination_by structural c => c
end

def compactHint (t : RType) : TypeView := (ty isPlain t 0 (.new hintBytes true)).finish

def expandedType (t : RType) : TypeView := (ty isPlain t 0 (.new detailBytes false)).finish

end Ry.Presentation
