import Ry.Lib.Bytes
import Mathlib.Data.List.TakeWhile

/-! # Line and column conversions

`positions.rs`, and the edit that `documents.rs` reports to the incremental parser.  Lines end
at `\n` only, and the `\r` of a CRLF is not a column character.  Columns are UTF-16 units on the
wire and bytes in a parser's points.
-/

namespace Ry

structure Position where
  line : UInt32
  character : UInt32
deriving DecidableEq

/-- A parser's position: a row and a byte column. -/
structure Point where
  row : Nat
  column : Nat
deriving DecidableEq

/-- A replaced span, as the incremental parser wants to know it. -/
structure InputEdit where
  startByte : Nat
  oldEndByte : Nat
  newEndByte : Nat
  startPosition : Point
  oldEndPosition : Point
  newEndPosition : Point
deriving DecidableEq

def utf16Len (ch : Char) : UInt32 := if ch.toNat < 0x10000 then 1 else 2

/-- The walk behind the conversions: the position of the next character. -/
def scanStep (scan : Position) (ch : Char) (rest : List Char) : Position :=
  if ch = '\n' then ⟨scan.line + 1, 0⟩
  else if ch = '\r' ∧ rest.head? = some '\n' then scan
  else { scan with character := scan.character + utf16Len ch }

/-- The walk from a character at `byte`.  A position inside a surrogate pair has no offset. -/
def scanFor (target : Position) (scan : Position) (byte : Nat) : List Char → Option Nat
  | [] => if scan = target then some byte else none
  | ch :: rest =>
    if scan.line = target.line ∧ scan.character = target.character then some byte
    else if scan.line = target.line ∧ scan.character > target.character then none
    else scanFor target (scanStep scan ch rest) (byte + ch.utf8Size) rest

/-- A wire position as a byte offset. -/
def positionToByteOffset (text : List Char) (target : Position) : Option Nat :=
  scanFor target ⟨0, 0⟩ 0 text

/-- What follows the last newline. -/
def lastLine (text : List Char) : List Char := (text.reverse.takeWhile (· ≠ '\n')).reverse

/-- Where a text ends. -/
def endPoint (text : List Char) : Point := ⟨text.count '\n', byteLen (lastLine text)⟩

def byteOffsetToPoint (text : List Char) (byteOffset : Nat) : Point :=
  endPoint (prefixBytes text byteOffset)

structure Range where
  start : Position
  stop : Position
deriving DecidableEq

/-- The bytes a wire range covers. -/
def rangeByteSpan (text : List Char) (range : Range) : Option (Nat × Nat) :=
  match positionToByteOffset text range.start, positionToByteOffset text range.stop with
  | some start, some stop => if start ≤ stop then some (start, stop) else none
  | _, _ => none

def replaceRange (text : List Char) (start stop : Nat) (new : List Char) : List Char :=
  prefixBytes text start ++ new ++ suffixBytes text stop

/-- The edit that replaces bytes of `oldText` with `newText`. -/
def inputEdit (oldText : List Char) (startByte oldEndByte : Nat) (newText : List Char) :
    InputEdit :=
  let startPosition := byteOffsetToPoint oldText startByte
  { startByte
    oldEndByte
    newEndByte := startByte + byteLen newText
    startPosition
    oldEndPosition := byteOffsetToPoint oldText oldEndByte
    newEndPosition :=
      if '\n' ∈ newText then
        ⟨startPosition.row + newText.count '\n', byteLen (lastLine newText)⟩
      else ⟨startPosition.row, startPosition.column + byteLen newText⟩ }

/-- The edit says what was replaced: with its offsets and their points, in the old text and in
the new. -/
def InputEdit.Of (e : InputEdit) (old new : List Char) : Prop :=
  ∃ before removed inserted after,
    old = before ++ removed ++ after ∧ new = before ++ inserted ++ after ∧
    e = { startByte := byteLen before
          oldEndByte := byteLen (before ++ removed)
          newEndByte := byteLen (before ++ inserted)
          startPosition := endPoint before
          oldEndPosition := endPoint (before ++ removed)
          newEndPosition := endPoint (before ++ inserted) }

theorem lastLine_append (before text : List Char) :
    lastLine (before ++ text) =
      if '\n' ∈ text then lastLine text else lastLine before ++ text := by
  unfold lastLine
  rw [List.reverse_append, List.takeWhile_append]
  split
  · rename_i hall
    have hnone : '\n' ∉ text := by
      intro hmem
      have hwhole : text.reverse.takeWhile (· ≠ '\n') = text.reverse :=
        List.takeWhile_prefix _ |>.eq_of_length hall
      have hkeep := List.mem_takeWhile_imp (hwhole ▸ List.mem_reverse.mpr hmem)
      simp at hkeep
    rw [if_neg hnone, List.reverse_append, List.reverse_reverse]
  · rename_i hall
    have hsome : '\n' ∈ text := by
      by_contra hnone
      refine hall (congrArg List.length (List.takeWhile_eq_self_iff.mpr fun c hc => ?_))
      have hne : c ≠ '\n' := fun h => hnone (h ▸ List.mem_reverse.mp hc)
      simpa using hne
    rw [if_pos hsome]

theorem endPoint_append (before text : List Char) :
    endPoint (before ++ text) =
      if '\n' ∈ text then ⟨(endPoint before).row + text.count '\n', byteLen (lastLine text)⟩
      else ⟨(endPoint before).row, (endPoint before).column + byteLen text⟩ := by
  unfold endPoint
  rw [lastLine_append, List.count_append]
  split
  · rfl
  · rename_i hnone
    rw [List.count_eq_zero.mpr hnone, byteLen_append, Nat.add_zero]

/-- An offset that is found is a character boundary. -/
theorem scanFor_boundary {target scan : Position} {byte n : Nat} {text : List Char}
    (h : scanFor target scan byte text = some n) :
    ∃ before after, text = before ++ after ∧ n = byte + byteLen before := by
  induction text generalizing scan byte with
  | nil =>
    rw [scanFor] at h
    split at h
    · exact ⟨[], [], rfl, (Option.some.inj h).symm⟩
    · exact nomatch h
  | cons ch rest ih =>
    rw [scanFor] at h
    split at h
    · exact ⟨[], ch :: rest, rfl, (Option.some.inj h).symm⟩
    · split at h
      · exact nomatch h
      · obtain ⟨before, after, rfl, hn⟩ := ih h
        exact ⟨ch :: before, after, rfl, by rw [hn, byteLen_cons, Nat.add_assoc]⟩

/-- A span that is found is cut out at character boundaries. -/
theorem rangeByteSpan_boundary {text : List Char} {range : Range} {start stop : Nat}
    (h : rangeByteSpan text range = some (start, stop)) :
    ∃ before removed after, text = before ++ removed ++ after ∧ start = byteLen before ∧
      stop = byteLen (before ++ removed) := by
  unfold rangeByteSpan at h
  split at h
  · rename_i start' stop' hstart hstop
    split at h
    · rename_i hle
      obtain ⟨rfl, rfl⟩ := Prod.mk.inj (Option.some.inj h)
      obtain ⟨before, rest, htext, hbefore⟩ := scanFor_boundary hstart
      obtain ⟨upTo, after, htext', hupTo⟩ := scanFor_boundary hstop
      rw [Nat.zero_add] at hbefore hupTo
      obtain ⟨removed, rfl, rfl⟩ :=
        prefix_of_byteLen_le (htext.symm.trans htext') (hbefore ▸ hupTo ▸ hle)
      exact ⟨before, removed, after, htext', hbefore, hupTo⟩
    · exact nomatch h
  · exact nomatch h

/-- The edit reported to the parser is the one made to the text. -/
theorem inputEdit_of {text : List Char} {range : Range} {start stop : Nat} (new : List Char)
    (h : rangeByteSpan text range = some (start, stop)) :
    (inputEdit text start stop new).Of text (replaceRange text start stop new) := by
  obtain ⟨before, removed, after, rfl, rfl, rfl⟩ := rangeByteSpan_boundary h
  have hlead : prefixBytes (before ++ removed ++ after) (byteLen before) = before := by
    rw [List.append_assoc, prefixBytes_append]
  refine ⟨before, removed, new, after, rfl, ?_, ?_⟩
  · rw [replaceRange, hlead, suffixBytes_append]
  · unfold inputEdit byteOffsetToPoint
    rw [hlead, prefixBytes_append, byteLen_append, byteLen_append, endPoint_append before new]

end Ry
