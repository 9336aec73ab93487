import Ry.Workspace.Serialized
import Mathlib.Data.Finset.Lattice.Lemmas

/-! # The walk reads what R writes

Each stretch of a serialized workspace is walked to its end, and leaves the walker's reference table
what R's is.
-/

namespace Ry

namespace TagWalk

open Xdr

variable {α β : Type} {word : Nat} {rest : List UInt8} {refs : List (Option SymbolName)}

theorem bind_apply (m : TagWalk α) (f : α → TagWalk β) (w : Walker) :
    (m >>= f) w = (m w).bind fun r => f r.1 r.2 := rfl

theorem pure_apply (a : α) (w : Walker) : (pure a : TagWalk α) w = some (a, w) := rfl

theorem bind_of_eq {m : TagWalk α} {f : α → TagWalk β} {w v : Walker} {a : α}
    (h : m w = some (a, v)) : (m >>= f) w = f a v := by
  rw [bind_apply, h, Option.bind_some]

theorem take_append (bytes rest : List UInt8) (refs : List (Option SymbolName)) :
    take bytes.length ⟨bytes ++ rest, refs⟩ = some (bytes, ⟨rest, refs⟩) := by
  unfold take
  rw [if_pos (by rw [List.length_append]; omega)]
  simp

theorem u32_be32 (word : Nat) (rest : List UInt8) (refs : List (Option SymbolName)) :
    u32 ⟨be32 word ++ rest, refs⟩ = some (word % 2 ^ 32, ⟨rest, refs⟩) := by
  have h := take_append (be32 word) rest refs
  rw [length_be32] at h
  rw [u32, bind_of_eq h, pure_apply, ofBe_be32]

theorem u32_of_lt (h : word < 2 ^ 32) (rest : List UInt8) (refs : List (Option SymbolName)) :
    u32 ⟨be32 word ++ rest, refs⟩ = some (word, ⟨rest, refs⟩) := by
  rw [u32_be32, Nat.mod_eq_of_lt h]

theorem i32_of_lt (h : word < 2 ^ 31) (rest : List UInt8) (refs : List (Option SymbolName)) :
    i32 ⟨be32 word ++ rest, refs⟩ = some ((word : Int), ⟨rest, refs⟩) := by
  rw [i32, bind_of_eq (u32_of_lt (by omega) rest refs), pure_apply, signed32_of_lt h]

theorem i32_minusOne (rest : List UInt8) (refs : List (Option SymbolName)) :
    i32 ⟨be32 (2 ^ 32 - 1) ++ rest, refs⟩ = some (-1, ⟨rest, refs⟩) := by
  rw [i32, bind_of_eq (u32_of_lt (by omega) rest refs), pure_apply, signed32_minusOne]

theorem usize_natCast (n : Nat) (w : Walker) : usize (n : Int) w = some (n, w) := by
  unfold usize
  rw [if_pos (Int.natCast_nonneg n), pure_apply, Int.toNat_natCast]

theorem peekU32_be32 (h : word < 2 ^ 32) (rest : List UInt8)
    (refs : List (Option SymbolName)) :
    peekU32 ⟨be32 word ++ rest, refs⟩ = some (word, ⟨be32 word ++ rest, refs⟩) := by
  unfold peekU32
  rw [if_pos (by simp)]
  have htake : (be32 word ++ rest).take 4 = be32 word := by
    rw [← length_be32 word, List.take_left]
  rw [htake, ofBe_be32, Nat.mod_eq_of_lt h]

/-- A length prefix, then as many bytes. -/
theorem take_prefixed {bytes : List UInt8} (h : bytes.length < 2 ^ 31) (rest : List UInt8)
    (refs : List (Option SymbolName)) :
    (do let len ← usize (← i32); take len) ⟨be32 bytes.length ++ (bytes ++ rest), refs⟩ =
      some (bytes, ⟨rest, refs⟩) := by
  rw [bind_of_eq (i32_of_lt h _ refs), bind_of_eq (usize_natCast _ _), take_append]

theorem vecLen_lengthBytes {count : Nat} (h : count < 2 ^ 64) (rest : List UInt8)
    (refs : List (Option SymbolName)) :
    vecLen ⟨lengthBytes count ++ rest, refs⟩ = some (count, ⟨rest, refs⟩) := by
  unfold vecLen lengthBytes
  split
  · rename_i hlt
    rw [bind_of_eq (i32_of_lt hlt rest refs), if_neg (by omega), usize_natCast]
  · simp only [List.append_assoc]
    rw [bind_of_eq (i32_minusOne _ refs), if_pos rfl,
      bind_of_eq (u32_of_lt (by omega) _ refs), bind_of_eq (u32_of_lt (by omega) _ refs),
      pure_apply]
    have hsplit : count / 2 ^ 32 * 2 ^ 32 + count % 2 ^ 32 = count := by omega
    rw [hsplit]

theorem checkCount_of_le {count : Nat} {w : Walker} (h : 4 * count ≤ w.rest.length) :
    checkCount count w = some ((), w) := by
  unfold checkCount
  rw [if_neg (by omega)]

theorem skipBytes_append {count width : Nat} {bytes : List UInt8}
    (h : bytes.length = count * width) (rest : List UInt8)
    (refs : List (Option SymbolName)) :
    skipBytes count width ⟨bytes ++ rest, refs⟩ = some ((), ⟨rest, refs⟩) := by
  rw [skipBytes, ← h, bind_of_eq (take_append bytes rest refs), pure_apply]

theorem charsxpBytes_of_charsxp {content : Option (List UInt8)} {text : List UInt8}
    (h : Charsxp content text) (rest : List UInt8) (refs : List (Option SymbolName)) :
    charsxpBytes ⟨text ++ rest, refs⟩ = some (content, ⟨rest, refs⟩) := by
  cases h with
  | text word bytes hword hlength =>
    simp only [List.append_assoc]
    rw [charsxpBytes, bind_of_eq (u32_of_lt hword.lt _ refs), if_neg (not_not.mpr hword.typ),
      bind_of_eq (i32_of_lt hlength _ refs), if_neg (by omega), bind_of_eq (usize_natCast _ _),
      bind_of_eq (take_append bytes rest refs), pure_apply]
  | na word hword =>
    simp only [List.append_assoc]
    rw [charsxpBytes, bind_of_eq (u32_of_lt hword.lt _ refs), if_neg (not_not.mpr hword.typ),
      bind_of_eq (i32_minusOne _ refs), if_pos rfl, pure_apply]

theorem length_charsxp {content : Option (List UInt8)} {text : List UInt8}
    (h : Charsxp content text) : 4 ≤ text.length := by
  cases h <;> simp

theorem length_strings {count : Nat} {texts : List UInt8} (h : Strings count texts) :
    4 * count ≤ texts.length := by
  induction h with
  | nil => exact Nat.zero_le _
  | cons htext _ ih =>
    have := length_charsxp htext
    rw [List.length_append]
    omega

theorem times_strings {count : Nat} {texts : List UInt8} (h : Strings count texts)
    (rest : List UInt8) (refs : List (Option SymbolName)) :
    times count charsxpBytes ⟨texts ++ rest, refs⟩ = some ((), ⟨rest, refs⟩) := by
  induction h with
  | nil => rfl
  | cons htext _ ih =>
    rw [List.append_assoc, times, bind_of_eq (charsxpBytes_of_charsxp htext _ refs)]
    exact ih

/-! ## One round of an item's loop -/

variable {fuel depth typ : Nat} {attr tag : Bool}

theorem skipItem_succ (h : depth ≤ maxWalkDepth) (w : Walker) :
    skipItem (fuel + 1) depth w = skipTail fuel depth w := by
  rw [skipItem, if_neg (Nat.not_lt.mpr h)]

theorem skipTail_pair (hword : Header typ attr tag word) (htyp : typ ∈ pairTypes)
    (rest : List UInt8) (refs : List (Option SymbolName)) :
    skipTail (fuel + 1) depth ⟨be32 word ++ rest, refs⟩ =
      (do
        optional attr (skipItem fuel (depth + 1))
        optional tag (skipItem fuel (depth + 1))
        let _ ← skipItem fuel (depth + 1)
        skipTail fuel depth : TagWalk (Option SymbolName)) ⟨rest, refs⟩ := by
  rw [skipTail, bind_of_eq (u32_of_lt hword.lt rest refs), hword.typ, hword.attr, hword.tag]
  simp only [pairTypes, List.mem_cons, List.not_mem_nil, or_false] at htyp
  rcases htyp with rfl | rfl | rfl | rfl <;> rfl

theorem skipTail_closure (hword : Header 3 attr tag word) (rest : List UInt8)
    (refs : List (Option SymbolName)) :
    skipTail (fuel + 1) depth ⟨be32 word ++ rest, refs⟩ =
      (do
        optional attr (skipItem fuel (depth + 1))
        let _ ← skipItem fuel (depth + 1)
        let _ ← skipItem fuel (depth + 1)
        skipTail fuel depth : TagWalk (Option SymbolName)) ⟨rest, refs⟩ := by
  rw [skipTail, bind_of_eq (u32_of_lt hword.lt rest refs), hword.typ, hword.attr]
  rfl

theorem skipTail_singleton (htyp : typ ∈ singletons) (rest : List UInt8)
    (refs : List (Option SymbolName)) :
    skipTail (fuel + 1) depth ⟨be32 typ ++ rest, refs⟩ = some (none, ⟨rest, refs⟩) := by
  simp only [singletons, List.mem_cons, List.not_mem_nil, or_false] at htyp
  rcases htyp with rfl | rfl | rfl | rfl | rfl | rfl | rfl <;>
    rw [skipTail, bind_of_eq (u32_of_lt (by decide) rest refs)] <;> rfl

theorem skipTail_symbol (rest : List UInt8) (refs : List (Option SymbolName)) :
    skipTail (fuel + 1) depth ⟨be32 1 ++ rest, refs⟩ = symbolName ⟨rest, refs⟩ := by
  rw [skipTail, bind_of_eq (u32_of_lt (by decide) rest refs)]
  rfl

theorem skipTail_packed {index : Nat} {entry : Option SymbolName} (hindex : index + 1 < 2 ^ 24)
    (hentry : refs[index]? = some entry) (rest : List UInt8) :
    skipTail (fuel + 1) depth ⟨be32 ((index + 1) * 256 + 255) ++ rest, refs⟩ =
      some (entry, ⟨rest, refs⟩) := by
  have htyp : ((index + 1) * 256 + 255) % 256 = 255 := by omega
  have hplace : ((index + 1) * 256 + 255) / 256 = index + 1 := by omega
  rw [skipTail, bind_of_eq (u32_of_lt (by omega) rest refs), htyp]
  change (if ((index + 1) * 256 + 255) / 256 = 0 then u32 >>= lookup
    else lookup (((index + 1) * 256 + 255) / 256)) (⟨rest, refs⟩ : Walker) = _
  rw [hplace, if_neg (Nat.succ_ne_zero index), lookup]
  simp [hentry]

theorem skipTail_far {index : Nat} {entry : Option SymbolName} (hindex : index + 1 < 2 ^ 32)
    (hentry : refs[index]? = some entry) (rest : List UInt8) :
    skipTail (fuel + 1) depth ⟨be32 255 ++ (be32 (index + 1) ++ rest), refs⟩ =
      some (entry, ⟨rest, refs⟩) := by
  rw [skipTail, bind_of_eq (u32_of_lt (by decide) _ refs)]
  change (u32 >>= lookup) ⟨be32 (index + 1) ++ rest, refs⟩ = _
  rw [bind_of_eq (u32_of_lt hindex rest refs), lookup]
  simp [hentry]

theorem skipTail_environment (locked : Nat) (rest : List UInt8)
    (refs : List (Option SymbolName)) :
    skipTail (fuel + 1) depth ⟨be32 4 ++ (be32 locked ++ rest), refs⟩ =
      (do
        times 4 (skipItem fuel (depth + 1))
        return none : TagWalk (Option SymbolName)) ⟨rest, refs ++ [none]⟩ := by
  rw [skipTail, bind_of_eq (u32_of_lt (by decide) _ refs)]
  change (register none >>= fun _ => u32 >>= fun _ => _) (_ : Walker) = _
  rw [bind_of_eq (show register none ⟨_, refs⟩ = some ((), ⟨_, refs ++ [none]⟩) from rfl),
    bind_of_eq (u32_be32 locked rest _)]

theorem skipTail_named {place count : Nat} {names : List UInt8} (htyp : typ ∈ namedTypes)
    (hcount : count < 2 ^ 64) (hnames : Strings count names) (rest : List UInt8)
    (refs : List (Option SymbolName)) :
    skipTail (fuel + 1) depth
        ⟨be32 typ ++ (be32 place ++ (lengthBytes count ++ (names ++ rest))), refs⟩ =
      some (none, ⟨rest, refs ++ [none]⟩) := by
  have hround : ∀ w : Walker, w = ⟨be32 place ++ (lengthBytes count ++ (names ++ rest)), refs⟩ →
      (do
        register none
        let _ ← u32
        let count ← vecLen
        checkCount count
        times count charsxpBytes
        return none : TagWalk (Option SymbolName)) w = some (none, ⟨rest, refs ++ [none]⟩) := by
    rintro w rfl
    have hle := length_strings hnames
    rw [bind_of_eq (show register none ⟨_, refs⟩ = some ((), ⟨_, refs ++ [none]⟩) from rfl),
      bind_of_eq (u32_be32 place _ _), bind_of_eq (vecLen_lengthBytes hcount _ _),
      bind_of_eq (checkCount_of_le (by simp; omega)),
      bind_of_eq (times_strings hnames rest _), pure_apply]
  simp only [namedTypes, List.mem_cons, List.not_mem_nil, or_false] at htyp
  rcases htyp with rfl | rfl | rfl <;>
  · rw [skipTail, bind_of_eq (u32_of_lt (by decide) _ refs)]
    exact hround _ rfl

/-- The types that are neither pairs nor bare words. -/
def payloadTypes : List Nat := [7, 8, 9, 10, 13, 14, 15, 16, 19, 20, 21, 22, 23, 24, 25, 238]

theorem skipTail_payload (hword : Header typ attr tag word) (htyp : typ ∈ payloadTypes)
    (rest : List UInt8) (refs : List (Option SymbolName)) :
    skipTail (fuel + 1) depth ⟨be32 word ++ rest, refs⟩ =
      (do
        skipPayload fuel typ attr depth
        return none : TagWalk (Option SymbolName)) ⟨rest, refs⟩ := by
  rw [skipTail, bind_of_eq (u32_of_lt hword.lt rest refs), hword.typ, hword.attr]
  simp only [payloadTypes, List.mem_cons, List.not_mem_nil, or_false] at htyp
  rcases htyp with rfl | rfl | rfl | rfl | rfl | rfl | rfl | rfl | rfl | rfl | rfl | rfl | rfl |
    rfl | rfl | rfl <;> rfl

/-! ## The sizes of what R writes -/

end TagWalk

namespace Xdr

/-- Every object takes at least one word. -/
def Part.minLength : Part → Nat
  | .symbol _ | .item | .bytecode | .constant | .node | .language => 4
  | .items count | .constants count => 4 * count
  | .optional _ | .payload _ => 0

theorem Writes.minLength {levels : Nat} {table table' : Table} {part : Part}
    {bytes : List UInt8} (h : Writes levels table part bytes table') :
    part.minLength ≤ bytes.length := by
  induction h <;>
    simp only [Part.minLength, List.length_append, length_be32, List.length_nil] at * <;> omega

theorem Writes.payload_mem {levels : Nat} {table table' : Table} {typ : Nat}
    {bytes : List UInt8} (h : Writes levels table (.payload typ) bytes table') :
    typ ∈ TagWalk.payloadTypes ∧ typ ≠ 238 := by
  cases h with
  | builtin htyp | list htyp => rcases htyp with rfl | rfl <;> decide
  | vector htyp =>
    simp only [fixedVectors, List.mem_cons, Prod.mk.injEq, List.not_mem_nil, or_false] at htyp
    rcases htyp with ⟨rfl, _⟩ | ⟨rfl, _⟩ | ⟨rfl, _⟩ | ⟨rfl, _⟩ | ⟨rfl, _⟩ <;> decide
  | _ => decide

/-- A node starts with a word of its own. -/
theorem Writes.node_word {levels : Nat} {table table' : Table} {bytes : List UInt8}
    (h : Writes levels table .node bytes table') :
    ∃ word tail, word ∈ [2, 6, 239, 240, 243, 244] ∧ bytes = be32 word ++ tail := by
  cases h with
  | sharedNode => exact ⟨243, _, by decide, rfl⟩
  | @newNode _ _ _ _ _ _ attr typ mark attributes tagged car cdr hmark htyp =>
    rcases hmark with rfl | ⟨index, rfl⟩
    · refine ⟨typ, attributes ++ tagged ++ car ++ cdr, ?_, by simp⟩
      split at htyp <;>
        simp only [List.mem_cons, List.not_mem_nil, or_false] at htyp <;>
        rcases htyp with rfl | rfl <;> decide
    · exact ⟨244, be32 index ++ be32 typ ++ attributes ++ tagged ++ car ++ cdr, by decide, by simp⟩

end Xdr

namespace TagWalk

open Xdr

/-- The walk of one part, at the depth its levels leave; constants belong to the body above. -/
def Walks (part : Part) (fuel depth : Nat) (w w' : Walker) : Prop :=
  match part with
  | .symbol name => skipItem fuel depth w = some (some name, w')
  | .item => ∃ name, skipItem fuel depth w = some (name, w')
  | .items count => times count (skipItem fuel depth) w = some ((), w')
  | .optional present => optional present (skipItem fuel depth) w = some ((), w')
  | .payload typ => payload fuel typ depth w = some ((), w')
  | .bytecode => skipBcBody fuel depth w = some ((), w')
  | .constants count =>
    ∀ body, depth = body + 1 → times count (skipConstant fuel body) w = some ((), w')
  | .constant => ∀ body, depth = body + 1 → skipConstant fuel body w = some ((), w')
  | .node | .language => skipBcLang fuel depth w = some ((), w')

/-- The fuel a part needs. -/
def enough : Part → Nat → Nat
  | .payload _, length => length + 1
  | .node, length | .language, length => length - 1
  | _, length => length

theorem optional_true {α : Type} (step : TagWalk α) (w : Walker) {a : α} {w' : Walker}
    (h : step w = some (a, w')) : optional true step w = some ((), w') := by
  rw [optional, if_pos rfl, bind_of_eq h, pure_apply]

/-- A step that is there may as well be written out. -/
theorem optional_bind {α β : Type} (step : TagWalk α) (f : TagWalk β) (w : Walker) :
    (step >>= fun _ => f) w = (optional true step >>= fun _ => f) w := by
  rw [optional, if_pos rfl, bind_apply, bind_apply, bind_apply]
  cases step w <;> rfl

/-- A node of bytecode, marked as shared or not. -/
theorem skipBcTail_node {fuel depth typ : Nat} {attr : Bool} {mark : List UInt8}
    (hmark : mark = [] ∨ ∃ index, mark = be32 244 ++ be32 index)
    (htyp : typ ∈ if attr = true then [239, 240] else [2, 6]) (rest : List UInt8)
    (refs : List (Option SymbolName)) :
    skipBcTail (fuel + 1) depth ⟨mark ++ (be32 typ ++ rest), refs⟩ =
      (do
        optional attr (skipItem fuel (depth + 1))
        let _ ← skipItem fuel (depth + 1)
        skipBcLang fuel (depth + 1)
        skipBcTail fuel depth : TagWalk Unit) ⟨rest, refs⟩ := by
  have hlt : typ < 2 ^ 32 ∧ typ ≠ 243 ∧ typ ≠ 244 := by
    split at htyp <;> simp only [List.mem_cons, List.not_mem_nil, or_false] at htyp <;> omega
  have hword : ∃ word w, u32 ⟨mark ++ (be32 typ ++ rest), refs⟩ = some (word, w) ∧ word ≠ 243 ∧
      afterRepDef word w = some (typ, ⟨rest, refs⟩) := by
    rcases hmark with rfl | ⟨index, rfl⟩
    · refine ⟨typ, ⟨rest, refs⟩, u32_of_lt hlt.1 rest refs, hlt.2.1, ?_⟩
      rw [afterRepDef, if_neg hlt.2.2, pure_apply]
    · refine ⟨244, ⟨be32 index ++ (be32 typ ++ rest), refs⟩, ?_, by decide, ?_⟩
      · rw [List.append_assoc, u32_of_lt (by decide)]
      · rw [afterRepDef, if_pos rfl, bind_of_eq (u32_be32 index _ _), u32_of_lt hlt.1]
  obtain ⟨word, w, hread, hne, hafter⟩ := hword
  rw [skipBcTail, bind_of_eq hread, if_neg hne, bind_of_eq hafter]
  cases attr <;> simp only [Bool.false_eq_true, if_false, if_true, List.mem_cons,
    List.not_mem_nil, or_false] at htyp <;> rcases htyp with rfl | rfl
  · rfl
  · rfl
  · exact optional_bind _ _ _
  · exact optional_bind _ _ _

theorem times_succ {α : Type} {count : Nat} {step : TagWalk α} {w w' : Walker} {a : α}
    (h : step w = some (a, w')) : times (count + 1) step w = times count step w' := by
  rw [times, bind_of_eq h]

/-- Every stretch R writes is walked to its end, and the reference tables stay aligned. -/
theorem walks {levels : Nat} {table table' : Table} {part : Part} {bytes : List UInt8}
    (h : Writes levels table part bytes table') :
    ∀ fuel depth rest, depth + levels = maxWalkDepth + 1 → enough part bytes.length ≤ fuel →
      Walks part fuel depth ⟨bytes ++ rest, table⟩ ⟨rest, table'⟩ := by
  induction h with
  | newSymbol htext =>
    intro fuel depth rest hdepth hfuel
    simp only [enough, List.length_append, length_be32] at hfuel
    obtain ⟨fuel, rfl⟩ := Nat.exists_eq_add_of_le' (show 2 ≤ fuel by omega)
    rw [Walks, List.append_assoc, skipItem_succ (by omega), skipTail_symbol, symbolName,
      bind_of_eq (charsxpBytes_of_charsxp htext rest _)]
    simp only [fromUtf8_utf8]
    rfl
  | packedSymbol hindex hname =>
    intro fuel depth rest hdepth hfuel
    simp only [enough, length_be32] at hfuel
    obtain ⟨fuel, rfl⟩ := Nat.exists_eq_add_of_le' (show 2 ≤ fuel by omega)
    rw [Walks, skipItem_succ (by omega), skipTail_packed hindex hname]
  | farSymbol hindex hname =>
    intro fuel depth rest hdepth hfuel
    simp only [enough, List.length_append, length_be32] at hfuel
    obtain ⟨fuel, rfl⟩ := Nat.exists_eq_add_of_le' (show 2 ≤ fuel by omega)
    rw [Walks, List.append_assoc, skipItem_succ (by omega), skipTail_far hindex hname]
  | symbol _ ih => exact fun fuel depth rest hdepth hfuel => ⟨_, ih fuel depth rest hdepth hfuel⟩
  | packedReference hindex hentry =>
    intro fuel depth rest hdepth hfuel
    simp only [enough, length_be32] at hfuel
    obtain ⟨fuel, rfl⟩ := Nat.exists_eq_add_of_le' (show 2 ≤ fuel by omega)
    refine ⟨none, ?_⟩
    rw [skipItem_succ (by omega), skipTail_packed hindex hentry]
  | farReference hindex hentry =>
    intro fuel depth rest hdepth hfuel
    simp only [enough, List.length_append, length_be32] at hfuel
    obtain ⟨fuel, rfl⟩ := Nat.exists_eq_add_of_le' (show 2 ≤ fuel by omega)
    refine ⟨none, ?_⟩
    rw [List.append_assoc, skipItem_succ (by omega), skipTail_far hindex hentry]
  | singleton htyp =>
    intro fuel depth rest hdepth hfuel
    simp only [enough, length_be32] at hfuel
    obtain ⟨fuel, rfl⟩ := Nat.exists_eq_add_of_le' (show 2 ≤ fuel by omega)
    refine ⟨none, ?_⟩
    rw [skipItem_succ (by omega), skipTail_singleton htyp]
  | environment _ ih =>
    intro fuel depth rest hdepth hfuel
    simp only [enough, List.length_append, length_be32] at hfuel
    obtain ⟨fuel, rfl⟩ := Nat.exists_eq_add_of_le' (show 2 ≤ fuel by omega)
    have hparts := ih fuel (depth + 1) rest (by omega) (by simp only [enough]; omega)
    refine ⟨none, ?_⟩
    rw [List.append_assoc, List.append_assoc, skipItem_succ (by omega), skipTail_environment,
      bind_of_eq hparts, pure_apply]
  | named htyp hcount hnames =>
    intro fuel depth rest hdepth hfuel
    simp only [enough, List.length_append, length_be32] at hfuel
    obtain ⟨fuel, rfl⟩ := Nat.exists_eq_add_of_le' (show 2 ≤ fuel by omega)
    refine ⟨none, ?_⟩
    rw [List.append_assoc, List.append_assoc, List.append_assoc, skipItem_succ (by omega),
      skipTail_named htyp hcount hnames]
  | @pair _ _ _ _ _ _ _ _ _ _ attributes tagged car cdr htyp hword _ _ _ _ ihattr ihtag ihcar
      ihcdr =>
    intro fuel depth rest hdepth hfuel
    simp only [enough, List.length_append, length_be32] at hfuel
    obtain ⟨fuel, rfl⟩ := Nat.exists_eq_add_of_le' (show 2 ≤ fuel by omega)
    simp only [List.append_assoc]
    have hattr := ihattr fuel (depth + 1) (tagged ++ (car ++ (cdr ++ rest))) (by omega)
      (by simp only [enough]; omega)
    have htag := ihtag fuel (depth + 1) (car ++ (cdr ++ rest)) (by omega)
      (by simp only [enough]; omega)
    obtain ⟨name, hcar⟩ := ihcar fuel (depth + 1) (cdr ++ rest) (by omega)
      (by simp only [enough]; omega)
    obtain ⟨name', hcdr⟩ := ihcdr (fuel + 1) depth rest hdepth (by simp only [enough]; omega)
    rw [skipItem_succ (by omega)] at hcdr
    refine ⟨name', ?_⟩
    rw [skipItem_succ (by omega), skipTail_pair hword htyp, bind_of_eq hattr, bind_of_eq htag,
      bind_of_eq hcar, hcdr]
  | @closure _ _ _ _ _ _ _ _ _ attributes environment formals body hword _ _ _ _ ihattr ihenv
      ihformals ihbody =>
    intro fuel depth rest hdepth hfuel
    simp only [enough, List.length_append, length_be32] at hfuel
    obtain ⟨fuel, rfl⟩ := Nat.exists_eq_add_of_le' (show 2 ≤ fuel by omega)
    simp only [List.append_assoc]
    have hattr := ihattr fuel (depth + 1) (environment ++ (formals ++ (body ++ rest))) (by omega)
      (by simp only [enough]; omega)
    obtain ⟨_, henv⟩ := ihenv fuel (depth + 1) (formals ++ (body ++ rest)) (by omega)
      (by simp only [enough]; omega)
    obtain ⟨_, hformals⟩ := ihformals fuel (depth + 1) (body ++ rest) (by omega)
      (by simp only [enough]; omega)
    obtain ⟨name, hbody⟩ := ihbody (fuel + 1) depth rest hdepth (by simp only [enough]; omega)
    rw [skipItem_succ (by omega)] at hbody
    refine ⟨name, ?_⟩
    rw [skipItem_succ (by omega), skipTail_closure hword, bind_of_eq hattr, bind_of_eq henv,
      bind_of_eq hformals, hbody]
  | @object _ _ _ _ _ _ _ content attributes hword htyp hcontent _ ihcontent ihattr =>
    intro fuel depth rest hdepth hfuel
    simp only [enough, List.length_append, length_be32] at hfuel
    obtain ⟨fuel, rfl⟩ := Nat.exists_eq_add_of_le' (show 3 ≤ fuel by omega)
    simp only [List.append_assoc]
    have hpayload := ihcontent fuel depth (attributes ++ rest) hdepth (by simp only [enough]; omega)
    have hattr := ihattr fuel (depth + 1) rest (by omega) (by simp only [enough]; omega)
    refine ⟨none, ?_⟩
    rw [skipItem_succ (by omega), skipTail_payload hword hcontent.payload_mem.1]
    refine bind_of_eq (a := ()) (v := ⟨rest, _⟩) ?_
    rw [skipPayload, bind_of_eq hpayload, bne_iff_ne.mpr htyp, Bool.and_true]
    exact hattr
  | altrep hword _ ih =>
    intro fuel depth rest hdepth hfuel
    simp only [enough, List.length_append, length_be32] at hfuel
    obtain ⟨fuel, rfl⟩ := Nat.exists_eq_add_of_le' (show 4 ≤ fuel by omega)
    have hparts := ih fuel (depth + 1) rest (by omega) (by simp only [enough]; omega)
    refine ⟨none, ?_⟩
    rw [List.append_assoc, skipItem_succ (by omega), skipTail_payload hword (by decide)]
    refine bind_of_eq (a := ()) (v := ⟨rest, _⟩) ?_
    rw [skipPayload, payload, bind_of_eq hparts]
    rfl
  | absent => exact fun fuel depth rest _ _ => rfl
  | present _ ih =>
    intro fuel depth rest hdepth hfuel
    obtain ⟨_, hitem⟩ := ih fuel depth rest hdepth hfuel
    exact optional_true _ _ hitem
  | noItems => exact fun fuel depth rest _ _ => rfl
  | @moreItems _ _ _ _ _ first more _ _ ihfirst ihrest =>
    intro fuel depth rest hdepth hfuel
    simp only [enough, List.length_append] at hfuel
    obtain ⟨_, hfirst⟩ := ihfirst fuel depth (more ++ rest) hdepth (by simp only [enough]; omega)
    have hrest := ihrest fuel depth rest hdepth (by simp only [enough]; omega)
    rw [Walks, List.append_assoc, times_succ hfirst]
    exact hrest
  | s4 =>
    intro fuel depth rest _ hfuel
    obtain ⟨fuel, rfl⟩ := Nat.exists_eq_add_of_le' (show 1 ≤ fuel from hfuel)
    rw [Walks, payload]
    rfl
  | builtin htyp hname =>
    intro fuel depth rest _ hfuel
    simp only [enough, List.length_append, length_be32] at hfuel
    obtain ⟨fuel, rfl⟩ := Nat.exists_eq_add_of_le' (show 1 ≤ fuel by omega)
    rw [Walks, List.append_assoc]
    rcases htyp with rfl | rfl <;>
    · rw [payload]
      rw [bind_of_eq (i32_of_lt hname _ _), bind_of_eq (usize_natCast _ _),
        bind_of_eq (take_append _ _ _), pure_apply]
  | char hcontent =>
    intro fuel depth rest _ hfuel
    simp only [enough, List.length_append, length_be32] at hfuel
    obtain ⟨fuel, rfl⟩ := Nat.exists_eq_add_of_le' (show 1 ≤ fuel by omega)
    rw [Walks, List.append_assoc, payload, bind_of_eq (i32_of_lt hcontent _ _),
      if_neg (by omega), bind_of_eq (usize_natCast _ _), bind_of_eq (take_append _ _ _), pure_apply]
  | naChar =>
    intro fuel depth rest _ hfuel
    simp only [enough, length_be32] at hfuel
    obtain ⟨fuel, rfl⟩ := Nat.exists_eq_add_of_le' (show 1 ≤ fuel by omega)
    rw [Walks, payload, bind_of_eq (i32_minusOne _ _), if_pos rfl, pure_apply]
  | vector htyp hcount hcontent =>
    intro fuel depth rest _ hfuel
    simp only [enough] at hfuel
    obtain ⟨fuel, rfl⟩ := Nat.exists_eq_add_of_le' (show 1 ≤ fuel by omega)
    simp only [fixedVectors, List.mem_cons, Prod.mk.injEq, List.not_mem_nil, or_false] at htyp
    rw [Walks, List.append_assoc]
    rcases htyp with ⟨rfl, rfl⟩ | ⟨rfl, rfl⟩ | ⟨rfl, rfl⟩ | ⟨rfl, rfl⟩ | ⟨rfl, rfl⟩ <;>
      rw [payload, bind_of_eq (vecLen_lengthBytes hcount _ _), skipBytes_append hcontent]
  | strings hcount htexts =>
    intro fuel depth rest _ hfuel
    simp only [enough] at hfuel
    obtain ⟨fuel, rfl⟩ := Nat.exists_eq_add_of_le' (show 1 ≤ fuel by omega)
    have hle := length_strings htexts
    rw [Walks, List.append_assoc, payload, bind_of_eq (vecLen_lengthBytes hcount _ _),
      bind_of_eq (checkCount_of_le (by simp; omega)), times_strings htexts]
  | list htyp hcount helements ih =>
    intro fuel depth rest hdepth hfuel
    simp only [enough, List.length_append] at hfuel
    obtain ⟨fuel, rfl⟩ := Nat.exists_eq_add_of_le' (show 1 ≤ fuel by omega)
    have hle := helements.minLength
    simp only [Part.minLength] at hle
    have helems := ih fuel (depth + 1) rest (by omega) (by simp only [enough]; omega)
    rw [Walks, List.append_assoc]
    rcases htyp with rfl | rfl <;>
    · rw [payload, bind_of_eq (vecLen_lengthBytes hcount _ _),
        bind_of_eq (checkCount_of_le (by simp; omega))]
      exact helems
  | compiled _ ih =>
    intro fuel depth rest hdepth hfuel
    simp only [enough, List.length_append, length_be32] at hfuel
    obtain ⟨fuel, rfl⟩ := Nat.exists_eq_add_of_le' (show 2 ≤ fuel by omega)
    have hcode := ih fuel (depth + 1) rest (by omega) (by simp only [enough]; omega)
    rw [Walks, List.append_assoc, payload]
    rw [skipBytecode, bind_of_eq (u32_be32 _ _ _)]
    exact hcode
  | pointer _ ih =>
    intro fuel depth rest hdepth hfuel
    simp only [enough] at hfuel
    obtain ⟨fuel, rfl⟩ := Nat.exists_eq_add_of_le' (show 1 ≤ fuel by omega)
    rw [Walks, payload]
    exact ih fuel (depth + 1) rest (by omega) (by simp only [enough]; omega)
  | weakReference =>
    intro fuel depth rest _ hfuel
    obtain ⟨fuel, rfl⟩ := Nat.exists_eq_add_of_le' (show 1 ≤ fuel from hfuel)
    rw [Walks, payload]
    rfl
  | @bytecode _ _ _ _ _ count code pool _ _ hword _ hcount hpool ihcode ihpool =>
    intro fuel depth rest hdepth hfuel
    simp only [enough, List.length_append, length_be32] at hfuel
    obtain ⟨fuel, rfl⟩ := Nat.exists_eq_add_of_le' (show 1 ≤ fuel by omega)
    have hle := hpool.minLength
    simp only [Part.minLength] at hle
    obtain ⟨_, hcode⟩ := ihcode fuel (depth + 1) (be32 count ++ (pool ++ rest)) (by omega)
      (by simp only [enough, List.length_append, length_be32]; omega)
    have hconstants := ihpool fuel (depth + 1) rest (by omega) (by simp only [enough]; omega)
    rw [Walks, skipBcBody, if_neg (by omega)]
    simp only [List.append_assoc] at hcode ⊢
    rw [bind_of_eq (peekU32_be32 hword.lt _ _), if_neg (not_not.mpr hword.typ), bind_of_eq hcode,
      bind_of_eq (i32_of_lt hcount _ _), bind_of_eq (usize_natCast _ _),
      bind_of_eq (checkCount_of_le (by simp; omega))]
    exact hconstants depth rfl
  | noConstants => exact fun fuel depth rest _ _ body _ => rfl
  | @moreConstants _ _ _ _ _ first more _ _ ihfirst ihrest =>
    intro fuel depth rest hdepth hfuel
    simp only [enough, List.length_append] at hfuel
    have hfirst := ihfirst fuel depth (more ++ rest) hdepth (by simp only [enough]; omega)
    have hrest := ihrest fuel depth rest hdepth (by simp only [enough]; omega)
    intro body hbody
    rw [List.append_assoc, times_succ (hfirst body hbody)]
    exact hrest body hbody
  | nested _ ih =>
    intro fuel depth rest hdepth hfuel body hbody
    simp only [enough, List.length_append, length_be32] at hfuel
    obtain ⟨fuel, rfl⟩ := Nat.exists_eq_add_of_le' (show 1 ≤ fuel by omega)
    have hcode := ih fuel depth rest hdepth (by simp only [enough]; omega)
    subst hbody
    rw [List.append_assoc, skipConstant, bind_of_eq (peekU32_be32 (by decide) _ _)]
    change (u32 >>= fun _ => skipBcBody fuel (body + 1)) _ = _
    rw [bind_of_eq (u32_be32 21 _ _)]
    exact hcode
  | expression h ih =>
    intro fuel depth rest hdepth hfuel body hbody
    have hlength := h.minLength
    simp only [enough, Part.minLength] at hfuel hlength
    obtain ⟨fuel, rfl⟩ := Nat.exists_eq_add_of_le' (show 1 ≤ fuel by omega)
    have hnode := ih fuel depth rest hdepth (by simp only [enough]; omega)
    subst hbody
    obtain ⟨word, tail, hword, rfl⟩ := h.node_word
    rw [List.append_assoc] at hnode ⊢
    simp only [List.mem_cons, List.not_mem_nil, or_false] at hword
    rw [skipConstant]
    rcases hword with rfl | rfl | rfl | rfl | rfl | rfl <;>
    · rw [bind_of_eq (peekU32_be32 (by decide) _ _)]
      exact hnode
  | value htyp hother _ ih =>
    intro fuel depth rest hdepth hfuel body hbody
    simp only [enough, List.length_append, length_be32] at hfuel
    obtain ⟨fuel, rfl⟩ := Nat.exists_eq_add_of_le' (show 1 ≤ fuel by omega)
    obtain ⟨_, hitem⟩ := ih fuel depth rest hdepth (by simp only [enough]; omega)
    subst hbody
    rw [List.append_assoc, skipConstant, bind_of_eq (peekU32_be32 htyp _ _)]
    simp only [List.mem_cons, List.not_mem_nil, or_false, not_or] at hother
    split
    · omega
    · omega
    · omega
    · omega
    · omega
    · omega
    · omega
    · rw [bind_of_eq (u32_be32 _ _ _), bind_of_eq hitem, pure_apply]
  | sharedNode =>
    intro fuel depth rest hdepth hfuel
    simp only [enough, List.length_append, length_be32] at hfuel
    obtain ⟨fuel, rfl⟩ := Nat.exists_eq_add_of_le' (show 2 ≤ fuel by omega)
    rw [Walks, List.append_assoc, skipBcLang, if_neg (by omega), skipBcTail,
      bind_of_eq (u32_of_lt (by decide) _ _), if_pos rfl, bind_of_eq (u32_be32 _ _ _), pure_apply]
  | @newNode _ _ _ _ _ _ _ _ mark attributes tagged car cdr hmark htyp _ _ hcar _ ihattr ihtag ihcar
      ihcdr =>
    intro fuel depth rest hdepth hfuel
    have hlength := hcar.minLength
    simp only [enough, Part.minLength, List.length_append, length_be32] at hfuel hlength
    obtain ⟨fuel, rfl⟩ := Nat.exists_eq_add_of_le' (show 2 ≤ fuel by omega)
    have hattr := ihattr fuel (depth + 1) (tagged ++ (car ++ (cdr ++ rest))) (by omega)
      (by simp only [enough]; omega)
    obtain ⟨_, htag⟩ := ihtag fuel (depth + 1) (car ++ (cdr ++ rest)) (by omega)
      (by simp only [enough]; omega)
    have hcar := ihcar fuel (depth + 1) (cdr ++ rest) (by omega) (by simp only [enough]; omega)
    have hcdr := ihcdr (fuel + 1) depth rest hdepth (by simp only [enough]; omega)
    rw [Walks, skipBcLang, if_neg (by omega)] at hcdr
    rw [Walks, skipBcLang, if_neg (by omega)]
    simp only [List.append_assoc]
    rw [skipBcTail_node hmark htyp, bind_of_eq hattr, bind_of_eq htag, bind_of_eq hcar]
    exact hcdr
  | node _ ih => exact ih
  | leaf _ ih =>
    intro fuel depth rest hdepth hfuel
    simp only [enough, List.length_append, length_be32] at hfuel
    obtain ⟨fuel, rfl⟩ := Nat.exists_eq_add_of_le' (show 2 ≤ fuel by omega)
    obtain ⟨_, hitem⟩ := ih fuel (depth + 1) rest (by omega) (by simp only [enough]; omega)
    rw [Walks, List.append_assoc, skipBcLang, if_neg (by omega), skipBcTail,
      bind_of_eq (u32_of_lt (by decide) _ _), if_neg (by decide)]
    change (skipItem fuel (depth + 1) >>= fun _ => pure ()) _ = _
    rw [bind_of_eq hitem, pure_apply]

theorem i32_be32 (word : Nat) (rest : List UInt8) (refs : List (Option SymbolName)) :
    i32 ⟨be32 word ++ rest, refs⟩ = some (signed32 (word % 2 ^ 32), ⟨rest, refs⟩) := by
  rw [i32, bind_of_eq (u32_be32 word rest refs), pure_apply]

theorem header_versions {versions : List UInt8} (h : Versions versions) (rest : List UInt8) :
    header ⟨versions ++ rest, []⟩ = some ((), ⟨rest, []⟩) := by
  unfold header
  cases h with
  | two writer reader =>
    simp only [List.append_assoc]
    rw [bind_of_eq (i32_of_lt (by decide) _ _), bind_of_eq (i32_be32 _ _ _),
      bind_of_eq (i32_be32 _ _ _), if_neg (by decide), if_pos (by decide), pure_apply]
  | three writer reader encoding hlength =>
    simp only [List.append_assoc]
    rw [bind_of_eq (i32_of_lt (by decide) _ _), bind_of_eq (i32_be32 _ _ _),
      bind_of_eq (i32_be32 _ _ _), if_pos (by decide), bind_of_eq (i32_of_lt hlength _ _),
      bind_of_eq (usize_natCast _ _), bind_of_eq (take_append _ _ _), pure_apply]

/-- The top-level cells give their names, whatever lies under them. -/
theorem cells_exact {table : Table} {names : List SymbolName} {bytes : List UInt8}
    (h : Cells table names bytes) : ∀ fuel found, bytes.length ≤ fuel →
      ∃ refs, cells fuel found ⟨bytes, table⟩ = some (found ∪ names.toFinset, ⟨[], refs⟩) := by
  induction h with
  | @nil table =>
    intro fuel found hfuel
    rw [length_be32] at hfuel
    obtain ⟨fuel, rfl⟩ := Nat.exists_eq_add_of_le' (show 1 ≤ fuel by omega)
    refine ⟨table, ?_⟩
    rw [← List.append_nil (be32 254), cells, bind_of_eq (u32_of_lt (by decide) _ _)]
    simp [pure_apply]
  | @cons _ _ _ _ name names word attr attributes tagged value rest hword hattributes htag hvalue _ ih =>
    intro fuel found hfuel
    simp only [List.length_append, length_be32] at hfuel
    obtain ⟨fuel, rfl⟩ := Nat.exists_eq_add_of_le' (show 1 ≤ fuel by omega)
    have hattr := walks hattributes fuel 1 (tagged ++ (value ++ rest)) rfl
      (by simp only [enough]; omega)
    have hname := walks htag fuel 1 (value ++ rest) rfl (by simp only [enough]; omega)
    obtain ⟨_, hitem⟩ := walks hvalue fuel 1 rest rfl (by simp only [enough]; omega)
    obtain ⟨refs, hcells⟩ := ih fuel (insert name found) (by omega)
    refine ⟨refs, ?_⟩
    simp only [List.append_assoc]
    rw [cells, bind_of_eq (u32_of_lt hword.lt _ _), hword.typ, hword.attr, hword.tag]
    change (optional attr (skipItem fuel 1) >>= fun _ => skipItem fuel 1 >>= fun tag =>
      skipItem fuel 1 >>= fun _ => cells fuel (insertTag tag found)) _ = _
    rw [bind_of_eq hattr, bind_of_eq hname, bind_of_eq hitem]
    change cells fuel (insert name found) _ = _
    rw [hcells, List.toFinset_cons, Finset.insert_union, Finset.union_insert]

end TagWalk

/-- Of every workspace that R writes, the walk finds the names of the objects and no others. -/
theorem enumerateWorkspaceTags_exact {names : List SymbolName} {bytes : List UInt8}
    (h : Xdr.Workspace names bytes) : enumerateWorkspaceTags bytes = some names.toFinset := by
  obtain ⟨hversions, hcells⟩ := h
  rename_i versions bytes
  rw [List.append_assoc, enumerateWorkspaceTags]
  generalize hlength : (TagWalk.xdrFormat ++ (versions ++ bytes)).length = fuel
  have hfuel : bytes.length ≤ fuel := by
    rw [← hlength]
    simp only [List.length_append]
    omega
  obtain ⟨refs, hnames⟩ := TagWalk.cells_exact hcells fuel ∅ hfuel
  have hformat : TagWalk.take 2 ⟨TagWalk.xdrFormat ++ (versions ++ bytes), []⟩ =
      some (TagWalk.xdrFormat, ⟨versions ++ bytes, []⟩) :=
    TagWalk.take_append TagWalk.xdrFormat (versions ++ bytes) []
  rw [TagWalk.enumerate, TagWalk.bind_of_eq hformat, if_neg (not_not.mpr rfl),
    TagWalk.bind_of_eq (TagWalk.header_versions hversions bytes), hnames, Finset.empty_union]

theorem Xdr.Cells.bindNull {table : Xdr.Table} {name : SymbolName} {names : List SymbolName}
    {rest : List UInt8} (hname : (utf8 name).length < 2 ^ 31)
    (hrest : Xdr.Cells (table ++ [some name]) names rest) :
    Xdr.Cells table (name :: names)
      (be32 1026 ++ [] ++ (be32 1 ++ (be32 9 ++ be32 (utf8 name).length ++ utf8 name)) ++
        be32 254 ++ rest) :=
  .cons ⟨by decide, by decide, by decide, by decide⟩ .absent
    (.newSymbol (.text 9 _ ⟨by decide, by decide, by decide, by decide⟩ hname))
    (.singleton (by decide)) hrest

/-- A function of `R_GlobalEnv` that returns the symbol it is bound to, and a vector of one double
with a class attribute. -/
theorem enumerateWorkspaceTags_closure : ∃ bytes, Xdr.Workspace [['f'], ['x']] bytes ∧
    enumerateWorkspaceTags bytes = some [['f'], ['x']].toFinset := by
  have hheader : ∀ {typ : Nat} {attr tag : Bool} (word : Nat), word < 2 ^ 32 → word % 256 = typ →
      TagWalk.hasAttr word = attr → TagWalk.hasTag word = tag → Xdr.Header typ attr tag word :=
    fun word hlt htyp hattr htag => ⟨hlt, htyp, hattr, htag⟩
  have hbytes : ∃ bytes, Xdr.Workspace [['f'], ['x']] bytes := by
    refine ⟨_, .mk (.three 0 0 (utf8 ['U', 'T', 'F', '-', '8']) (by decide))
      (.cons (hheader 1026 (by decide) rfl rfl rfl) .absent
        (.newSymbol (.text 9 _ (hheader 9 (by decide) rfl rfl rfl) (by decide)))
        (.closure (hheader 1027 (by decide) rfl rfl rfl) .absent
          (.singleton (show 253 ∈ Xdr.singletons by decide))
          (.singleton (show 254 ∈ Xdr.singletons by decide))
          (.symbol (.packedSymbol (show 0 + 1 < 2 ^ 24 by decide) rfl)))
        (.cons (hheader 1026 (by decide) rfl rfl rfl) .absent
          (.newSymbol (.text 9 _ (hheader 9 (by decide) rfl rfl rfl) (by decide)))
          (.object (hheader 526 (by decide) rfl rfl rfl) (by decide)
            (.vector (show (14, 8) ∈ Xdr.fixedVectors by decide) (show 1 < 2 ^ 64 by decide)
              (show (List.replicate 8 0).length = 1 * 8 from rfl))
            (.present (.pair (by decide) (hheader 1026 (by decide) rfl rfl rfl) .absent
              (.present (.symbol (.newSymbol (.text 9 (utf8 ['c', 'l', 'a', 's', 's'])
                (hheader 9 (by decide) rfl rfl rfl) (by decide)))))
              (.object (hheader 16 (by decide) rfl rfl rfl) (by decide)
                (.strings (by decide) (.cons (.text 9 (utf8 ['d'])
                  (hheader 9 (by decide) rfl rfl rfl) (by decide)) .nil)) .absent)
              (.singleton (show 254 ∈ Xdr.singletons by decide)))))
          .nil))⟩
  obtain ⟨bytes, h⟩ := hbytes
  exact ⟨bytes, h, enumerateWorkspaceTags_exact h⟩

/-- The names come as a set, so two workspaces that list them differently look alike. -/
theorem order_of_tags_lost : ∃ bytes bytes', Xdr.Workspace [['a'], ['b']] bytes ∧
    Xdr.Workspace [['b'], ['a']] bytes' ∧
    enumerateWorkspaceTags bytes = enumerateWorkspaceTags bytes' := by
  refine ⟨_, _, .mk (.two 0 0) (.bindNull (by decide) (.bindNull (by decide) .nil)),
    .mk (.two 0 0) (.bindNull (by decide) (.bindNull (by decide) .nil)), ?_⟩
  decide +kernel

end Ry
