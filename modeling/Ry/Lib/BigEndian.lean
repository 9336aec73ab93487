import Mathlib

/-! # Big-endian words

A 32-bit word is four bytes, the most significant first.
-/

def be32 (word : Nat) : List UInt8 :=
  [UInt8.ofNat (word / 2 ^ 24), UInt8.ofNat (word / 2 ^ 16), UInt8.ofNat (word / 2 ^ 8),
    UInt8.ofNat word]

def ofBe (bytes : List UInt8) : Nat := bytes.foldl (fun word b => word * 256 + b.toNat) 0

@[simp] theorem length_be32 (word : Nat) : (be32 word).length = 4 := rfl

theorem ofBe_be32 (word : Nat) : ofBe (be32 word) = word % 2 ^ 32 := by
  simp only [ofBe, be32, List.foldl_cons, List.foldl_nil, UInt8.toNat_ofNat']
  omega

/-- Two's complement. -/
def signed32 (word : Nat) : Int := if word < 2 ^ 31 then word else (word : Int) - 2 ^ 32

theorem signed32_of_lt {word : Nat} (h : word < 2 ^ 31) : signed32 word = word := if_pos h

@[simp] theorem signed32_minusOne : signed32 (2 ^ 32 - 1) = -1 := by decide
