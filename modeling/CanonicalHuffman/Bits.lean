import CanonicalHuffman.Limits

/-!
# Bit strings, least significant bit first

A number of known width is written as its bits, the least significant one first. Reading the bits
gives the number back modulo the width (`ofBits_toBits`), and writing what was read gives the bits
back (`toBits_ofBits`).
-/

namespace CanonicalHuffman

attribute [local instance (20000)] instPowNat

/-- The `width` lowest bits of a number. -/
def toBits (width number : Nat) : List Bool := (List.range width).map number.testBit

/-- The number with the given bits. -/
def ofBits : List Bool → Nat
  | [] => 0
  | bit :: rest => bit.toNat + 2 * ofBits rest

/-- As many bits are written as the width says. -/
@[simp] theorem length_toBits (width number : Nat) : (toBits width number).length = width := by
  simp [toBits]

/-- No bits are written at width zero. -/
@[simp] theorem toBits_zero (number : Nat) : toBits 0 number = [] := rfl

/-- The lowest bit stands first. -/
theorem toBits_succ (width number : Nat) :
    toBits (width + 1) number = number.testBit 0 :: toBits width (number / 2) := by
  simp [toBits, List.range_succ_eq_map, Nat.testBit_succ]

/-- Reading the lowest bits of a number gives the number modulo their width. -/
theorem ofBits_toBits (width number : Nat) : ofBits (toBits width number) = number % 2 ^ width := by
  induction width generalizing number with
  | zero => simp [ofBits, Nat.mod_one]
  | succ width ih =>
    rw [toBits_succ, ofBits, ih, Nat.pow_succ, Nat.mul_comm _ 2, Nat.mod_mul]
    simp [Nat.testBit_zero]
    rcases Nat.mod_two_eq_zero_or_one number with even | odd <;> simp [*]

/-- Writing the number of a bit string at the string's width gives the string. -/
theorem toBits_ofBits (bits : List Bool) : toBits bits.length (ofBits bits) = bits := by
  induction bits with
  | nil => rfl
  | cons bit rest ih =>
    rw [List.length_cons, toBits_succ]
    cases bit <;> simp [ofBits, Nat.testBit_zero, Nat.add_mul_mod_self_left] <;> grind

end CanonicalHuffman
