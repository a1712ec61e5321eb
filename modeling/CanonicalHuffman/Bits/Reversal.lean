import CanonicalHuffman.Limits

/-!
# Reversing the bits of a code

A code of up to fifteen bits is reversed four bits at a time. A table reverses a group of four;
the groups are put into a window of sixteen bits from the top down, lowest group first. Shifting
the window down to the width of the code drops what lies above the code in its last group.
-/

namespace CanonicalHuffman

/-- The bits of each number below sixteen in reverse, as a number of four bits. -/
def reversedNibbles : Vector Nat 16 :=
  #v[0x0, 0x8, 0x4, 0xc, 0x2, 0xa, 0x6, 0xe, 0x1, 0x9, 0x5, 0xd, 0x3, 0xb, 0x7, 0xf]

/-- The lowest four bits of a number in reverse. -/
def reverseNibble (bits : Nat) : Nat :=
  have inside : bits % 16 < 16 := Nat.mod_lt _ (by decide)
  reversedNibbles[bits % 16]

/-- A window of sixteen bits whose top `count` groups are the lowest groups of `bits`, reversed. -/
def reversedWindow (bits : Nat) : Nat → Nat
  | 0 => 0
  | count + 1 =>
    reversedWindow bits count ||| reverseNibble (bits >>> (4 * count)) <<< (12 - 4 * count)

/-- The lowest `width` bits of a number in reverse, for a width of at most fifteen. -/
def reverseBits (width bits : Nat) : Nat :=
  reversedWindow bits ((width + 3) / 4) >>> (maxCodeLength + 1 - width)

end CanonicalHuffman
