import CanonicalHuffman.Bits
import CanonicalHuffman.Bits.Reversal
import Mathlib.Algebra.Ring.Nat

/-!
# The bits of a reversed code

Reversing four bits at a time puts every bit of a code where reversing it bit by bit would. Bits
above the code end below the window that is shifted out, so they have no effect.
-/

namespace CanonicalHuffman

/-- A group of four is reversed bit by bit. -/
theorem testBit_reverseNibble (bits index : Nat) :
    (reverseNibble bits).testBit index = (decide (index < 4) && bits.testBit (3 - index)) := by
  have table : ∀ group : Fin 16, ∀ place : Fin 4,
      (reversedNibbles[group]).testBit place = group.val.testBit (3 - place) := by decide
  have small : ∀ group : Fin 16, reversedNibbles[group] < 2 ^ 4 := by decide
  have inside : bits % 16 < 16 := Nat.mod_lt _ (by decide)
  change (reversedNibbles[(⟨bits % 16, inside⟩ : Fin 16)]).testBit index = _
  by_cases within : index < 4
  · have low : (bits % 2 ^ 4).testBit (3 - index) = bits.testBit (3 - index) := by
      rw [Nat.testBit_mod_two_pow, decide_eq_true (by omega), Bool.true_and]
    rw [decide_eq_true within, Bool.true_and, ← low]
    exact table ⟨bits % 16, inside⟩ ⟨index, within⟩
  · rw [decide_eq_false within, Bool.false_and]
    refine Nat.testBit_lt_two_pow (Nat.lt_of_lt_of_le (small ⟨bits % 16, inside⟩) ?_)
    exact Nat.pow_le_pow_right (by decide) (by omega)

/-- The window holds the bits of its groups from the top down. -/
theorem testBit_reversedWindow {count : Nat} (few : count ≤ 4) (bits index : Nat) :
    (reversedWindow bits count).testBit index =
      (decide (16 - 4 * count ≤ index ∧ index < 16) && bits.testBit (15 - index)) := by
  induction count with
  | zero =>
    rw [reversedWindow, Nat.zero_testBit, decide_eq_false (by omega), Bool.false_and]
  | succ count ih =>
    rw [reversedWindow, Nat.testBit_or, ih (by omega), Nat.testBit_shiftLeft, testBit_reverseNibble,
      Nat.testBit_shiftRight]
    by_cases above : 12 - 4 * count ≤ index
    · by_cases group : index - (12 - 4 * count) < 4
      · have place : 4 * count + (3 - (index - (12 - 4 * count))) = 15 - index := by omega
        rw [place, decide_eq_false (by omega), decide_eq_true above, decide_eq_true group,
          decide_eq_true (by omega)]
        simp
      · rw [decide_eq_false group, Bool.false_and, Bool.and_false, Bool.or_false]
        congr 1
        exact decide_eq_decide.mpr (by omega)
    · rw [decide_eq_false above, Bool.false_and, Bool.or_false, decide_eq_false (by omega),
        decide_eq_false (by omega)]

/-- Each bit of a reversed code is the one at the mirrored place. -/
theorem testBit_reverseBits {width : Nat} (short : width ≤ maxCodeLength) (bits index : Nat) :
    (reverseBits width bits).testBit index =
      (decide (index < width) && bits.testBit (width - 1 - index)) := by
  have bound : width ≤ 15 := short
  rw [reverseBits, Nat.testBit_shiftRight, testBit_reversedWindow (by omega), maxCodeLength]
  by_cases inside : index < width
  · have place : 15 - (15 + 1 - width + index) = width - 1 - index := by omega
    rw [place, decide_eq_true (by omega), decide_eq_true inside]
  · rw [decide_eq_false (by omega), decide_eq_false inside]
    rfl

/-- The window takes sixteen bits, so no word it is kept in cuts it. -/
theorem reversedWindow_lt {count : Nat} (few : count ≤ 4) (bits : Nat) :
    reversedWindow bits count < 2 ^ 16 := by
  apply Nat.lt_pow_two_of_testBit
  intro index beyond
  rw [testBit_reversedWindow few, decide_eq_false (by omega), Bool.false_and]

/-- A reversed code fits its width. -/
theorem reverseBits_lt {width : Nat} (short : width ≤ maxCodeLength) (bits : Nat) :
    reverseBits width bits < 2 ^ width := by
  apply Nat.lt_pow_two_of_testBit
  intro index beyond
  rw [testBit_reverseBits short, decide_eq_false (by omega), Bool.false_and]

/-- The bits above a code have no effect on its reversal. -/
theorem reverseBits_congr {width bits other : Nat} (short : width ≤ maxCodeLength)
    (same : other % 2 ^ width = bits % 2 ^ width) :
    reverseBits width other = reverseBits width bits := by
  apply Nat.eq_of_testBit_eq
  intro index
  rw [testBit_reverseBits short, testBit_reverseBits short]
  by_cases inside : index < width
  · have mirrored := congrArg (Nat.testBit · (width - 1 - index)) same
    simp only [Nat.testBit_mod_two_pow] at mirrored
    rw [decide_eq_true (by omega : width - 1 - index < width), Bool.true_and,
      Bool.true_and] at mirrored
    rw [mirrored]
  · rw [decide_eq_false inside, Bool.false_and, Bool.false_and]

/-- A number of `width` bits read from its most significant bit on. -/
def mirrored (width number : Nat) : Nat := ofBits (toBits width number).reverse

/-- Reversing a code reverses the bits it is written with. -/
theorem toBits_reverseBits {width : Nat} (short : width ≤ maxCodeLength) (bits : Nat) :
    toBits width (reverseBits width bits) = (toBits width bits).reverse := by
  apply List.ext_getElem (by simp)
  intro index inside _
  have within : index < width := by simpa using inside
  simp only [toBits, List.getElem_map, List.getElem_range, List.getElem_reverse, List.length_map,
    List.length_range]
  rw [testBit_reverseBits short, decide_eq_true within, Bool.true_and]

/-- A reversed code is the code read from its most significant bit on. -/
theorem reverseBits_eq_mirrored {width : Nat} (short : width ≤ maxCodeLength) (bits : Nat) :
    reverseBits width bits = mirrored width bits := by
  rw [mirrored, ← toBits_reverseBits short, ofBits_toBits,
    Nat.mod_eq_of_lt (reverseBits_lt short bits)]

/-- Reading the bits of a number from either end in turn gives the number modulo its width. -/
theorem mirrored_mirrored (width number : Nat) :
    mirrored width (mirrored width number) = number % 2 ^ width := by
  have written := toBits_ofBits (toBits width number).reverse
  rw [List.length_reverse, length_toBits] at written
  rw [mirrored, mirrored, written, List.reverse_reverse, ofBits_toBits]

/-- Reversing a code twice gives the code without the bits above it. -/
theorem reverseBits_reverseBits {width : Nat} (short : width ≤ maxCodeLength) (bits : Nat) :
    reverseBits width (reverseBits width bits) = bits % 2 ^ width := by
  rw [reverseBits_eq_mirrored short, reverseBits_eq_mirrored short, mirrored_mirrored]

/-- Where a reversed code begins another one, the code holds the other's most significant bits. -/
theorem eq_div_of_reverseBits {width wider first second : Nat} (ordered : width ≤ wider)
    (short : wider ≤ maxCodeLength) (firstFits : first < 2 ^ width)
    (secondFits : second < 2 ^ wider)
    (begins : reverseBits wider second % 2 ^ width = reverseBits width first) :
    first = second / 2 ^ (wider - width) := by
  apply Nat.eq_of_testBit_eq
  intro index
  rw [Nat.testBit_div_two_pow]
  by_cases inside : index < width
  · have mirrored := congrArg (Nat.testBit · (width - 1 - index)) begins
    have place : width - 1 - (width - 1 - index) = index := by omega
    have widePlace : wider - 1 - (width - 1 - index) = index + (wider - width) := by omega
    simp only [Nat.testBit_mod_two_pow] at mirrored
    rw [testBit_reverseBits short, testBit_reverseBits (Nat.le_trans ordered short), place,
      widePlace, decide_eq_true (by omega), decide_eq_true (by omega)] at mirrored
    simpa using mirrored.symm
  · have above : 2 ^ width ≤ 2 ^ index := Nat.pow_le_pow_right (by decide) (by omega)
    have wideAbove : 2 ^ wider ≤ 2 ^ (index + (wider - width)) :=
      Nat.pow_le_pow_right (by decide) (by omega)
    rw [Nat.testBit_lt_two_pow (by omega), Nat.testBit_lt_two_pow (by omega)]

/-- Reversing up to fifteen bits of any number, one of 32 bits in particular, mirrors the bits of
that width and drops all others. So the result fits the width, it depends on the bits of the width
only, and reversing it once more gives these bits back. Meanwhile the window never grows past
sixteen bits. -/
theorem reverseBits_mirrors {width : Nat} (short : width ≤ maxCodeLength) (bits : Nat) :
    (∀ index < width, (reverseBits width bits).testBit index = bits.testBit (width - 1 - index)) ∧
    (∀ index, width ≤ index → (reverseBits width bits).testBit index = false) ∧
    reverseBits width bits < 2 ^ width ∧
    (∀ other, other % 2 ^ width = bits % 2 ^ width →
      reverseBits width other = reverseBits width bits) ∧
    reverseBits width (reverseBits width bits) = bits % 2 ^ width ∧
    ∀ count ≤ 4, reversedWindow bits count < 2 ^ 16 := by
  refine ⟨?_, ?_, reverseBits_lt short bits, fun _ same => reverseBits_congr short same,
    reverseBits_reverseBits short bits, fun _ few => reversedWindow_lt few bits⟩
  · intro index inside
    rw [testBit_reverseBits short, decide_eq_true inside, Bool.true_and]
  · intro index beyond
    rw [testBit_reverseBits short, decide_eq_false (Nat.not_lt.mpr beyond), Bool.false_and]

/-- Five bits of a word whose upper bits are all set: two groups of four, of which the second has
three bits too many. -/
theorem reverseBits_mirrors_of_five_bits :
    (reverseBits 5 0xfffffff6).testBit 0 = true ∧ (reverseBits 5 0xfffffff6).testBit 5 = false ∧
      reverseBits 5 0xfffffff6 = reverseBits 5 0b10110 ∧
      reverseBits 5 (reverseBits 5 0xfffffff6) = 0b10110 := by
  obtain ⟨low, high, _, alike, twice, _⟩ :=
    reverseBits_mirrors (show 5 ≤ maxCodeLength by decide) 0xfffffff6
  exact ⟨low 0 (by decide), high 5 (by decide), (alike 0b10110 (by decide)).symm, twice⟩

end CanonicalHuffman
