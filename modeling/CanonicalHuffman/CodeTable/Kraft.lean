import CanonicalHuffman.CodeTable

/-!
# The Kraft sum

A code of `length` bits takes the share `2 ^ -length` of all bit strings. Shares are counted in
units of `2 ^ -width`, so that the sum is a whole number: lengths leave room for a code when their
sum is at most `2 ^ width`, and fill it when the sum is equal.
-/

namespace CanonicalHuffman

attribute [local instance (20000)] instPowNat
attribute [local instance (20000)] Zero.ofOfNat0

/-- The share of a code length in units of `2 ^ -width`. A symbol without a code takes none. -/
def kraftShare (width : Nat) (length : UInt8) : Nat :=
  if length = 0 then 0 else 2 ^ (width - length.toNat)

/-- The sum of the shares of code lengths in units of `2 ^ -width`. -/
def kraftSum (width : Nat) (lengths : List UInt8) : Nat := (lengths.map (kraftShare width)).sum

/-- No lengths have no share. -/
@[simp] theorem kraftSum_nil (width : Nat) : kraftSum width [] = 0 := rfl

/-- A length in front adds its share. -/
@[simp] theorem kraftSum_cons (width : Nat) (length : UInt8) (rest : List UInt8) :
    kraftSum width (length :: rest) = kraftShare width length + kraftSum width rest := by
  simp [kraftSum]

end CanonicalHuffman
