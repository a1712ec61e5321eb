import CanonicalHuffman.Bits

/-!
# Digits

Reading decimal digits, and writing and reading binary ones. A decimal digit is one of the ten
ASCII characters and no other. A number is written in binary with at least a given number of
digits, filled up with zeros in front; reading the digits gives the number back.
-/

namespace CanonicalHuffman

attribute [local instance (20000)] instPowNat

namespace Text

/-- The value of a decimal digit. -/
def digit? (char : Char) : Option Nat :=
  if '0' ≤ char ∧ char ≤ '9' then some (char.toNat - '0'.toNat) else none

/-- Whether a character is a decimal digit. -/
def isDigit (char : Char) : Bool := (digit? char).isSome

/-- The number that decimal digits continue from `value`. Other characters count as zeros. -/
def decimalFrom (value : Nat) (digits : List Char) : Nat :=
  digits.foldl (fun value char => 10 * value + (digit? char).getD 0) value

/-- The number that decimal digits stand for. -/
def decimal (digits : List Char) : Nat := decimalFrom 0 digits

/-- A natural number: one decimal digit or more. -/
def natural? (text : List Char) : Option Nat :=
  if text ≠ [] ∧ text.all isDigit then some (decimal text) else none

/-- A whole number: a natural number with an optional sign. -/
def integer? : List Char → Option Int
  | '+' :: digits => (natural? digits).map Int.ofNat
  | '-' :: digits => (natural? digits).map (- Int.ofNat ·)
  | digits => (natural? digits).map Int.ofNat

/-- The number of binary digits of a number, one for zero. -/
def bitLength (number : Nat) : Nat := if number = 0 then 1 else number.log2 + 1

/-- The binary digit of a bit. -/
def bitDigit (bit : Bool) : Char := if bit then '1' else '0'

/-- The binary digits of a number, at least `width` of them. -/
def binary (width number : Nat) : List Char :=
  (toBits (max width (bitLength number)) number).reverse.map bitDigit

/-- The number that binary digits stand for, if there are no other characters. -/
def ofBinary? (text : List Char) : Option Nat :=
  if text.all fun char => char = '0' ∨ char = '1' then some (ofBits (text.reverse.map (· = '1')))
  else none

/-- The value of a character that is an ASCII digit. -/
theorem digit?_of_isDigit {char : Char} (digit : char.isDigit) :
    digit? char = some (char.toNat - '0'.toNat) := by
  rw [digit?, if_pos]
  simpa [Char.isDigit, Char.le_def] using digit

/-- A number is written in decimal digits. -/
theorem isDigit_of_mem_toDigits {number : Nat} {char : Char}
    (member : char ∈ Nat.toDigits 10 number) : isDigit char := by
  rw [isDigit, digit?_of_isDigit (Nat.isDigit_of_mem_toDigits (by decide) (by decide) member)]
  rfl

/-- The digits of a number stand for it. -/
theorem decimal_toDigits (number : Nat) : decimal (Nat.toDigits 10 number) = number := by
  have values : ∀ digits : List Char, (∀ char ∈ digits, char.isDigit) → ∀ value,
      decimalFrom value digits = Nat.ofDigitChars 10 digits value := by
    intro digits
    induction digits with
    | nil => exact fun _ _ => rfl
    | cons char rest ih =>
      intro all value
      rw [List.forall_mem_cons] at all
      have later := ih all.2 (10 * value + (char.toNat - '0'.toNat))
      rw [Nat.ofDigitChars_cons, ← later, decimalFrom, List.foldl_cons,
        digit?_of_isDigit all.1, Option.getD_some]
      rfl
  have digits : ∀ char ∈ Nat.toDigits 10 number, char.isDigit := fun char member =>
    Nat.isDigit_of_mem_toDigits (by decide) (by decide) member
  rw [decimal, values _ digits, Nat.ofDigitChars_ten_toDigits]

/-- The digits of a number are read back. -/
theorem natural?_toDigits (number : Nat) : natural? (Nat.toDigits 10 number) = some number := by
  have digits : (Nat.toDigits 10 number).all isDigit :=
    List.all_eq_true.mpr fun _ => isDigit_of_mem_toDigits
  rw [natural?, if_pos ⟨Nat.toDigits_ne_nil, digits⟩, decimal_toDigits]

/-- Binary digits are zeros and ones. -/
theorem mem_binary {width number : Nat} {char : Char} (member : char ∈ binary width number) :
    char = '0' ∨ char = '1' := by
  obtain ⟨bit, _, rfl⟩ := List.mem_map.mp member
  cases bit
  · exact .inl rfl
  · exact .inr rfl

/-- As many digits are written as the width asks for or the number needs. -/
@[simp] theorem length_binary (width number : Nat) :
    (binary width number).length = max width (bitLength number) := by
  simp [binary]

/-- There is always a binary digit. -/
theorem binary_ne_nil (width number : Nat) : binary width number ≠ [] := by
  have positive : 0 < bitLength number := by
    unfold bitLength
    split <;> omega
  apply List.ne_nil_of_length_pos
  rw [length_binary]
  omega

/-- A number below `2 ^ width` needs no more than `width` digits. -/
theorem length_binary_of_lt {width number : Nat} (wide : 0 < width) (small : number < 2 ^ width) :
    (binary width number).length = width := by
  have : bitLength number ≤ width := by
    unfold bitLength
    split
    · exact wide
    · next filled => exact (Nat.log2_lt filled).mpr small
  rw [length_binary]
  omega

/-- A number has no more bits than binary digits. -/
theorem lt_two_pow_bitLength (number : Nat) : number < 2 ^ bitLength number := by
  unfold bitLength
  split
  · next zero => rw [zero]; decide
  · exact Nat.lt_log2_self

/-- Reading the binary digits of a number gives the number back. -/
theorem ofBinary?_binary (width number : Nat) : ofBinary? (binary width number) = some number := by
  have readable : ((binary width number).all fun char => char = '0' ∨ char = '1') = true := by
    rw [List.all_eq_true]
    intro char member
    rcases mem_binary member with rfl | rfl <;> decide
  have bits : (binary width number).reverse.map (fun char => decide (char = '1')) =
      toBits (max width (bitLength number)) number := by
    have undone : (fun char => decide (char = '1')) ∘ bitDigit = id :=
      funext fun bit => by cases bit <;> decide
    rw [binary, ← List.map_reverse, List.reverse_reverse, List.map_map, undone, List.map_id]
  have small : number < 2 ^ max width (bitLength number) :=
    Nat.lt_of_lt_of_le (lt_two_pow_bitLength number)
      (Nat.pow_le_pow_right (by decide) (Nat.le_max_right ..))
  rw [ofBinary?, if_pos readable, bits, ofBits_toBits, Nat.mod_eq_of_lt small]

end Text

end CanonicalHuffman
