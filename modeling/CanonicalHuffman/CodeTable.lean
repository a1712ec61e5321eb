import CanonicalHuffman.Token

/-!
# Code tables

A code table gives each symbol of an alphabet a code length and a code. Length zero marks a symbol
without a code. The two lists come from the caller and need not be equally long; looking up a
symbol whose code is missing is a fault.
-/

namespace CanonicalHuffman

/-- Code lengths and codes for one alphabet, in symbol order. -/
structure CodeTable where
  /-- The number of bits of each code, zero for a symbol without one. -/
  lengths : List UInt8
  /-- The codes, whose least significant bit is written first. -/
  codes : List UInt16
deriving DecidableEq, Repr

namespace CodeTable

/-- The table of an alphabet in which no symbol has a code. -/
def empty (symbols : Nat) : CodeTable :=
  ⟨List.replicate symbols 0, List.replicate symbols 0⟩

/-- The size of the alphabet. -/
def symbolCount (table : CodeTable) : Nat := table.lengths.length

/-- The number of symbols that have a code. -/
def usedCount (table : CodeTable) : Nat := table.lengths.countP (· ≠ 0)

/-- The longest code length, zero when no symbol has a code. -/
def longest (table : CodeTable) : UInt8 := table.lengths.foldl max 0

/-- The code and the length of a symbol, if it has one. -/
def code? (table : CodeTable) (symbol : Nat) : Except Fault (Option (UInt16 × UInt8)) :=
  match table.lengths[symbol]? with
  | none => .ok none
  | some length =>
    if length = 0 then .ok none
    else match table.codes[symbol]? with
      | some code => .ok (some (code, length))
      | none => .error (.outOfBounds table.codes.length symbol)

/-- The tokens of the code lengths. There are never more tokens than lengths. -/
def tokens (table : CodeTable) : Except Fault (List Token) :=
  Token.ofLengths table.lengths table.symbolCount

/-- A table has one code per length. -/
def Consistent (table : CodeTable) : Prop := table.codes.length = table.lengths.length

/-- The code of a symbol, if the table has one for it. -/
theorem code?_eq_ok_some_iff {table : CodeTable} {symbol : Nat} {code : UInt16} {length : UInt8} :
    table.code? symbol = .ok (some (code, length)) ↔
      table.lengths[symbol]? = some length ∧ length ≠ 0 ∧ table.codes[symbol]? = some code := by
  unfold code?
  grind

/-- In a consistent table every symbol of nonzero length has a code. -/
theorem Consistent.exists_code? {table : CodeTable} (consistent : table.Consistent) {symbol : Nat}
    {length : UInt8} (found : table.lengths[symbol]? = some length) (filled : length ≠ 0) :
    ∃ code, table.code? symbol = .ok (some (code, length)) := by
  obtain ⟨inside, _⟩ := List.getElem?_eq_some_iff.mp found
  have small : symbol < table.codes.length := by rw [consistent]; exact inside
  exact ⟨table.codes[symbol], code?_eq_ok_some_iff.mpr
    ⟨found, filled, List.getElem?_eq_getElem small⟩⟩

end CodeTable

end CanonicalHuffman
