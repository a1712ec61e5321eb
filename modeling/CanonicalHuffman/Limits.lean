/-!
# Limits of the code format

The numbers every other module shares: how long a code may be, how many different tokens
describe a list of code lengths, and which length a reader of tokens starts from.
-/

namespace CanonicalHuffman

/-- The longest code, in bits. -/
def maxCodeLength : Nat := 15

/-- The number of token codes: a literal for each length from 0 to 15 and three repeats. -/
def tokenAlphabetSize : Nat := 19

/-- The nonzero length that counts as the previous one before any has been read. -/
def initialPrevious : UInt8 := 8

end CanonicalHuffman
