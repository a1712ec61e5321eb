import CanonicalHuffman.CodeTable.Build
import CanonicalHuffman.Message

/-!
# Headers

A header tells a reader the code lengths of a table. It holds the tokens of the lengths, written
in a code of their own, which is built from the token counts like any other. Each token is the
code of its kind followed by its extra bits. A reader knows the lengths of the token code and the
number of symbols, and stops when the tokens it has read stand for that many.
-/

namespace CanonicalHuffman

/-- A table with the tokens of its lengths and the table of the token code. -/
structure Header where
  /-- The table that the header describes. -/
  main : Built
  /-- The tokens of its code lengths. -/
  tokens : List Token
  /-- The table of the token code. -/
  tokenCode : Built
deriving DecidableEq, Repr

namespace Header

/-- Build the table of a histogram and everything its header needs. -/
def ofHistogram (counts : Histogram) (limit tokenLimit : Nat) : Except Fault Header := do
  let main ← CodeTable.build (BuildOptions.shaped.within limit) counts (.empty counts.length)
  let tokens ← main.table.tokens
  let tokenCounts ← Token.histogram tokens
  let tokenCode ← CodeTable.build (BuildOptions.shaped.within tokenLimit) tokenCounts
    (.empty tokenAlphabetSize)
  return { main, tokens, tokenCode }

/-- The bits of tokens in a token code, unless one of them has no code. -/
def write? (tokenCode : CodeTable) : List Token → Option (List Bool)
  | [] => some []
  | token :: rest => do
    let bits ← tokenCode.symbolBits? token.code.toNat
    let later ← write? tokenCode rest
    return bits ++ toBits token.extraBitCount token.extraBits.toNat ++ later

/-- Read tokens until they stand for `remaining` lengths, giving back the bits after them. -/
def readTokens? (tokenCode : CodeTable) (remaining : Nat) (bits : List Bool) :
    Option (List Token × List Bool) :=
  if remaining = 0 then some ([], bits)
  else match found : tokenCode.read? bits with
    | none => none
    | some (code, rest) =>
      have : rest.length < bits.length := CodeTable.length_lt_of_readFrom? found
      let width := Token.extraBitCount ⟨code.toUInt8, 0⟩
      let token : Token := ⟨code.toUInt8, (ofBits (rest.take width)).toUInt8⟩
      if rest.length < width ∨ remaining < token.runLength then none
      else (readTokens? tokenCode (remaining - token.runLength) (rest.drop width)).map
        fun (later, after) => (token :: later, after)
termination_by bits.length
decreasing_by rw [List.length_drop]; omega

/-- Read the tokens that describe the given number of symbols, from the code lengths of the token
code. -/
def read? (tokenLengths : List UInt8) (symbols : Nat) (bits : List Bool) :
    Option (List Token × List Bool) := do
  let tokenCode ← CodeTable.ofLengths? tokenLengths
  readTokens? tokenCode symbols bits

end Header

end CanonicalHuffman
