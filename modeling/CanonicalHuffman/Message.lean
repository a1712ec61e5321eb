import CanonicalHuffman.Bits
import CanonicalHuffman.CodeTable.Canonical

/-!
# Messages in a code

A message is a list of symbols. It is written as the codes of its symbols one after the other,
least significant bit first. A reader takes bits until they are the code of a symbol, which is
enough when no code is the beginning of another one. It needs the code lengths only, for they
decide the codes.
-/

namespace CanonicalHuffman

attribute [local instance (20000)] instPowNat

namespace CodeTable

/-- The bits of a symbol's code. -/
def symbolBits? (table : CodeTable) (symbol : Nat) : Option (List Bool) :=
  match table.code? symbol with
  | .ok (some (code, length)) => some (toBits length.toNat code.toNat)
  | _ => none

/-- The bits of a message, unless one of its symbols has no code. -/
def write? (table : CodeTable) : (message : List Nat) → Option (List Bool)
  | [] => some []
  | symbol :: rest => do
    let bits ← table.symbolBits? symbol
    let later ← write? table rest
    return bits ++ later

/-- The first symbol that has the given code of the given length, which is not zero. -/
def symbolOf? (table : CodeTable) (length code : Nat) : Option Nat :=
  (table.lengths.zip table.codes).findIdx? fun (own, ownCode) =>
    own.toNat = length ∧ ownCode.toNat = code

/-- Read one symbol where `length` bits with the value `code` have been read already. -/
def readFrom? (table : CodeTable) (length code : Nat) : List Bool → Option (Nat × List Bool)
  | [] => none
  | bit :: rest =>
    let code := code + bit.toNat * 2 ^ length
    match table.symbolOf? (length + 1) code with
    | some symbol => some (symbol, rest)
    | none => readFrom? table (length + 1) code rest

/-- Read one symbol from the front of a bit string, giving back the bits after it. -/
def read? (table : CodeTable) (bits : List Bool) : Option (Nat × List Bool) :=
  table.readFrom? 0 0 bits

/-- Reading a symbol takes at least one bit. -/
theorem length_lt_of_readFrom? {table : CodeTable} {length code symbol : Nat}
    {bits rest : List Bool} (found : table.readFrom? length code bits = some (symbol, rest)) :
    rest.length < bits.length := by
  induction bits generalizing length code with
  | nil => simp [readFrom?] at found
  | cons bit later ih =>
    rw [readFrom?] at found
    split at found
    · simp_all
    · have := ih found
      simp
      omega

/-- Read a whole bit string as a message. -/
def readAll? (table : CodeTable) (bits : List Bool) : Option (List Nat) :=
  if bits = [] then some []
  else match found : table.read? bits with
    | none => none
    | some (symbol, rest) =>
      have : rest.length < bits.length := length_lt_of_readFrom? found
      (table.readAll? rest).map (symbol :: ·)
termination_by bits.length

/-- The table that code lengths decide. -/
def ofLengths? (lengths : List UInt8) : Option CodeTable :=
  (assignCodes ⟨lengths, List.replicate lengths.length 0⟩).toOption

end CodeTable

/-- Read a message from the tokens of the code lengths and the bits of the message. The tokens have
to stand for one length per symbol. -/
def readMessage? (symbols : Nat) (tokens : List Token) (bits : List Bool) : Option (List Nat) := do
  let lengths := Token.expand tokens
  guard (lengths.length = symbols)
  let table ← CodeTable.ofLengths? lengths
  table.readAll? bits

end CanonicalHuffman
