import CanonicalHuffman.Fault
import CanonicalHuffman.Histogram
import CanonicalHuffman.Run

/-!
# Tokens for code lengths

A list of code lengths is described by tokens. A token is a literal length or one of three
repeats, each with extra bits that say how often it repeats.

| code | stands for | extra bits |
|------|------------|------------|
| 0 to 15 | that length | 0 |
| 16 | the previous nonzero length, 3 to 6 times | 2 |
| 17 | 3 to 10 zeros | 3 |
| 18 | 11 to 138 zeros | 7 |

Tokens are made run by run. The previous nonzero length is 8 before any has occurred, and a run
of zeros leaves it as it is.
-/

namespace CanonicalHuffman

attribute [local instance (20000)] instPowNat
attribute [local instance (20000)] Zero.ofOfNat0

/-- A literal code length or a repeat. -/
structure Token where
  /-- The length, or the kind of repeat. -/
  code : UInt8
  /-- How far a repeat goes past its least number of repetitions. -/
  extraBits : UInt8
deriving DecidableEq, Repr

namespace Token

/-- The code of a repeat of the previous nonzero length. -/
def repeatPrevious : UInt8 := 16

/-- The code of a short row of zeros. -/
def repeatZerosShort : UInt8 := 17

/-- The code of a long row of zeros. -/
def repeatZerosLong : UInt8 := 18

/-- The token of a length by itself. -/
def literal (length : UInt8) : Token := ⟨length, 0⟩

/-- The number of bits that the extra bits take. -/
def extraBitCount (token : Token) : Nat :=
  if token.code = repeatPrevious then 2
  else if token.code = repeatZerosShort then 3
  else if token.code = repeatZerosLong then 7
  else 0

/-- The number of code lengths that a token stands for. -/
def runLength (token : Token) : Nat :=
  if token.code = repeatPrevious ∨ token.code = repeatZerosShort then 3 + token.extraBits.toNat
  else if token.code = repeatZerosLong then 11 + token.extraBits.toNat
  else 1

/-- A token that a writer can write: its code is in the alphabet and its extra bits have room. -/
structure WellFormed (token : Token) : Prop where
  /-- The code is in the alphabet. -/
  code_lt : token.code.toNat < tokenAlphabetSize
  /-- The extra bits have room. -/
  extraBits_lt : token.extraBits.toNat < 2 ^ token.extraBitCount

/-- The number of pieces of `most` that are cut off from `count` so that between 1 and `most`
are left. -/
def fullPieces (most count : Nat) : Nat := (count - 1) / most

/-- The tokens for a row of at most 138 zeros. -/
def ofFewZeros (count : Nat) : List Token :=
  if count < 3 then List.replicate count (literal 0)
  else if count ≤ 10 then [⟨repeatZerosShort, (count - 3).toUInt8⟩]
  else [⟨repeatZerosLong, (count - 11).toUInt8⟩]

/-- The tokens for a row of zeros: rows of 138 as long as more are left. -/
def ofZeros (count : Nat) : List Token :=
  List.replicate (fullPieces 138 count) ⟨repeatZerosLong, 127⟩ ++
    ofFewZeros (count - 138 * fullPieces 138 count)

/-- The tokens that repeat the previous nonzero length at most six times. -/
def ofFewRepeats (length : UInt8) (count : Nat) : List Token :=
  if count < 3 then List.replicate count (literal length)
  else [⟨repeatPrevious, (count - 3).toUInt8⟩]

/-- The tokens that repeat the previous nonzero length: six times as long as more are left. -/
def ofRepeats (length : UInt8) (count : Nat) : List Token :=
  List.replicate (fullPieces 6 count) ⟨repeatPrevious, 3⟩ ++
    ofFewRepeats length (count - 6 * fullPieces 6 count)

/-- The tokens of a run. A nonzero length other than the previous one starts with a literal. -/
def ofRun (previous : UInt8) (run : Run UInt8) : List Token :=
  if run.value = 0 then ofZeros run.size
  else if run.value = previous then ofRepeats run.value run.size
  else literal run.value :: ofRepeats run.value (run.size - 1)

/-- The previous nonzero length after a run. -/
def previousAfter (previous : UInt8) (run : Run UInt8) : UInt8 :=
  if run.value = 0 then previous else run.value

/-- The tokens of runs, where at most `limit` may be made in all and `spent` have been made. A
length that is too long is found at the start of its run, a limit that is passed at the end of one.
-/
def ofRuns (limit : Nat) : (spent : Nat) → (previous : UInt8) → List (Run UInt8) →
    Except Fault (List Token)
  | _, _, [] => .ok []
  | spent, previous, run :: rest =>
    if maxCodeLength < run.value.toNat then .error (.lengthTooLong run.value)
    else
      let tokens := ofRun previous run
      if limit < spent + tokens.length then .error (.budgetExceeded limit)
      else do
        let later ← ofRuns limit (spent + tokens.length) (previousAfter previous run) rest
        return tokens ++ later

/-- The tokens of a list of code lengths, at most `budget` of them. -/
def ofLengths (lengths : List UInt8) (budget : Nat) : Except Fault (List Token) :=
  ofRuns budget 0 initialPrevious (Run.runs lengths)

/-- How often each code of the alphabet occurs. A code outside the alphabet is a fault. -/
def histogram (tokens : List Token) : Except Fault Histogram :=
  match tokens.find? fun token => tokenAlphabetSize ≤ token.code.toNat with
  | some token => .error (.outOfBounds tokenAlphabetSize token.code.toNat)
  | none => .ok ((List.range tokenAlphabetSize).map fun code =>
      (tokens.countP fun token => token.code.toNat = code).toUInt32)

/-- The lengths that tokens stand for, after the given previous nonzero length. A code that is no
repeat stands for itself. -/
def expandFrom : (previous : UInt8) → List Token → List UInt8
  | _, [] => []
  | previous, token :: rest =>
    if token.code = repeatPrevious then
      List.replicate token.runLength previous ++ expandFrom previous rest
    else if token.code = repeatZerosShort ∨ token.code = repeatZerosLong then
      List.replicate token.runLength 0 ++ expandFrom previous rest
    else token.code :: expandFrom (if token.code = 0 then previous else token.code) rest

/-- The lengths that tokens stand for. -/
def expand (tokens : List Token) : List UInt8 := expandFrom initialPrevious tokens

/-- The number of lengths that tokens stand for, summed up over the tokens. -/
def covered (tokens : List Token) : Nat := (tokens.map runLength).sum

/-- Tokens stand for as many lengths as their run lengths add up to. -/
theorem length_expandFrom (previous : UInt8) (tokens : List Token) :
    (expandFrom previous tokens).length = covered tokens := by
  induction tokens generalizing previous with
  | nil => rfl
  | cons token rest ih =>
    simp only [expandFrom, covered, List.map_cons, List.sum_cons] at ih ⊢
    split
    · simp [ih]
    · split
      · simp [ih]
      · next notPrevious notZeros =>
        simp only [not_or] at notZeros
        simp [runLength, notPrevious, notZeros, ih, Nat.add_comm]

end Token

end CanonicalHuffman
