import CanonicalHuffman.Text.Pieces
import CanonicalHuffman.Text.WhiteSpace

/-!
# Counts in a text

A text of counts is cut at commas and at white space. Every piece that is not empty is a count: an
optional plus sign and decimal digits. The pieces are read from left to right, the characters of a
piece as well, and the first thing wrong is reported: a character that is no digit, or a number
that has grown too large.
-/

namespace CanonicalHuffman

namespace CountText

/-- What is wrong with a piece of a text of counts. -/
inductive BadCount where
  /-- A character that is not a digit, or no digit at all. -/
  | invalidDigit
  /-- A number above the largest count. -/
  | tooLarge
deriving DecidableEq, Repr

/-- The text that reports what is wrong with a piece. -/
def BadCount.message : BadCount → String
  | invalidDigit => "invalid digit found in string"
  | tooLarge => "number too large to fit in target type"

/-- The largest count. -/
def maxCount : Nat := UInt32.size - 1

/-- Whether a character stands between two pieces. -/
def isSeparator (char : Char) : Bool := char = ',' || Text.isWhiteSpace char

/-- The pieces of a text, each of which should be a count. -/
def pieces (text : List Char) : List (List Char) := Text.pieces isSeparator text

/-- Read the digits of a count after `value`. -/
def readDigits (value : Nat) : List Char → Except BadCount UInt32
  | [] => .ok value.toUInt32
  | char :: rest =>
    match Text.digit? char with
    | none => .error .invalidDigit
    | some digit =>
      if maxCount < 10 * value + digit then .error .tooLarge
      else readDigits (10 * value + digit) rest

/-- The digits of a piece: what follows a plus sign in front. -/
def digitsOf : List Char → List Char
  | '+' :: digits => digits
  | digits => digits

/-- Read a piece as a count. -/
def readPiece (piece : List Char) : Except BadCount UInt32 :=
  if digitsOf piece = [] then .error .invalidDigit else readDigits 0 (digitsOf piece)

/-- Read all counts of a text. -/
def read (text : List Char) : Except BadCount (List UInt32) := (pieces text).mapM readPiece

end CountText

end CanonicalHuffman
