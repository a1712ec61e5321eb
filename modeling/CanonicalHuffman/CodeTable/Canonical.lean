import CanonicalHuffman.Bits.Reversal
import CanonicalHuffman.CodeTable

/-!
# Canonical codes

The code lengths alone decide the codes. Codes of one length are consecutive numbers in symbol
order, and the first code of a length follows on the codes of the lengths below it. A code is
written most significant bit first, so the table, which is read the other way round, holds it
reversed.
-/

namespace CanonicalHuffman

/-- A code length between zero and the longest one. -/
abbrev CodeLength := Fin 16

namespace CodeLength

/-- Code lengths within the format. The first one that is too long is a fault. -/
def ofBytes : List UInt8 → Except Fault (List CodeLength)
  | [] => .ok []
  | length :: rest =>
    if small : length.toNat < 16 then do
      let rest ← ofBytes rest
      return ⟨length.toNat, small⟩ :: rest
    else .error (.lengthTooLong length)

/-- The number of codes of the given length. Symbols of length zero have none. -/
def classSize (lengths : List CodeLength) (length : Nat) : Nat :=
  if length = 0 then 0 else lengths.countP (·.val = length)

/-- The first code of the given length. -/
def firstCode (lengths : List CodeLength) : Nat → Nat
  | 0 => 0
  | length + 1 => 2 * (firstCode lengths length + classSize lengths length)

/-- The first code of every length. -/
def firstCodes (lengths : List CodeLength) : Vector Nat 16 :=
  (Vector.range 16).map (firstCode lengths)

/-- Put codes in the place of `previous`, one for each length as far as both lists reach, where
`next` holds the next code of every length. What lies past the lengths stays. -/
def assign (next : Vector Nat 16) : List CodeLength → (previous : List UInt16) → List UInt16
  | [], previous => previous
  | _ :: _, [] => []
  | length :: lengths, _ :: previous =>
    if length = 0 then 0 :: assign next lengths previous
    else
      (reverseBits length next[length]).toUInt16 ::
        assign (next.set length (next[length] + 1)) lengths previous

/-- Assigning codes keeps their number. -/
@[simp] theorem length_assign (next : Vector Nat 16) (lengths : List CodeLength)
    (previous : List UInt16) : (assign next lengths previous).length = previous.length := by
  fun_induction assign next lengths previous <;> simp_all

/-- Lengths are within the format exactly when none is above the longest. -/
theorem ofBytes_eq_ok_iff {bytes : List UInt8} {lengths : List CodeLength} :
    ofBytes bytes = .ok lengths ↔ bytes.map UInt8.toNat = lengths.map Fin.val := by
  induction bytes generalizing lengths with
  | nil => cases lengths <;> simp [ofBytes]
  | cons byte rest ih =>
    rw [ofBytes]
    split
    · next small =>
      cases lengths with
      | nil => cases found : ofBytes rest <;> simp [bind, Except.bind, pure, Except.pure]
      | cons length lengths =>
        cases found : ofBytes rest with
        | error fault =>
          have refused := @ih lengths
          simp [found, bind, Except.bind] at refused ⊢
          exact fun _ => refused
        | ok read =>
          have accepted := @ih lengths
          simp [found, bind, Except.bind, pure, Except.pure, Fin.ext_iff] at accepted ⊢
          exact fun _ => accepted
    · next large =>
      cases lengths with
      | nil => simp
      | cons length lengths =>
        have := length.isLt
        simp
        omega

end CodeLength

namespace CodeTable

/-- Assign the canonical codes of a table's lengths. -/
def assignCodes (table : CodeTable) : Except Fault CodeTable := do
  let lengths ← CodeLength.ofBytes table.lengths
  return { table with
    codes := CodeLength.assign (CodeLength.firstCodes lengths) lengths table.codes }

end CodeTable

end CanonicalHuffman
