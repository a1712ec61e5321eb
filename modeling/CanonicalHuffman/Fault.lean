import CanonicalHuffman.Limits

/-!
# Faults

A fault is the reason why an operation refuses its arguments. Every constructor carries the
numbers its message shows. The last four constructors answer an arena that is damaged or sums past
all counts; building a code from a histogram never reaches them.

Of operations in a row the first to refuse decides.
-/

namespace CanonicalHuffman

/-- The reasons for which an operation of this library refuses its arguments. -/
inductive Fault where
  /-- The depth limit is not between 1 and the longest code length. -/
  | limitOutOfRange (limit : Nat)
  /-- A list of depths is not as long as the histogram it shall describe. -/
  | depthsSize (counts depths : Nat)
  /-- More symbols are used than codes of the given length can tell apart. -/
  | tooManySymbols (used limit : Nat)
  /-- A code table is not as long as the histogram it shall describe. -/
  | tableSize (counts lengths : Nat)
  /-- A code table has more or fewer codes than lengths. -/
  | codesSize (codes lengths : Nat)
  /-- A code length exceeds the longest one. -/
  | lengthTooLong (length : UInt8)
  /-- A list of tokens is longer than allowed. -/
  | budgetExceeded (budget : Nat)
  /-- A position lies past the end of what it points into. -/
  | outOfBounds (size index : Nat)
  /-- A sum is more than 64 bits can hold. -/
  | sumOverflow
  /-- A tree holds a slot that no node was stored in. -/
  | vacantNode
  /-- A tree has more nodes than the arena it lies in. -/
  | endlessWalk
  /-- No floor flattens the counts enough. -/
  | floorsExhausted
deriving DecidableEq, Repr

/-- The text that reports a fault. -/
def Fault.message : Fault → String
  | limitOutOfRange limit => s!"depth limit {limit} outside 1..={maxCodeLength}"
  | depthsSize counts depths =>
    "assertion `left == right` failed: histogram and bit depth lengths differ\n" ++
      s!"  left: {counts}\n right: {depths}"
  | tooManySymbols used limit => s!"{used} used symbols cannot fit in {limit}-bit codes"
  | tableSize counts lengths =>
    "assertion `left == right` failed: histogram and code table sizes differ\n" ++
      s!"  left: {counts}\n right: {lengths}"
  | codesSize codes lengths =>
    "assertion `left == right` failed: code table is inconsistent\n" ++
      s!"  left: {codes}\n right: {lengths}"
  | lengthTooLong length => s!"code length {length} exceeds {maxCodeLength}"
  | budgetExceeded budget => s!"token budget of {budget} exceeded"
  | outOfBounds size index => s!"index out of bounds: the len is {size} but the index is {index}"
  | sumOverflow => "attempt to add with overflow"
  | vacantNode => "a tree holds a vacant node"
  | endlessWalk => "a tree has more nodes than its arena"
  | floorsExhausted => "no floor makes the tree shallow enough"

/-- Add two numbers. It is a fault when 64 bits cannot hold their sum. -/
def addWords (left right : Nat) : Except Fault Nat :=
  if left + right < UInt64.size then .ok (left + right) else .error .sumOverflow

/-- Two numbers are added when 64 bits hold their sum. -/
@[simp] theorem addWords_eq_ok_iff {left right sum : Nat} :
    addWords left right = .ok sum ↔ left + right < UInt64.size ∧ left + right = sum := by
  by_cases light : left + right < UInt64.size <;> simp [addWords, light]

/-- Two numbers whose sum 64 bits cannot hold are not added. -/
theorem addWords_of_le {left right : Nat} (heavy : UInt64.size ≤ left + right) :
    addWords left right = .error .sumOverflow :=
  if_neg (Nat.not_lt.mpr heavy)

section Sequence

variable {α β ε : Type} {first : Except ε α} {later : α → Except ε β}

/-- Two operations in a row succeed when the first does and the second does on its result. -/
theorem bind_eq_ok_iff {result : β} : first >>= later = .ok result ↔
    ∃ value, first = .ok value ∧ later value = .ok result := by
  cases first <;> simp [bind, Except.bind]

/-- Two operations in a row fail when the first does or the second does on its result. -/
theorem bind_eq_error_iff {wrong : ε} : first >>= later = .error wrong ↔
    first = .error wrong ∨ ∃ value, first = .ok value ∧ later value = .error wrong := by
  cases first <;> simp [bind, Except.bind]

end Sequence

end CanonicalHuffman
