import CanonicalHuffman.Tree.Walk

/-!
# Depths for the symbols of a histogram

Every used symbol gets a depth between 1 and a limit. The depths are those of a merged tree. When
its deepest leaf lies below the limit, all counts under a floor are raised to the floor and the
tree is built anew, with a floor that doubles from round to round: flatter weights give a
shallower tree.

A lone symbol gets depth 1, for a code of no bits could not be written, and an unused symbol gets
depth 0. The rounds share one pool and one list of depths.
-/

namespace CanonicalHuffman

attribute [local instance (20000)] instPowNat

/-- The state after a round: the pool and the depths it has written, and its deepest leaf. -/
structure Round where
  /-- The pool of the merge. -/
  pool : Slots Node
  /-- The depth of each symbol. -/
  depths : Slots UInt8
  /-- The depth of the deepest leaf. -/
  deepest : Nat
deriving Repr

namespace Round

/-- The state before the first round for `used` symbols out of `symbols`. -/
def initial (used symbols : Nat) : Round where
  pool := Array.replicate (2 * used) .vacant
  depths := Array.replicate symbols 0
  deepest := 0

/-- Build the tree of sorted leaves and write its depths. -/
def next (leaves : List Leaf) (previous : Round) : Except Fault Round := do
  let merge ← Merge.run (leaves.map Node.ofLeaf).toArray previous.pool
  let root ← Slots.fetch merge.frontier 0
  let walk ← Walk.run root merge.pool previous.depths
  return { pool := merge.pool, depths := walk.depths, deepest := walk.deepest }

end Round

/-- Depths within a limit, and the floor of the round that found them. -/
structure Fitting where
  /-- The floor that the counts were raised to. -/
  floor : Nat
  /-- The depth of each symbol. -/
  depths : List UInt8
deriving DecidableEq, Repr

namespace Histogram

/-- The largest floor. -/
def maxFloor : Nat := UInt64.size - 1

/-- The floor of the round after the one with the given floor. -/
def raise (floor : Nat) : Nat := min (2 * floor) maxFloor

/-- The number of different floors: the powers of two up to the largest floor, and that one. -/
def floorCount : Nat := 65

/-- Try one floor after the other until the tree is no deeper than the limit. -/
def search (counts : Histogram) (limit : Nat) : Nat → Nat → Round → Except Fault Fitting
  | 0, _, _ => .error .floorsExhausted
  | floors + 1, floor, previous => do
    let round ← previous.next (counts.sortedLeaves floor)
    if round.deepest ≤ limit then return { floor, depths := round.depths.toList }
    else search counts limit floors (raise floor) round

/-- Depths for a histogram with a used symbol. -/
def fitUsed (counts : Histogram) (limit : Nat) : Except Fault Fitting :=
  let start := Round.initial counts.used counts.length
  match counts.leaves 1 with
  | [tip] => do
    let depths ← Slots.store start.depths tip.symbol 1
    return { floor := 1, depths := depths.toList }
  | _ => counts.search limit floorCount 1 start

/-- Depths of at most `limit` for the symbols of a histogram, to be put in the place of
`previous`, whose entries have no effect. -/
def fit (counts : Histogram) (limit : Nat) (previous : List UInt8) : Except Fault Fitting :=
  if limit < 1 ∨ maxCodeLength < limit then .error (.limitOutOfRange limit)
  else if counts.length ≠ previous.length then
    .error (.depthsSize counts.length previous.length)
  else if counts.used = 0 then .ok { floor := 1, depths := List.replicate counts.length 0 }
  else if 2 ^ limit < counts.used then .error (.tooManySymbols counts.used limit)
  else counts.fitUsed limit

/-- Depths of at most `limit` for the symbols of a histogram. -/
def depths (counts : Histogram) (limit : Nat) : Except Fault (List UInt8) :=
  (counts.fit limit (List.replicate counts.length 0)).map Fitting.depths

end Histogram

end CanonicalHuffman
