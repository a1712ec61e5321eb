import CanonicalHuffman.Histogram
import CanonicalHuffman.Run

/-!
# Shaping a histogram

Symbols with equal counts tend to get equal code lengths, and equal lengths in a row are cheap
to describe. Shaping replaces neighbouring counts that lie close together by their rounded
mean. It sweeps once over the counts in place: the counts from `start` to the present position
form a block, which grows while the next count stays near its limit and is levelled when it ends.

Zeros after the last used symbol stay as they are, and so does every count in a run that is
long enough to be cheap already.
-/

namespace CanonicalHuffman

namespace Histogram

/-- Whether a run is cheap to describe as it stands: five zeros or seven equal counts. -/
def isCheap (run : Run UInt32) : Bool := if run.value = 0 then 5 ≤ run.size else 7 ≤ run.size

/-- For each count, whether it lies in a cheap run. -/
def cheapMarks (counts : Histogram) : List Bool :=
  (Run.runs counts).flatMap fun run => List.replicate run.size (isCheap run)

/-- There is one mark per count. -/
@[simp] theorem length_cheapMarks (counts : Histogram) :
    counts.cheapMarks.length = counts.length := by
  have marked : ∀ cut : List (Run UInt32),
      (cut.flatMap fun run => List.replicate run.size (isCheap run)).length =
        (Run.layout cut).length := by
    intro cut
    induction cut with
    | nil => rfl
    | cons run rest ih => simp [Run.toList, ih]
  rw [cheapMarks, marked, Run.layout_runs]

/-- The mean of `size` counts with the given sum, a half rounded up. -/
def roundedMean (sum size : Nat) : Nat := (sum + size / 2) / size

/-- Whether a count differs from a limit by less than four. -/
def isNear (count : UInt32) (limit : Nat) : Bool :=
  count.toNat < limit + 4 ∧ limit < count.toNat + 4

/-- The count that replaces a block of `size` counts: zero for a block of zeros, otherwise the
rounded mean, and at least one so that no used symbol is lost. -/
def levelOf (sum size : Nat) : UInt32 :=
  if sum = 0 then 0 else (max 1 (roundedMean sum size)).toUInt32

end Histogram

open Histogram

/-- The state of a sweep over `n` counts. -/
structure Sweep (n : Nat) where
  /-- The counts, levelled up to `start`. -/
  counts : Vector UInt32 n
  /-- The first position of the present block. -/
  start : Nat
  /-- The sum of the counts of the present block. -/
  sum : Nat
  /-- The value that the next count of the block has to be near to. -/
  limit : Nat

namespace Sweep

variable {n : Nat}

/-- Write one value into all positions from `start` up to but not including `stop`. -/
def fillRange (counts : Vector UInt32 n) (start stop : Nat) (value : UInt32) :
    Vector UInt32 n :=
  (stop - start).fold (fun offset _ filled => filled.setIfInBounds (start + offset) value) counts

/-- Filling changes exactly the positions of the range. -/
theorem getElem_fillRange (counts : Vector UInt32 n) (start stop : Nat)
    (value : UInt32) (position : Nat) (inside : position < n) :
    (fillRange counts start stop value)[position] =
      if start ≤ position ∧ position < stop then value else counts[position] := by
  have filled : ∀ size, ((size.fold (fun offset _ filled =>
      filled.setIfInBounds (start + offset) value) counts : Vector UInt32 n))[position] =
        if start ≤ position ∧ position < start + size then value else counts[position] := by
    intro size
    induction size with
    | zero => rw [Nat.fold_zero, if_neg (by omega)]
    | succ size ih =>
      rw [Nat.fold_succ, Vector.getElem_setIfInBounds, ih]
      grind
  rw [fillRange, filled]
  grind

/-- Before the first position the block is empty and its limit is the first count. -/
def initial (counts : Vector UInt32 n) : Sweep n where
  counts := counts
  start := 0
  sum := 0
  limit := if inside : 0 < n then counts[0].toNat else 0

/-- Whether the present block ends before `position`: at the end of the counts, next to a cheap
run on either side, or where the count is not near the limit. -/
def endsAt (cheap : Vector Bool n) (sweep : Sweep n) (position : Nat) : Bool :=
  if inside : position < n then
    cheap[position] || (position ≠ 0 && cheap[position - 1]) ||
      !isNear sweep.counts[position] sweep.limit
  else true

/-- The limit a block starts with: the rounded mean of its first four counts, or its first
count where fewer than four are left. -/
def startLimit (counts : Vector UInt32 n) (position : Nat) : Nat :=
  if ahead : position + 3 < n then
    roundedMean (counts[position].toNat + counts[position + 1].toNat +
      counts[position + 2].toNat + counts[position + 3].toNat) 4
  else if inside : position < n then counts[position].toNat
  else 0

/-- Level the block that ends before `position`, if it is long enough, and start a new one. -/
def close (sweep : Sweep n) (position : Nat) : Sweep n :=
  let size := position - sweep.start
  let counts :=
    if 4 ≤ size ∨ (3 ≤ size ∧ sweep.sum = 0) then
      fillRange sweep.counts sweep.start position (levelOf sweep.sum size)
    else sweep.counts
  { counts, start := position, sum := 0, limit := startLimit counts position }

/-- Take the count at `position` into the present block. From four counts on the limit is the
rounded mean of the block. -/
def extend (sweep : Sweep n) (position : Nat) : Sweep n :=
  if inside : position < n then
    let sum := sweep.sum + sweep.counts[position].toNat
    let size := position + 1 - sweep.start
    { sweep with sum, limit := if 4 ≤ size then roundedMean sum size else sweep.limit }
  else sweep

/-- Pass one position. -/
def step (cheap : Vector Bool n) (sweep : Sweep n) (position : Nat) : Sweep n :=
  (if sweep.endsAt cheap position then sweep.close position else sweep).extend position

/-- The state after the first `passed` positions. -/
def after (cheap : Vector Bool n) (counts : Vector UInt32 n) (passed : Nat) : Sweep n :=
  passed.fold (fun position _ sweep => sweep.step cheap position) (initial counts)

/-- No step leaves the sweep at its start. -/
@[simp] theorem after_zero (cheap : Vector Bool n) (counts : Vector UInt32 n) :
    after cheap counts 0 = initial counts := rfl

/-- One step more is a step of the sweep. -/
theorem after_succ (cheap : Vector Bool n) (counts : Vector UInt32 n) (passed : Nat) :
    after cheap counts (passed + 1) = (after cheap counts passed).step cheap passed := by
  simp [after]

end Sweep

namespace Histogram

/-- What shaping finds in a histogram. -/
inductive Outcome where
  /-- Every count is zero, so there is nothing to shape. -/
  | allZero
  /-- Some symbol is used. -/
  | shaped
deriving DecidableEq, Repr

/-- A shaped histogram. -/
structure Shaping where
  /-- What was found. -/
  outcome : Outcome
  /-- The counts after shaping. -/
  counts : Histogram
deriving DecidableEq, Repr

/-- Sweep over all counts and past their end, so that the last block is closed as well. -/
def levelled (counts : Histogram) : Histogram :=
  (Sweep.after ⟨counts.cheapMarks.toArray, by simp⟩ ⟨counts.toArray, rfl⟩
    (counts.length + 1)).counts.toList

/-- Levelling keeps the number of counts. -/
@[simp] theorem length_levelled (counts : Histogram) : counts.levelled.length = counts.length := by
  simp [levelled]

/-- Shape a histogram: level the counts up to the last used symbol. -/
def shape (counts : Histogram) : Shaping :=
  if counts.trimmed = [] then ⟨.allZero, counts⟩
  else ⟨.shaped, counts.trimmed.levelled ++
    List.replicate (counts.length - counts.trimmed.length) 0⟩

end Histogram

end CanonicalHuffman
