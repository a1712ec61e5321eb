import CanonicalHuffman.Histogram.Shaping

/-!
# Blocks of a histogram

The levelling of a histogram in two phases: first the counts are cut into consecutive blocks,
then each block is levelled on its own. Only the counts as given decide where a block ends, so
no levelled count has an effect on a later block.
-/

namespace CanonicalHuffman

attribute [local instance (20000)] Zero.ofOfNat0

namespace Histogram

/-- A count together with its mark: whether it lies in a cheap run. -/
abbrev Marked := UInt32 × Bool

/-- The limit of a block that starts at the head of `counts`: the rounded mean of the first four
counts, or the first count where fewer than four are left. -/
def openingLimit : List Marked → Nat
  | (first, _) :: (second, _) :: (third, _) :: (fourth, _) :: _ =>
    roundedMean (first.toNat + second.toNat + third.toNat + fourth.toNat) 4
  | (first, _) :: _ => first.toNat
  | [] => 0

/-- How many of the counts that follow join a block of `size` counts with the given sum. The next
count joins when it lies in no cheap run and is near the limit, which is the opening limit below
four counts and the rounded mean of the block from four counts on. -/
def reach (opening size sum : Nat) : List Marked → Nat
  | [] => 0
  | (count, cheap) :: rest =>
    if !cheap && isNear count (if size < 4 then opening else roundedMean sum size) then
      reach opening (size + 1) (sum + count.toNat) rest + 1
    else 0

/-- Cut marked counts into blocks, the first of which has the given opening limit. A count in a
cheap run is a block of its own. -/
def cutWith (opening : Nat) : List Marked → List Histogram
  | [] => []
  | (count, true) :: rest => [count] :: cutWith (openingLimit rest) rest
  | (count, false) :: rest =>
    let size := reach opening 1 count.toNat rest
    (count :: (rest.take size).map Prod.fst) ::
      cutWith (openingLimit (rest.drop size)) (rest.drop size)
termination_by marked => marked.length
decreasing_by
  · exact Nat.lt_succ_self _
  · rw [List.length_drop, List.length_cons]
    omega

/-- The blocks of a histogram. The first block opens with the first count as its limit. -/
def blocks (counts : Histogram) : List Histogram :=
  cutWith ((counts.head?.getD 0).toNat) (counts.zip counts.cheapMarks)

/-- Level one block: four counts and more are replaced by their level, fewer stay. -/
def levelBlock (block : Histogram) : Histogram :=
  if block.length < 4 then block
  else List.replicate block.length (levelOf (block.map UInt32.toNat).sum block.length)

/-- Cutting loses no count. -/
theorem flatten_cutWith (opening : Nat) (marked : List Marked) :
    (cutWith opening marked).flatten = marked.map Prod.fst := by
  fun_induction cutWith opening marked with
  | case1 => rfl
  | case2 opening count rest ih => simp [ih]
  | case3 opening count rest size ih => simp [ih]

/-- The blocks of a histogram, laid side by side, are the histogram. -/
theorem flatten_blocks (counts : Histogram) : counts.blocks.flatten = counts := by
  rw [blocks, flatten_cutWith, List.map_fst_zip]
  simp

end Histogram

end CanonicalHuffman
