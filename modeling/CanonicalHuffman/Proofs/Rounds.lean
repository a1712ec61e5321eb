import CanonicalHuffman.Histogram.Depths
import CanonicalHuffman.Proofs.Balance
import CanonicalHuffman.Proofs.Walking
import Mathlib.Algebra.Group.Action.Defs
import Mathlib.Algebra.Order.BigOperators.Group.List
import Mathlib.Algebra.Order.Ring.Nat
import Mathlib.Data.Nat.Find

/-!
# The rounds of a fit

A round builds the tree of a histogram whose counts are raised to a floor, and writes the depths
of its leaves. Pool and depths are handed from round to round; a round depends on neither, for it
overwrites the pool slots it reads and the depth of every used symbol. The floor doubles until the
tree is shallow enough, which it is at the latest when all counts lie within a factor of two.
-/

namespace CanonicalHuffman

namespace Histogram

variable {counts : Histogram} {floor : Nat}

/-- The leaves are the used symbols with their raised counts. -/
theorem mem_leaves_iff {tip : Leaf} : tip ∈ counts.leaves floor ↔
    ∃ count, counts[tip.symbol]? = some count ∧ count ≠ 0 ∧ tip.weight = max count.toNat floor := by
  simp only [leaves, List.mem_filterMap, List.mem_zipIdx_iff_getElem?, Leaf.ofCount?,
    Option.ite_none_left_eq_some, Option.some.injEq]
  constructor
  · rintro ⟨⟨count, symbol⟩, found, used, rfl⟩
    exact ⟨count, found, used, rfl⟩
  · rintro ⟨count, found, used, weight⟩
    exact ⟨(count, tip.symbol), found, used, by rw [← weight]⟩

/-- A used symbol is counted at least once, so floor one leaves its count as it is. -/
theorem max_toNat_one {count : UInt32} (used : count ≠ 0) : max count.toNat 1 = count.toNat :=
  Nat.max_eq_left (Nat.one_le_iff_ne_zero.mpr fun zero => used (UInt32.toNat_inj.mp zero))

/-- The symbol of a leaf lies in the alphabet. -/
theorem symbol_lt_of_mem_leaves {tip : Leaf} (member : tip ∈ counts.leaves floor) :
    tip.symbol < counts.length := by
  obtain ⟨count, found, _⟩ := mem_leaves_iff.mp member
  exact (List.getElem?_eq_some_iff.mp found).1

/-- Leaves stand in the order of their symbols. -/
theorem leaves_pairwise (counts : Histogram) (floor : Nat) :
    (counts.leaves floor).Pairwise fun first later => first.symbol < later.symbol := by
  have ordered : counts.zipIdx.Pairwise fun first later => first.2 < later.2 := by
    rw [← List.pairwise_map (f := Prod.snd), List.zipIdx_map_snd]
    exact List.pairwise_lt_range'
  refine ordered.filterMap _ ?_
  intro first later below tip isTip other isOther
  simp only [Leaf.ofCount?, Option.ite_none_left_eq_some, Option.some.injEq] at isTip isOther
  rw [← isTip.2, ← isOther.2]
  exact below

/-- No two leaves share a symbol. -/
theorem nodup_leaf_symbols : ((counts.leaves floor).map Leaf.symbol).Nodup :=
  List.pairwise_map.mpr ((leaves_pairwise counts floor).imp Nat.ne_of_lt)

/-- Sorted leaves stand in the order of their weights. -/
theorem sortedLeaves_weights (counts : Histogram) (floor : Nat) :
    (counts.sortedLeaves floor).Pairwise fun first later => later.weight ≤ first.weight :=
  (sortedLeaves_pairwise counts floor).imp fun before => by
    rw [Leaf.precedes_iff] at before
    omega

/-- The leaves weigh the counts of the used symbols, raised to the floor. -/
theorem map_weight_leaves (counts : Histogram) (floor : Nat) :
    (counts.leaves floor).map Leaf.weight =
      (counts.filter (· ≠ 0)).map fun count => max count.toNat floor := by
  suffices numbered : ∀ first,
      ((counts.zipIdx first).filterMap (Leaf.ofCount? floor)).map Leaf.weight =
        (counts.filter (· ≠ 0)).map fun count => max count.toNat floor from numbered 0
  induction counts with
  | nil => simp
  | cons count rest ih =>
    intro first
    by_cases zero : count = 0 <;> simp [Leaf.ofCount?, zero, ih]

/-- The sum of the used counts, each raised to the floor. -/
def raisedTotal (counts : Histogram) (floor : Nat) : Nat :=
  ((counts.leaves floor).map Leaf.weight).sum

/-- Sorting does not change what the leaves weigh. -/
theorem sum_weight_sortedLeaves (counts : Histogram) (floor : Nat) :
    ((counts.sortedLeaves floor).map Leaf.weight).sum = counts.raisedTotal floor :=
  ((sortedLeaves_perm counts floor).map Leaf.weight).sum_eq

/-- A higher floor raises counts further. -/
theorem raisedTotal_mono {lower higher : Nat} (ordered : lower ≤ higher) :
    counts.raisedTotal lower ≤ counts.raisedTotal higher := by
  rw [raisedTotal, raisedTotal, map_weight_leaves, map_weight_leaves]
  refine List.sum_le_sum fun count _ => ?_
  omega

/-- Symbols that fit a limit of the format are no more than the longest codes tell apart. -/
theorem used_le_of_fits {limit : Nat} (fits : counts.used ≤ 2 ^ limit)
    (short : limit ≤ maxCodeLength) : counts.used ≤ 2 ^ maxCodeLength :=
  Nat.le_trans fits (Nat.pow_le_pow_right (by decide) short)

/-- With no more symbols than the longest codes tell apart and no more than 32 bits in the floor, 64
bits hold the sum of the raised counts. -/
theorem raisedTotal_lt (crowd : counts.used ≤ 2 ^ maxCodeLength) (low : floor ≤ 2 ^ 32) :
    counts.raisedTotal floor < UInt64.size := by
  have each : ∀ weight ∈ (counts.leaves floor).map Leaf.weight, weight ≤ 2 ^ 32 := by
    intro weight member
    rw [map_weight_leaves] at member
    obtain ⟨count, _, rfl⟩ := List.mem_map.mp member
    exact Nat.max_le.mpr ⟨Nat.le_of_lt count.toNat_lt, low⟩
  have total := List.sum_le_card_nsmul _ _ each
  rw [List.length_map, length_leaves, smul_eq_mul] at total
  calc
    counts.raisedTotal floor ≤ counts.used * 2 ^ 32 := total
    _ ≤ 2 ^ maxCodeLength * 2 ^ 32 := Nat.mul_le_mul_right _ crowd
    _ < UInt64.size := by decide

/-- A used symbol yields a tree. -/
theorem exists_tree (filled : counts.used ≠ 0) (floor : Nat) :
    ∃ tree, counts.tree floor = some tree := by
  refine Option.isSome_iff_exists.mp (Forest.isSome_merge _ ?_)
  rw [ne_eq, ← List.length_eq_zero_iff]
  simpa [forest, length_sortedLeaves] using filled

/-- The tree of a histogram has the leaves of the histogram. -/
theorem leaves_perm_of_tree {tree : Tree} (found : counts.tree floor = some tree) :
    tree.leaves.Perm (counts.leaves floor) := by
  apply (Forest.leaves_perm_of_merge found).trans
  have single :
      (counts.forest floor).flatMap Tree.leaves = (counts.sortedLeaves floor).reverse := by
    rw [forest, List.flatMap_map]
    exact List.flatMap_singleton' _
  rw [single]
  exact (List.reverse_perm _).trans (sortedLeaves_perm counts floor)

/-- The tree of a histogram has one leaf per used symbol. -/
theorem length_leaves_of_tree {tree : Tree} (found : counts.tree floor = some tree) :
    tree.leaves.length = counts.used := by
  rw [(leaves_perm_of_tree found).length_eq, length_leaves]

/-- A used symbol has a leaf with its raised count in the tree of the histogram. -/
theorem exists_leafDepth {tree : Tree} (found : counts.tree floor = some tree) {symbol : Nat}
    {count : UInt32} (isCount : counts[symbol]? = some count) (used : count ≠ 0) :
    ∃ depth, (⟨max count.toNat floor, symbol⟩, depth) ∈ tree.leafDepths 0 := by
  have leaf : (⟨max count.toNat floor, symbol⟩ : Leaf) ∈ tree.leaves :=
    (leaves_perm_of_tree found).mem_iff.mpr (mem_leaves_iff.mpr ⟨count, isCount, used, rfl⟩)
  rw [← Tree.map_fst_leafDepths tree 0] at leaf
  obtain ⟨⟨_, depth⟩, member, rfl⟩ := List.mem_map.mp leaf
  exact ⟨depth, member⟩

/-- The symbols of a histogram's tree are the used ones. -/
theorem exists_leafDepth_iff {tree : Tree} (found : counts.tree floor = some tree) {symbol : Nat} :
    (∃ entry ∈ tree.leafDepths 0, entry.1.symbol = symbol) ↔
      ∃ count, counts[symbol]? = some count ∧ count ≠ 0 := by
  constructor
  · rintro ⟨entry, member, rfl⟩
    have leaf := (leaves_perm_of_tree found).mem_iff.mp (Tree.mem_leaves_of_mem_leafDepths member)
    obtain ⟨count, isCount, used, _⟩ := mem_leaves_iff.mp leaf
    exact ⟨count, isCount, used⟩
  · rintro ⟨count, isCount, used⟩
    obtain ⟨depth, member⟩ := exists_leafDepth found isCount used
    exact ⟨_, member, rfl⟩

/-- The height of the tree of a histogram, zero when no symbol is used. -/
def heightAt (counts : Histogram) (floor : Nat) : Nat :=
  ((counts.tree floor).map Tree.height).getD 0

/-- The height at a floor is the height of the tree there. -/
theorem heightAt_eq {tree : Tree} (found : counts.tree floor = some tree) :
    counts.heightAt floor = tree.height := by
  rw [heightAt, found]
  rfl

/-- The depths that the tree of a histogram gives to the symbols. -/
def depthsAt (counts : Histogram) (floor : Nat) : List UInt8 :=
  (Walk.writeAll (((counts.tree floor).map (Tree.leafDepths 0)).getD [])
    (Array.replicate counts.length 0)).toList

end Histogram

namespace Round

open Histogram

/-- A round whose pool and depths fit the histogram and whose unused symbols have depth zero. -/
structure Ready (counts : Histogram) (round : Round) : Prop where
  /-- The pool has room for every merge. -/
  pool_size : round.pool.size = 2 * counts.used
  /-- There is one depth per symbol. -/
  depths_size : round.depths.size = counts.length
  /-- Unused symbols have depth zero. -/
  unused : ∀ symbol : Nat, counts[symbol]? = some 0 → round.depths[symbol]? = some 0

/-- The state before the first round is ready. -/
theorem ready_initial (counts : Histogram) : Ready counts (initial counts.used counts.length) where
  pool_size := Array.size_replicate
  depths_size := Array.size_replicate
  unused := by
    intro symbol found
    obtain ⟨inside, _⟩ := List.getElem?_eq_some_iff.mp found
    simp [initial, inside]

variable {counts : Histogram} {floor : Nat} {tree : Tree} {previous : Round}

/-- A round builds the tree of its floor and writes the depths of its leaves. -/
theorem Ready.next_eq (ready : Ready counts previous) (filled : counts.used ≠ 0)
    (light : counts.raisedTotal floor < UInt64.size) (found : counts.tree floor = some tree) :
    ∃ pool, previous.next (counts.sortedLeaves floor) =
      .ok ⟨pool, Walk.writeAll (tree.leafDepths 0) previous.depths, tree.height⟩ ∧
      pool.size = previous.pool.size := by
  have sorted := sortedLeaves_weights counts floor
  have count := length_sortedLeaves counts floor
  have room : 2 * ((counts.sortedLeaves floor).length - 1) ≤ previous.pool.size := by
    rw [count, ready.pool_size]
    omega
  obtain ⟨last, root, merged, ran, isMerged, atRoot, holds, size⟩ :=
    Merge.run_ok (List.ne_nil_of_length_pos (by omega)) sorted room
      (by rwa [sum_weight_sortedLeaves])
  obtain rfl : merged = tree := Option.some.inj (isMerged.symm.trans found)
  have perm := leaves_perm_of_tree found
  have nodes : merged.nodeCount ≤ last.pool.size + 1 := by
    have := merged.nodeCount_succ
    rw [perm.length_eq, length_leaves] at this
    rw [size, ready.pool_size]
    omega
  have inside : ∀ tip ∈ merged.leaves, tip.symbol < previous.depths.size := fun tip member => by
    rw [ready.depths_size]
    exact symbol_lt_of_mem_leaves (perm.mem_iff.mp member)
  have walked := Walk.run_ok holds nodes inside
  refine ⟨last.pool, ?_, size⟩
  simp only [next, ran, bind, Except.bind, atRoot, walked]
  rfl

/-- The depths before a round have no effect on those after it. -/
theorem Ready.writeAll_eq (ready : Ready counts previous) (found : counts.tree floor = some tree) :
    Walk.writeAll (tree.leafDepths 0) previous.depths =
      Walk.writeAll (tree.leafDepths 0) (Array.replicate counts.length 0) := by
  apply Walk.writeAll_congr (by simpa using ready.depths_size)
  intro symbol apart
  by_cases inside : symbol < counts.length
  · have zero : counts[symbol]? = some 0 := by
      rw [List.getElem?_eq_getElem inside, Option.some.injEq]
      by_contra used
      obtain ⟨entry, member, same⟩ := (exists_leafDepth_iff found).mpr
        ⟨_, List.getElem?_eq_getElem inside, used⟩
      exact apart entry member same
    rw [ready.unused symbol zero]
    simp [inside]
  · rw [Array.getElem?_eq_none (by rw [ready.depths_size]; omega),
      Array.getElem?_eq_none (by rw [Array.size_replicate]; omega)]

/-- A round finds the height and the depths of its floor, whatever the round before it left. -/
theorem Ready.next_ok (ready : Ready counts previous) (filled : counts.used ≠ 0)
    (light : counts.raisedTotal floor < UInt64.size) :
    ∃ round, previous.next (counts.sortedLeaves floor) = .ok round ∧ Ready counts round ∧
      round.deepest = counts.heightAt floor ∧ round.depths.toList = counts.depthsAt floor := by
  obtain ⟨tree, found⟩ := exists_tree filled floor
  obtain ⟨pool, stepped, size⟩ := ready.next_eq filled light found
  refine ⟨_, stepped, ?_, (heightAt_eq found).symm, ?_⟩
  · constructor
    · exact size.trans ready.pool_size
    · exact (Walk.size_writeAll ..).trans ready.depths_size
    · intro symbol zero
      refine (Walk.getElem?_writeAll_of_forall_ne fun entry member same => ?_).trans
        (ready.unused symbol zero)
      obtain ⟨count, isCount, used⟩ := (exists_leafDepth_iff found).mp ⟨entry, member, same⟩
      rw [zero, Option.some.injEq] at isCount
      exact used isCount.symm
  · simp [depthsAt, found, ready.writeAll_eq found]

/-- A round is refused when 64 bits do not hold the sum of the raised counts. -/
theorem Ready.next_of_le (ready : Ready counts previous) (many : 2 ≤ counts.used)
    (heavy : UInt64.size ≤ counts.raisedTotal floor) :
    previous.next (counts.sortedLeaves floor) = .error .sumOverflow := by
  have count := length_sortedLeaves counts floor
  have refused : Merge.run ((counts.sortedLeaves floor).map Node.ofLeaf).toArray previous.pool =
      .error .sumOverflow := by
    apply Merge.run_of_le
    · rwa [count]
    · exact sortedLeaves_weights counts floor
    · rw [count, ready.pool_size]
      omega
    · rwa [sum_weight_sortedLeaves]
  rw [next, refused]
  rfl

end Round

namespace Histogram

variable {counts : Histogram} {limit : Nat}

/-- The search accepts the first floor whose tree is no higher than the limit. -/
theorem search_ok {floors floor rounds : Nat} {previous : Round}
    (ready : Round.Ready counts previous)
    (filled : counts.used ≠ 0) (inside : rounds < floors)
    (light : ∀ round ≤ rounds, counts.raisedTotal (raise^[round] floor) < UInt64.size)
    (fits : counts.heightAt (raise^[rounds] floor) ≤ limit)
    (early : ∀ round < rounds, limit < counts.heightAt (raise^[round] floor)) :
    counts.search limit floors floor previous =
      .ok ⟨raise^[rounds] floor, counts.depthsAt (raise^[rounds] floor)⟩ := by
  induction floors generalizing floor rounds previous with
  | zero => omega
  | succ floors ih =>
    have lightHere : counts.raisedTotal floor < UInt64.size := light 0 (Nat.zero_le _)
    obtain ⟨round, stepped, next, deepest, depths⟩ := ready.next_ok filled lightHere
    rw [search, stepped]
    simp only [bind, Except.bind, deepest]
    cases rounds with
    | zero =>
      have low : counts.heightAt floor ≤ limit := fits
      rw [if_pos low, depths]
      rfl
    | succ rounds =>
      have high : limit < counts.heightAt floor := early 0 (Nat.succ_pos _)
      rw [if_neg (Nat.not_le.mpr high)]
      exact ih next (Nat.lt_of_succ_lt_succ inside)
        (fun round below => light (round + 1) (Nat.succ_le_succ below)) fits
        fun round below => early (round + 1) (Nat.succ_lt_succ below)

/-- The floors of the first rounds are the powers of two. -/
theorem iterate_raise_one {rounds : Nat} (few : rounds < 64) : raise^[rounds] 1 = 2 ^ rounds := by
  induction rounds with
  | zero => rfl
  | succ rounds ih =>
    rw [Function.iterate_succ_apply', ih (by omega), raise, maxFloor, UInt64.size, Nat.pow_succ]
    have : 2 ^ rounds * 2 ≤ 2 ^ 63 := by
      rw [← Nat.pow_succ]
      exact Nat.pow_le_pow_right (by decide) (by omega)
    omega

/-- A power of two that 32 bits hold is no floor to raise the sum past 64 bits. -/
theorem raisedTotal_two_pow_lt {round : Nat} (crowd : counts.used ≤ 2 ^ maxCodeLength)
    (few : round < 32) : counts.raisedTotal (2 ^ round) < UInt64.size :=
  raisedTotal_lt crowd (Nat.pow_le_pow_right (by decide) (Nat.le_of_lt few))

/-- The sums of the first 32 rounds fit 64 bits. -/
theorem raisedTotal_iterate_raise_lt {rounds : Nat} (crowd : counts.used ≤ 2 ^ maxCodeLength)
    (few : rounds < 32) : counts.raisedTotal (raise^[rounds] 1) < UInt64.size := by
  rw [iterate_raise_one (by omega)]
  exact raisedTotal_two_pow_lt crowd few

/-- A floor that is within a factor of two of every count makes the tree shallow enough. -/
theorem heightAt_le {floor : Nat} (fits : counts.used ≤ 2 ^ limit)
    (near : ∀ count ∈ counts, count.toNat ≤ 2 * floor) : counts.heightAt floor ≤ limit := by
  cases found : counts.tree floor with
  | none => simp [heightAt, found]
  | some tree =>
    rw [heightAt_eq found]
    have weights : ∀ tip ∈ counts.sortedLeaves floor,
        floor ≤ tip.weight ∧ tip.weight ≤ 2 * floor := by
      intro tip member
      obtain ⟨count, isCount, _, weight⟩ :=
        mem_leaves_iff.mp ((sortedLeaves_perm counts floor).mem_iff.mp member)
      have := near count (List.mem_of_getElem? isCount)
      omega
    have sorted : (counts.sortedLeaves floor).reverse.Pairwise
        fun first later => first.weight ≤ later.weight :=
      List.pairwise_reverse.mpr (sortedLeaves_weights counts floor)
    have level : Forest.Level ((counts.sortedLeaves floor).reverse.map Tree.leaf) := by
      intro lightest second rest split tree member
      have bound : ∀ other ∈ (counts.sortedLeaves floor).reverse.map Tree.leaf,
          floor ≤ other.weight ∧ other.weight ≤ 2 * floor := by
        intro other isOther
        obtain ⟨tip, isTip, rfl⟩ := List.mem_map.mp isOther
        exact weights tip (List.mem_reverse.mp isTip)
      have atLightest := bound lightest (by simp [split])
      have atSecond := bound second (by simp [split])
      have atTree := bound tree member
      omega
    refine Forest.height_le_of_leaves sorted level ?_ found
    rw [List.length_reverse, length_sortedLeaves]
    exact fits

/-- Some power of two is the first floor to fit, and it is no larger than the largest count. -/
theorem exists_first_round {rounds : Nat} (fits : counts.used ≤ 2 ^ limit)
    (small : ∀ count ∈ counts, count.toNat < 2 ^ (rounds + 1)) :
    ∃ round ≤ rounds, counts.heightAt (2 ^ round) ≤ limit ∧
      ∀ earlier < round, limit < counts.heightAt (2 ^ earlier) := by
  have last : counts.heightAt (2 ^ rounds) ≤ limit := heightAt_le fits fun count member => by
    have := small count member
    rw [Nat.pow_succ] at this
    omega
  have enough : ∃ round, counts.heightAt (2 ^ round) ≤ limit := ⟨rounds, last⟩
  exact ⟨Nat.find enough, Nat.find_min' enough last, Nat.find_spec enough, fun earlier below =>
    Nat.lt_of_not_le (Nat.find_min enough below)⟩

/-- Two used symbols and more get the depths of the first floor that fits. -/
theorem fitUsed_of_many {round : Nat} (many : 2 ≤ counts.used)
    (crowd : counts.used ≤ 2 ^ maxCodeLength)
    (small : round < 32) (fits : counts.heightAt (2 ^ round) ≤ limit)
    (early : ∀ earlier < round, limit < counts.heightAt (2 ^ earlier)) :
    counts.fitUsed limit = .ok ⟨2 ^ round, counts.depthsAt (2 ^ round)⟩ := by
  rw [← iterate_raise_one (by omega : round < 64)] at fits ⊢
  have searched := search_ok (Round.ready_initial counts) (by omega)
    (show round < floorCount by rw [floorCount]; omega)
    (fun earlier below => raisedTotal_iterate_raise_lt crowd (by omega)) fits
    fun earlier below => by
      rw [iterate_raise_one (by omega)]
      exact early earlier below
  have count := length_leaves counts 1
  rw [fitUsed]
  split
  · next tip single =>
    rw [single, List.length_singleton] at count
    omega
  · exact searched

/-- A lone used symbol gets depth one. -/
theorem fitUsed_of_lone (lone : counts.used = 1) :
    ∃ symbol, symbol < counts.length ∧
      (∀ other : Nat, other < counts.length → (counts[other]? = some 0 ↔ other ≠ symbol)) ∧
      counts.fitUsed limit = .ok ⟨1, (List.replicate counts.length 0).set symbol 1⟩ := by
  have count := length_leaves counts 1
  rw [lone] at count
  obtain ⟨tip, single⟩ := List.length_eq_one_iff.mp count
  have member : tip ∈ counts.leaves 1 := by simp [single]
  have inside := symbol_lt_of_mem_leaves member
  refine ⟨tip.symbol, inside, fun other within => ⟨?_, ?_⟩, ?_⟩
  · rintro unused rfl
    obtain ⟨own, found, used, _⟩ := mem_leaves_iff.mp member
    rw [unused, Option.some.injEq] at found
    exact used found.symm
  · intro apart
    rw [List.getElem?_eq_getElem within, Option.some.injEq]
    by_contra used
    have leaf : (⟨max counts[other].toNat 1, other⟩ : Leaf) ∈ counts.leaves 1 :=
      mem_leaves_iff.mpr ⟨_, List.getElem?_eq_getElem within, used, rfl⟩
    rw [single, List.mem_singleton] at leaf
    exact apart (congrArg Leaf.symbol leaf)
  · rw [fitUsed, single]
    simp [Round.initial, Slots.store, inside, bind, Except.bind, pure, Except.pure]

end Histogram

end CanonicalHuffman
