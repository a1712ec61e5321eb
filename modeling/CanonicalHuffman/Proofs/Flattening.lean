import CanonicalHuffman.Proofs.Optimality
import CanonicalHuffman.Proofs.Profiles

/-!
# Raising the floor flattens the tree

The trees of two floors have the same symbols, and each of them is no worse than the other one for
its own weights. When the tree of the higher floor is not as low for this reason alone, it is
cheaper for the higher weights but no cheaper for the lower ones, so it has lifted some symbol whose
count was raised. Such a symbol has the least weight of all, and no leaf lies more than one level
below a leaf that is no heavier: the whole tree ends no deeper than the place the symbol was lifted
from.

Hence a floor fits a limit whenever a lower floor does, and a search that doubles its floor accepts
the least power of two that fits. Weights are exact here; no round of a search comes to weights of
more than 64 bits.
-/

namespace CanonicalHuffman

/-- Some leaf lies as deep as the tree is high. -/
theorem Tree.exists_deepest (tree : Tree) (depth : Nat) :
    ∃ entry ∈ tree.leafDepths depth, entry.2 = depth + tree.height := by
  induction tree generalizing depth with
  | leaf tip => exact ⟨(tip, depth), List.mem_singleton_self _, rfl⟩
  | branch left right ihLeft ihRight =>
    rcases Nat.le_total left.height right.height with higher | higher
    · obtain ⟨entry, member, deep⟩ := ihRight (depth + 1)
      refine ⟨entry, List.mem_append_right _ member, ?_⟩
      rw [deep, height, Nat.max_eq_right higher]
      omega
    · obtain ⟨entry, member, deep⟩ := ihLeft (depth + 1)
      refine ⟨entry, List.mem_append_left _ member, ?_⟩
      rw [deep, height, Nat.max_eq_left higher]
      omega

namespace Histogram

variable {counts : Histogram} {lower higher : Nat}

/-- What lengths cost that are derived from other values. -/
theorem cost_map {α : Type} (counts : Histogram) (floor : Nat) (values : List α) (f : α → Nat) :
    counts.cost floor (values.map f) =
      ((counts.usedEntries values).map fun entry => max entry.1.toNat floor * f entry.2).sum := by
  rw [cost, usedEntries_map, List.map_map]
  rfl

/-- Pairs hold a length before and a length after. When the lengths after are cheaper for the counts
raised to the higher floor, and no cheaper for those raised to the lower floor, some symbol whose
count was raised has become shorter. -/
theorem exists_lifted {pairs : List (Nat × Nat)} (ordered : lower ≤ higher)
    (cheaper : counts.cost higher (pairs.map Prod.snd) < counts.cost higher (pairs.map Prod.fst))
    (least : counts.cost lower (pairs.map Prod.fst) ≤ counts.cost lower (pairs.map Prod.snd)) :
    ∃ entry ∈ counts.usedEntries pairs, entry.1.toNat ≤ higher ∧ entry.2.2 < entry.2.1 := by
  by_contra noneLifted
  have exchange : ∀ entry ∈ counts.usedEntries pairs,
      max entry.1.toNat higher * entry.2.1 + max entry.1.toNat lower * entry.2.2 ≤
        max entry.1.toNat higher * entry.2.2 + max entry.1.toNat lower * entry.2.1 := by
    intro entry member
    by_cases raised : entry.1.toNat ≤ higher
    · -- the heavier factor goes with the greater length
      have longer : entry.2.1 ≤ entry.2.2 :=
        Nat.le_of_not_lt fun less => noneLifted ⟨entry, member, raised, less⟩
      have light : max entry.1.toNat lower ≤ max entry.1.toNat higher := by omega
      have products := mul_add_mul_le_mul_add_mul light longer
      omega
    · have kept : max entry.1.toNat lower = max entry.1.toNat higher := by omega
      rw [kept]
      exact Nat.le_of_eq (Nat.add_comm ..)
  have total := List.sum_le_sum exchange
  rw [List.sum_map_add, List.sum_map_add] at total
  rw [cost_map, cost_map] at cheaper least
  omega

/-- The lengths of a tree are the depths of its leaves. -/
theorem mem_leafDepths_of_lengthsOf {floor symbol length : Nat} {tree : Tree} {count : UInt32}
    (found : counts.tree floor = some tree) (isCount : counts[symbol]? = some count)
    (used : count ≠ 0) (isLength : (lengthsOf tree counts.length)[symbol]? = some length) :
    (⟨max count.toNat floor, symbol⟩, length) ∈ tree.leafDepths 0 := by
  obtain ⟨depth, member⟩ := exists_leafDepth found isCount used
  have agree := getD_lengthsOf (leaves_perm_of_tree found) _ member
  rw [List.getD_eq_getElem?_getD, isLength, Option.getD_some] at agree
  rwa [agree]

/-- A tree ends at most one level below any leaf whose weight is the floor. -/
theorem heightAt_le_succ {tree : Tree} {depth symbol : Nat} (found : counts.tree higher = some tree)
    (member : (⟨higher, symbol⟩, depth) ∈ tree.leafDepths 0) :
    counts.heightAt higher ≤ depth + 1 := by
  obtain ⟨entries, _, same, _, near⟩ := exists_ordered_leafDepths found
  obtain ⟨deepest, isDeepest, deep⟩ := tree.exists_deepest 0
  obtain ⟨_, _, _, weight⟩ := mem_leaves_iff.mp
    ((leaves_perm_of_tree found).mem_iff.mp (Tree.mem_leaves_of_mem_leafDepths isDeepest))
  have light : higher ≤ deepest.1.weight := weight ▸ Nat.le_max_right ..
  have close := near deepest (same.mem_iff.mp isDeepest) _ (same.mem_iff.mp member) light
  rw [heightAt_eq found]
  omega

/-- Raising the floor does not deepen the tree. -/
theorem heightAt_antitone (many : 2 ≤ counts.used) (ordered : lower ≤ higher) :
    counts.heightAt higher ≤ counts.heightAt lower := by
  have filled : counts.used ≠ 0 := by omega
  obtain ⟨steep, atLower⟩ := exists_tree filled lower
  obtain ⟨flat, atHigher⟩ := exists_tree filled higher
  have within : ∀ entry ∈ counts.usedEntries (lengthsOf steep counts.length),
      entry.2 ≤ steep.height := by
    intro entry member
    obtain ⟨used, symbol, isCount, isLength⟩ := mem_usedEntries_iff.mp member
    have leaf := mem_leafDepths_of_lengthsOf atLower isCount used isLength
    exact (Tree.depth_bounds leaf).2.trans_eq (Nat.zero_add _)
  rcases tree_noWorse_allotment atHigher (allotment_lengthsOf many atLower) within with
    cheaper | ⟨_, low⟩
  · have least := tree_cost_le atLower (allotment_lengthsOf many atHigher)
    obtain ⟨pairs, before, after⟩ : ∃ pairs : List (Nat × Nat),
        pairs.map Prod.fst = lengthsOf steep counts.length ∧
          pairs.map Prod.snd = lengthsOf flat counts.length :=
      ⟨_, List.map_fst_zip (by simp), List.map_snd_zip (by simp)⟩
    rw [← cost_lengthsOf atHigher, ← before, ← after] at cheaper
    rw [← cost_lengthsOf atLower, ← before, ← after] at least
    obtain ⟨entry, member, raised, lifted⟩ := exists_lifted ordered cheaper least
    obtain ⟨used, symbol, isCount, isPair⟩ := mem_usedEntries_iff.mp member
    have isDeep : (lengthsOf steep counts.length)[symbol]? = some entry.2.1 := by
      rw [← before, List.getElem?_map, isPair]
      rfl
    have isShallow : (lengthsOf flat counts.length)[symbol]? = some entry.2.2 := by
      rw [← after, List.getElem?_map, isPair]
      rfl
    have leaf := mem_leafDepths_of_lengthsOf atHigher isCount used isShallow
    rw [Nat.max_eq_right raised] at leaf
    have above := Tree.depth_bounds (mem_leafDepths_of_lengthsOf atLower isCount used isDeep)
    have below := heightAt_le_succ atHigher leaf
    rw [heightAt_eq atLower]
    omega
  · rwa [heightAt_eq atLower, heightAt_eq atHigher]

/-- Every round of a floor finds its deepest leaf at a depth, whatever the rounds before it left. -/
def DeepestAt (counts : Histogram) (floor depth : Nat) : Prop :=
  ∀ before : Round, before.Ready counts →
    ∃ after, before.next (counts.sortedLeaves floor) = .ok after ∧ after.deepest = depth

/-- Every round of a floor finds the height of its tree when 64 bits hold the sum of the raised
counts. -/
theorem deepestAt_heightAt {floor : Nat} (filled : counts.used ≠ 0)
    (light : counts.raisedTotal floor < UInt64.size) :
    counts.DeepestAt floor (counts.heightAt floor) := by
  intro before ready
  obtain ⟨after, stepped, _, deepest, _⟩ := ready.next_ok filled light
  exact ⟨after, stepped, deepest⟩

/-- Raising the floor never deepens the tree that a round builds, up to the floors at which a sum of
raised counts takes more than 64 bits and no round builds a tree. So every floor that is no lower
than the accepted one fits the limit, and no power of two below the accepted one does. -/
theorem raised_floor_never_deepens (counts : Histogram) (many : 2 ≤ counts.used) :
    (∀ lower higher, 1 ≤ lower → lower ≤ higher →
      (counts.raisedTotal higher < UInt64.size → ∃ steep flat,
        counts.DeepestAt lower steep ∧ counts.DeepestAt higher flat ∧ flat ≤ steep) ∧
      (UInt64.size ≤ counts.raisedTotal higher → ∀ before : Round, before.Ready counts →
        before.next (counts.sortedLeaves higher) = .error .sumOverflow)) ∧
    ∀ (limit : Nat) (previous : List UInt8), 1 ≤ limit → limit ≤ 15 →
      counts.length = previous.length → counts.used ≤ 2 ^ limit →
      ∃ fitting exponent, counts.fit limit previous = .ok fitting ∧
        fitting.floor = 2 ^ exponent ∧
        (∀ floor, fitting.floor ≤ floor → counts.raisedTotal floor < UInt64.size →
          ∃ depth ≤ limit, counts.DeepestAt floor depth) ∧
        (∀ power < exponent, ∃ depth > limit, counts.DeepestAt (2 ^ power) depth) ∧
        ∀ floor ≤ 2 ^ 32, counts.raisedTotal floor < UInt64.size := by
  have filled : counts.used ≠ 0 := by omega
  constructor
  · intro lower higher _ ordered
    refine ⟨fun light => ?_, fun heavy before ready => ready.next_of_le many heavy⟩
    have lighter := Nat.lt_of_le_of_lt (raisedTotal_mono ordered) light
    exact ⟨_, _, deepestAt_heightAt filled lighter, deepestAt_heightAt filled light,
      heightAt_antitone many ordered⟩
  · intro limit previous legal short sizes fits
    obtain ⟨exponent, within, low, early, fitted⟩ := fit_of_many legal short sizes many fits
    have crowd := used_le_of_fits fits short
    have few := round_lt filled within
    refine ⟨_, exponent, fitted, rfl, fun floor raised light => ?_, fun power below => ?_,
      fun floor => raisedTotal_lt crowd⟩
    · exact ⟨_, Nat.le_trans (heightAt_antitone many raised) low, deepestAt_heightAt filled light⟩
    · exact ⟨_, early power below,
        deepestAt_heightAt filled (raisedTotal_two_pow_lt crowd (by omega))⟩

/-- Six symbols whose tree is two levels too deep. The rounds of the first, of a later and of a
floor past all counts start from the same state; the last of them builds no tree. -/
theorem raised_floor_never_deepens_of_six_symbols :
    ∃ steep flat fitting, (Round.initial 6 6).next (sortedLeaves [1, 1, 2, 3, 5, 8] 1) = .ok steep ∧
      (Round.initial 6 6).next (sortedLeaves [1, 1, 2, 3, 5, 8] 4) = .ok flat ∧
      flat.deepest ≤ steep.deepest ∧
      (Round.initial 6 6).next (sortedLeaves [1, 1, 2, 3, 5, 8] (2 ^ 62)) =
        .error .sumOverflow ∧
      fit [1, 1, 2, 3, 5, 8] 3 [0, 0, 0, 0, 0, 0] = .ok fitting := by
  obtain ⟨flattens, accepts⟩ := raised_floor_never_deepens [1, 1, 2, 3, 5, 8] (by decide)
  obtain ⟨_, _, first, later, lower⟩ := (flattens 1 4 (by decide) (by decide)).1 (by decide)
  have refused := (flattens 1 (2 ^ 62) (by decide) (by decide)).2 (by decide) _
    (Round.ready_initial [1, 1, 2, 3, 5, 8])
  obtain ⟨fitting, _, fitted, _⟩ :=
    accepts 3 [0, 0, 0, 0, 0, 0] (by decide) (by decide) rfl (by decide)
  obtain ⟨steep, steepRound, rfl⟩ := first _ (Round.ready_initial _)
  obtain ⟨flat, flatRound, rfl⟩ := later _ (Round.ready_initial _)
  exact ⟨steep, flat, fitting, steepRound, flatRound, lower, refused, fitted⟩

end Histogram

end CanonicalHuffman
