import CanonicalHuffman.Proofs.PrefixCodes
import CanonicalHuffman.Proofs.Ranking

/-!
# Fitted depths are optimal

The tree of a histogram is no worse than any placement of its leaves with room: it has the least
cost, and the least height among all trees of that cost. So the depths of the accepted floor cost
the least of all allotments when counts are raised to the floor, and the first floor is accepted
whenever some cheapest allotment of the given counts stays within the limit.
-/

namespace CanonicalHuffman

namespace Tree

/-- The leaves of a tree at their depths. -/
def placement (tree : Tree) : Placement :=
  (tree.leafDepths 0).map fun entry => (.leaf entry.1, entry.2)

/-- A tree costs what its leaves cost at their depths. -/
theorem cost_placement (tree : Tree) : tree.placement.cost = tree.cost := by
  rw [Placement.cost, placement, List.map_map, cost]
  congr 1
  apply List.map_congr_left
  intro entry _
  simp [weight]

/-- The leaves of a tree at their depths are no deeper than the tree is high. -/
theorem height_placement_le (tree : Tree) : tree.placement.height ≤ tree.height := by
  apply Placement.height_le
  intro entry member
  obtain ⟨leaf, isLeaf, rfl⟩ := List.mem_map.mp member
  have bound := (depth_bounds isLeaf).2
  simp only [height]
  omega

/-- The trees of a placement of leaves are the leaves. -/
theorem map_fst_placement (tree : Tree) :
    tree.placement.map Prod.fst = tree.leaves.map Tree.leaf := by
  rw [placement, List.map_map, ← map_fst_leafDepths tree 0, List.map_map]
  rfl

/-- The depths of a placement of leaves are the depths of the leaves. -/
theorem map_snd_placement (tree : Tree) :
    tree.placement.map Prod.snd = (tree.leafDepths 0).map Prod.snd := by
  rw [placement, List.map_map]
  rfl

/-- A tree over the given leaves is cheapest when no other tree over them costs less. -/
structure Cheapest (leaves : List Leaf) (tree : Tree) : Prop where
  /-- The tree has the leaves, each of them once. -/
  leaves_perm : tree.leaves.Perm leaves
  /-- No other tree over the leaves costs less. -/
  cost_le : ∀ other : Tree, other.leaves.Perm leaves → tree.cost ≤ other.cost

end Tree

namespace Histogram

variable {counts : Histogram} {floor limit : Nat} {tree : Tree} {lengths : List Nat}
  {previous : List UInt8}

/-- The leaves of a histogram are ranked. -/
theorem ranked_forest (counts : Histogram) (floor : Nat) : (counts.forest floor).Ranked :=
  Forest.ranked_leaves (List.pairwise_reverse.mpr (sortedLeaves_weights counts floor))

/-- The tree of a histogram is no worse than any placement of its leaves with room. -/
theorem tree_noWorse {width : Nat} {placement : Placement} (found : counts.tree floor = some tree)
    (trees : (placement.map Prod.fst).Perm ((counts.leaves floor).map Tree.leaf))
    (room : LeaveRoom width (placement.map Prod.snd)) :
    Placement.NoWorse [(tree, 0)] placement := by
  have sorted : ((counts.leaves floor).map Tree.leaf).Perm (counts.forest floor) :=
    ((List.reverse_perm _).trans (sortedLeaves_perm counts floor)).symm.map _
  exact Forest.merge_noWorse (ranked_forest counts floor) found (trees.trans sorted) room

/-- The tree of a histogram is cheaper than any other tree over its leaves, or costs the same and is
no higher. -/
theorem tree_noWorse_tree (found : counts.tree floor = some tree) {other : Tree}
    (same : other.leaves.Perm (counts.leaves floor)) :
    tree.cost < other.cost ∨ (tree.cost = other.cost ∧ tree.height ≤ other.height) := by
  have trees : (other.placement.map Prod.fst).Perm ((counts.leaves floor).map Tree.leaf) := by
    rw [other.map_fst_placement]
    exact same.map _
  have room : LeaveRoom other.height (other.placement.map Prod.snd) := by
    rw [other.map_snd_placement]
    exact other.leaveRoom
  have better := tree_noWorse found trees room
  have lower := other.height_placement_le
  simp only [Placement.NoWorse, Placement.cost_cons, Placement.height_cons, Placement.cost_nil,
    Placement.height_nil, other.cost_placement] at better
  omega

/-- The tree of a histogram is cheaper than any allotment, or costs the same and is no higher. -/
theorem tree_noWorse_allotment (found : counts.tree floor = some tree)
    (allotment : Allotment counts lengths)
    (short : ∀ entry ∈ counts.usedEntries lengths, entry.2 ≤ limit) :
    tree.cost < counts.cost floor lengths ∨
      (tree.cost = counts.cost floor lengths ∧ tree.height ≤ limit) := by
  obtain ⟨width, room⟩ := allotment.exists_leaveRoom floor
  have better := tree_noWorse found (.of_eq (map_fst_hang counts floor lengths)) room
  have lower : (counts.hang floor lengths).height ≤ limit :=
    height_hang_le allotment.length_eq short
  simp only [Placement.NoWorse, Placement.cost_cons, Placement.height_cons, Placement.cost_nil,
    Placement.height_nil, cost_hang allotment.length_eq] at better
  omega

/-- No allotment costs less than the tree of a histogram. -/
theorem tree_cost_le (found : counts.tree floor = some tree)
    (allotment : Allotment counts lengths) : tree.cost ≤ counts.cost floor lengths := by
  have bound : ∀ entry ∈ counts.usedEntries lengths,
      entry.2 ≤ ((counts.usedEntries lengths).map Prod.snd).sum := fun entry member =>
    List.le_sum_of_mem (List.mem_map_of_mem member)
  have better := tree_noWorse_allotment found allotment bound
  omega

/-- The tree of a histogram is cheapest, and no higher than any cheapest tree. -/
theorem cheapest_tree (found : counts.tree floor = some tree) :
    tree.Cheapest (counts.leaves floor) ∧
      ∀ other : Tree, other.Cheapest (counts.leaves floor) → tree.height ≤ other.height := by
  have same := leaves_perm_of_tree found
  refine ⟨⟨same, fun other otherSame => ?_⟩, fun other cheapest => ?_⟩
  · have better := tree_noWorse_tree found otherSame
    omega
  · have better := tree_noWorse_tree found cheapest.leaves_perm
    have least := cheapest.cost_le tree same
    omega

/-- Used symbols are counted at least once, so floor one raises no count. -/
theorem cost_one (counts : Histogram) (lengths : List Nat) :
    counts.cost 1 lengths = counts.cost 0 lengths := by
  unfold cost
  congr 1
  apply List.map_congr_left
  intro entry member
  obtain ⟨used, _⟩ := mem_usedEntries_iff.mp member
  rw [max_toNat_one used, Nat.max_zero]

/-- The tree of the given counts is within a limit when a cheapest allotment is. -/
theorem heightAt_one_le (many : 2 ≤ counts.used) (allotment : Allotment counts lengths)
    (cheapest : ∀ other, Allotment counts other → counts.cost 0 lengths ≤ counts.cost 0 other)
    (within : ∀ entry ∈ counts.usedEntries lengths, entry.2 ≤ limit) :
    counts.heightAt 1 ≤ limit := by
  obtain ⟨tree, found⟩ := exists_tree (by omega : counts.used ≠ 0) 1
  -- the depths of the tree are an allotment, so the tree cannot be cheaper than the lengths
  have least := cheapest _ (allotment_lengthsOf many found)
  have better := tree_noWorse_allotment found allotment within
  rw [← cost_one, ← cost_one, cost_lengthsOf found] at least
  rw [heightAt_eq found]
  omega

/-- The depths that a fit finds are those of a cheapest tree for the counts raised to its floor, so
no allotment costs less for these counts. When the first floor is accepted, no prefix code makes the
given counts shorter. -/
theorem fit_minimises_cost (counts : Histogram) (limit : Nat) (previous : List UInt8)
    (legal : 1 ≤ limit) (short : limit ≤ 15) (sizes : counts.length = previous.length)
    (many : 2 ≤ counts.used) (fits : counts.used ≤ 2 ^ limit) :
    ∃ fitting, counts.fit limit previous = .ok fitting ∧
      Allotment counts (fitting.depths.map UInt8.toNat) ∧
      (∀ lengths, Allotment counts lengths →
        counts.cost fitting.floor (fitting.depths.map UInt8.toNat) ≤
          counts.cost fitting.floor lengths) ∧
      (fitting.floor = 1 → ∀ words, PrefixCode counts words →
        counts.cost 0 (fitting.depths.map UInt8.toNat) ≤
          counts.cost 0 (words.map List.length)) := by
  obtain ⟨round, _, low, _, fitted⟩ := fit_of_many legal short sizes many fits
  obtain ⟨tree, found⟩ := exists_tree (by omega : counts.used ≠ 0) (2 ^ round)
  have same := leaves_perm_of_tree found
  have agree := getD_depthsAt many found low (by omega)
  have whole : ((counts.depthsAt (2 ^ round)).map UInt8.toNat).length = counts.length := by simp
  have own : counts.cost (2 ^ round) ((counts.depthsAt (2 ^ round)).map UInt8.toNat) = tree.cost :=
    cost_eq_of_agree same whole agree
  have least : ∀ lengths, Allotment counts lengths →
      counts.cost (2 ^ round) ((counts.depthsAt (2 ^ round)).map UInt8.toNat) ≤
        counts.cost (2 ^ round) lengths := by
    intro lengths allotment
    rw [own]
    exact tree_cost_le found allotment
  refine ⟨_, fitted, allotment_of_agree same many whole agree, least, ?_⟩
  intro first words code
  have bound := least _ (code.allotment many)
  simp only at first ⊢
  rw [first] at bound ⊢
  rwa [cost_one, cost_one] at bound

/-- Depths for three symbols cost no more than any prefix code for the raised counts. -/
theorem fit_minimises_cost_of_three_symbols :
    ∃ fitting, fit [4, 0, 1, 2] 2 [0, 0, 0, 0] = .ok fitting ∧
      cost [4, 0, 1, 2] fitting.floor (fitting.depths.map UInt8.toNat) ≤
        cost [4, 0, 1, 2] fitting.floor [2, 0, 1, 2] := by
  obtain ⟨fitting, fitted, _, least, _⟩ :=
    fit_minimises_cost [4, 0, 1, 2] 2 [0, 0, 0, 0] (by decide)
    (by decide) rfl (by decide) (by decide)
  refine ⟨fitting, fitted, least [2, 0, 1, 2] ?_⟩
  have entries : usedEntries [4, 0, 1, 2] [2, 0, 1, 2] = [(4, 2), (1, 1), (2, 2)] := rfl
  constructor
  · rfl
  · decide
  · rw [entries]
    norm_num

/-- The first floor is accepted when a cheapest allotment for the given counts stays within the
limit. From any pool, every round merges the leaves into a cheapest tree, and no cheapest tree is
lower. All that can keep a round from it is a sum of raised counts that takes more than 64 bits,
which none of the floors of a search leads to. -/
theorem fit_accepts_first_floor (counts : Histogram) (limit : Nat) (previous : List UInt8)
    (legal : 1 ≤ limit) (short : limit ≤ 15) (sizes : counts.length = previous.length)
    (many : 2 ≤ counts.used) :
    (∀ lengths, Allotment counts lengths →
      (∀ other, Allotment counts other → counts.cost 0 lengths ≤ counts.cost 0 other) →
      (∀ entry ∈ counts.usedEntries lengths, entry.2 ≤ limit) →
      ∃ fitting, counts.fit limit previous = .ok fitting ∧ fitting.floor = 1) ∧
    (∀ (floor : Nat) (pool : Slots Node), 2 * (counts.used - 1) ≤ pool.size →
      (counts.raisedTotal floor < UInt64.size → ∃ merge root tree,
        Merge.run ((counts.sortedLeaves floor).map Node.ofLeaf).toArray pool = .ok merge ∧
        Slots.fetch merge.frontier 0 = .ok root ∧ root.Holds merge.pool tree ∧
        tree.Cheapest (counts.leaves floor) ∧
        ∀ other : Tree, other.Cheapest (counts.leaves floor) → tree.height ≤ other.height) ∧
      (UInt64.size ≤ counts.raisedTotal floor →
        Merge.run ((counts.sortedLeaves floor).map Node.ofLeaf).toArray pool =
          .error .sumOverflow)) ∧
    (counts.used ≤ 2 ^ limit → ∀ floor ≤ 2 ^ 32, counts.raisedTotal floor < UInt64.size) := by
  refine ⟨?_, fun floor pool room => ?_, fun fits floor low =>
    raisedTotal_lt (used_le_of_fits fits short) low⟩
  · intro lengths allotment cheapest within
    obtain ⟨round, _, _, early, fitted⟩ :=
      fit_of_many legal short sizes many (allotment.used_le within)
    suffices first : round = 0 by
      subst first
      exact ⟨_, fitted, rfl⟩
    by_contra later
    have rejected := early 0 (Nat.pos_of_ne_zero later)
    have low := heightAt_one_le many allotment cheapest within
    rw [Nat.pow_zero] at rejected
    omega
  · have length := length_sortedLeaves counts floor
    have sorted := sortedLeaves_weights counts floor
    rw [← length] at room
    rw [← sum_weight_sortedLeaves]
    refine ⟨fun light => ?_, Merge.run_of_le (by omega) sorted room⟩
    have filled : counts.sortedLeaves floor ≠ [] := List.ne_nil_of_length_pos (by omega)
    obtain ⟨merge, root, tree, ran, merged, atRoot, holds, _⟩ :=
      Merge.run_ok filled sorted room light
    exact ⟨merge, root, tree, ran, atRoot, holds, cheapest_tree merged⟩

/-- Four symbols have cheapest lengths of two bits each, although other cheapest ones are longer.
The first round merges their leaves into a cheapest tree. -/
theorem fit_accepts_first_floor_of_four_symbols :
    (∃ fitting, fit [1, 1, 2, 2] 2 [0, 0, 0, 0] = .ok fitting ∧ fitting.floor = 1) ∧
      ∃ merge root tree, Merge.run ((sortedLeaves [1, 1, 2, 2] 1).map Node.ofLeaf).toArray
          (Round.initial 4 4).pool = .ok merge ∧
        Slots.fetch merge.frontier 0 = .ok root ∧ root.Holds merge.pool tree ∧
        tree.Cheapest (leaves [1, 1, 2, 2] 1) := by
  have found : tree [1, 1, 2, 2] 1 = some (.branch (.branch (.leaf ⟨2, 3⟩) (.leaf ⟨2, 2⟩))
      (.branch (.leaf ⟨1, 1⟩) (.leaf ⟨1, 0⟩))) := by cbv
  have entries : usedEntries [1, 1, 2, 2] [2, 2, 2, 2] = [(1, 2), (1, 2), (2, 2), (2, 2)] := rfl
  obtain ⟨accepts, merges, light⟩ := fit_accepts_first_floor [1, 1, 2, 2] 2 [0, 0, 0, 0]
    (by decide) (by decide) rfl (by decide)
  constructor
  · refine accepts [2, 2, 2, 2] ⟨rfl, by decide, ?_⟩ ?_ (by decide)
    · rw [entries]
      norm_num
    · intro other allotment
      have least := tree_cost_le found allotment
      rw [cost_one] at least
      exact least
  · obtain ⟨merge, root, tree, ran, atRoot, holds, cheapest, _⟩ :=
      (merges 1 (Round.initial 4 4).pool (by decide)).1 (light (by decide) 1 (by decide))
    exact ⟨merge, root, tree, ran, atRoot, holds, cheapest⟩

end Histogram

end CanonicalHuffman
