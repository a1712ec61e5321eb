import CanonicalHuffman.Proofs.Placement

/-!
# Merging ranked forests

A forest is ranked when its trees stand in the order of their weights and, among equal weights, of
their heights. A joined tree is put behind all trees of its weight, and none of these is higher: a
tree that was joined before has lighter parts, or parts that weigh the same and are no higher. So
merging keeps a forest ranked, although it never looks at heights. Each merge joins the two trees
that are ranked first, and the merged tree is no worse than any placement of the forest: no
placement is cheaper, and none that costs the same is lower.
-/

namespace CanonicalHuffman

namespace Forest

open Placement

/-- Trees stand in the order of their ranks, and the parts of every branch are ranked before all
trees. -/
structure Ranked (forest : Forest) : Prop where
  /-- Trees stand in the order of their ranks. -/
  ordered : forest.Pairwise Tree.RankedBefore
  /-- The parts of a branch were taken before every tree that is left. -/
  parts : ∀ left right, .branch left right ∈ forest → ∀ tree ∈ forest,
    left.RankedBefore tree ∧ right.RankedBefore tree

/-- Leaves in the order of their weights are ranked. -/
theorem ranked_leaves {leaves : List Leaf}
    (sorted : leaves.Pairwise fun first later => first.weight ≤ later.weight) :
    Ranked (leaves.map Tree.leaf) where
  ordered := List.pairwise_map.mpr (sorted.imp fun {first later} below => by
    rcases Nat.lt_or_eq_of_le below with lighter | same
    · exact .inl lighter
    · exact .inr ⟨same, Nat.le_refl _⟩)
  parts := by
    intro left right member
    obtain ⟨tip, _, leaf⟩ := List.mem_map.mp member
    contradiction

/-- A tree that comes after all trees of its weight is inserted in the order of ranks. -/
theorem pairwise_insert {tree : Tree} {forest : Forest}
    (ordered : forest.Pairwise Tree.RankedBefore)
    (last : ∀ other ∈ forest, other.weight ≤ tree.weight → other.RankedBefore tree) :
    (forest.insert tree).Pairwise Tree.RankedBefore := by
  induction forest with
  | nil => exact List.pairwise_singleton _ _
  | cons first rest ih =>
    obtain ⟨before, later⟩ := List.pairwise_cons.mp ordered
    rw [List.forall_mem_cons] at last
    rw [insert]
    split
    · next light =>
      apply List.pairwise_cons.mpr
      refine ⟨fun other member => ?_, ih later last.2⟩
      rcases List.mem_cons.mp ((insert_perm tree rest).mem_iff.mp member) with rfl | old
      · exact last.1 light
      · exact before other old
    · next heavy =>
      apply List.pairwise_cons.mpr
      refine ⟨fun other member => ?_, ordered⟩
      have ahead : tree.RankedBefore first := .inl (Nat.lt_of_not_le heavy)
      rcases List.mem_cons.mp member with rfl | old
      · exact ahead
      · exact ahead.trans (before other old)

/-- No waiting tree of a ranked forest is higher than the joined tree when it weighs the same: its
parts would have been taken before, and weigh no more than the two trees that are joined. -/
theorem Ranked.rankedBefore_joined {lightest second other : Tree} {rest : Forest}
    (ranked : Ranked (lightest :: second :: rest)) (waits : other ∈ rest)
    (light : other.weight ≤ (Tree.branch second lightest).weight) :
    other.RankedBefore (.branch second lightest) := by
  obtain ⟨ordered, parts⟩ := ranked
  cases other with
  | leaf tip =>
    rcases Nat.lt_or_eq_of_le light with lighter | same
    · exact .inl lighter
    · exact .inr ⟨same, Nat.zero_le _⟩
  | branch left right =>
    have taken := parts left right (List.mem_cons_of_mem _ (List.mem_cons_of_mem _ waits))
    have pair := (List.pairwise_cons.mp ordered).1 second List.mem_cons_self
    have beforeLightest := taken lightest List.mem_cons_self
    have beforeSecond := taken second (List.mem_cons_of_mem _ List.mem_cons_self)
    simp only [Tree.RankedBefore, Tree.weight, Tree.height] at *
    omega

/-- Merging once keeps a forest ranked. -/
theorem Ranked.insert_joined {lightest second : Tree} {rest : Forest}
    (ranked : Ranked (lightest :: second :: rest)) :
    Ranked (rest.insert (.branch second lightest)) := by
  have joined : ∀ other ∈ rest, other.weight ≤ (Tree.branch second lightest).weight →
      other.RankedBefore (.branch second lightest) := fun _ => ranked.rankedBefore_joined
  obtain ⟨ordered, parts⟩ := ranked
  simp only [List.pairwise_cons, List.mem_cons] at ordered
  have mem_iff := fun tree => (insert_perm (.branch second lightest) rest).mem_iff (a := tree)
  have lightestBefore : lightest.RankedBefore (.branch second lightest) := by
    simp only [Tree.RankedBefore, Tree.weight, Tree.height]
    omega
  have secondBefore : second.RankedBefore (.branch second lightest) := by
    simp only [Tree.RankedBefore, Tree.weight, Tree.height]
    omega
  constructor
  · exact pairwise_insert ordered.2.2 joined
  · intro left right member tree other
    simp only [mem_iff, List.mem_cons, Tree.branch.injEq] at member other
    rcases member with ⟨rfl, rfl⟩ | old
    · rcases other with rfl | waits
      · exact ⟨secondBefore, lightestBefore⟩
      · exact ⟨ordered.2.1 tree waits, ordered.1 tree (.inr waits)⟩
    · have taken := parts left right (List.mem_cons_of_mem _ (List.mem_cons_of_mem _ old))
      rcases other with rfl | waits
      · have before := taken lightest List.mem_cons_self
        exact ⟨before.1.trans lightestBefore, before.2.trans lightestBefore⟩
      · exact taken tree (List.mem_cons_of_mem _ (List.mem_cons_of_mem _ waits))

/-- The merged tree of a ranked forest is no worse than any placement of the forest with room. -/
theorem merge_noWorse {forest : Forest} {tree : Tree} {placement : Placement} {width : Nat}
    (ranked : forest.Ranked) (merged : forest.merge = some tree)
    (trees : (placement.map Prod.fst).Perm forest)
    (room : LeaveRoom width (placement.map Prod.snd)) : NoWorse [(tree, 0)] placement := by
  fun_induction merge forest generalizing placement with
  | case1 => contradiction
  | case2 only =>
    obtain rfl := Option.some.inj merged
    obtain ⟨⟨hung, depth⟩, rfl⟩ := List.length_eq_one_iff.mp
      ((List.length_map _).symm.trans trees.length_eq)
    obtain rfl : hung = only := by simpa using trees
    unfold NoWorse
    simp only [cost_cons, height_cons, Nat.mul_zero]
    omega
  | case3 lightest second rest ih =>
    have ordered := ranked.ordered
    simp only [List.pairwise_cons] at ordered
    obtain ⟨joined, joinedTrees, joinedRoom, better⟩ :=
      exists_joined trees room ordered.1 ordered.2.1
    have inserted := joinedTrees.trans (insert_perm (.branch second lightest) rest).symm
    exact (ih ranked.insert_joined merged inserted joinedRoom).trans better

end Forest

end CanonicalHuffman
