import CanonicalHuffman.Proofs.Searching

/-!
# Merges that run alike

Merging compares weights and never looks at symbols. When the leaves of two histograms correspond to
one another, and each leaf weighs the same multiple of the leaf that it corresponds to, both merges
take the same trees at every step. The merged trees are alike: they have one shape, and
corresponding leaves stand in corresponding places. So corresponding symbols get equal depths, and
the trees are of equal height.
-/

namespace CanonicalHuffman

/-- Trees of one shape whose leaves correspond from left to right. -/
inductive Tree.Alike (Corresponds : Leaf → Leaf → Prop) : Tree → Tree → Prop where
  /-- Corresponding leaves are alike. -/
  | leaf {tip other : Leaf} (corresponds : Corresponds tip other) :
      Alike Corresponds (.leaf tip) (.leaf other)
  /-- Branches are alike when their parts are. -/
  | branch {left right otherLeft otherRight : Tree} (alikeLeft : Alike Corresponds left otherLeft)
      (alikeRight : Alike Corresponds right otherRight) :
      Alike Corresponds (.branch left right) (.branch otherLeft otherRight)

/-- Each leaf weighs `factor` times as much as the leaf that it corresponds to. -/
def Scales (factor : Nat) (Corresponds : Leaf → Leaf → Prop) : Prop :=
  ∀ tip other, Corresponds tip other → other.weight = factor * tip.weight

variable {Corresponds : Leaf → Leaf → Prop} {factor : Nat}

namespace Tree.Alike

variable {tree other : Tree}

/-- A tree weighs the same multiple of an alike tree as a leaf of a corresponding one. -/
theorem weight_eq (scales : Scales factor Corresponds) (alike : Alike Corresponds tree other) :
    other.weight = factor * tree.weight := by
  induction alike with
  | leaf corresponds => exact scales _ _ corresponds
  | branch _ _ ihLeft ihRight => rw [weight, weight, ihLeft, ihRight, Nat.mul_add]

/-- Alike trees are of equal height. -/
theorem height_eq (alike : Alike Corresponds tree other) : tree.height = other.height := by
  induction alike with
  | leaf _ => rfl
  | branch _ _ ihLeft ihRight => rw [height, height, ihLeft, ihRight]

/-- Corresponding leaves of alike trees lie at equal depths. -/
theorem leafDepths (alike : Alike Corresponds tree other) (depth : Nat) :
    List.Forall₂ (fun entry otherEntry => Corresponds entry.1 otherEntry.1 ∧ entry.2 = otherEntry.2)
      (tree.leafDepths depth) (other.leafDepths depth) := by
  induction alike generalizing depth with
  | leaf corresponds => exact .cons ⟨corresponds, rfl⟩ .nil
  | branch _ _ ihLeft ihRight => exact List.rel_append (ihLeft _) (ihRight _)

end Tree.Alike

namespace Forest

variable {forest other : Forest}

/-- Alike trees are put in the same place of alike forests. -/
theorem alike_insert (scales : Scales factor Corresponds) (positive : 0 < factor)
    {tree otherTree : Tree}
    (alike : tree.Alike Corresponds otherTree)
    (forests : List.Forall₂ (Tree.Alike Corresponds) forest other) :
    List.Forall₂ (Tree.Alike Corresponds) (forest.insert tree) (other.insert otherTree) := by
  induction forests with
  | nil => exact .cons alike .nil
  | @cons first otherFirst rest otherRest firstAlike restAlike ih =>
    have same : otherFirst.weight ≤ otherTree.weight ↔ first.weight ≤ tree.weight := by
      rw [alike.weight_eq scales, firstAlike.weight_eq scales, Nat.mul_le_mul_left_iff positive]
    rw [insert, insert]
    by_cases light : first.weight ≤ tree.weight
    · rw [if_pos light, if_pos (same.mpr light)]
      exact .cons firstAlike ih
    · rw [if_neg light, if_neg (mt same.mp light)]
      exact .cons alike (.cons firstAlike restAlike)

/-- Alike forests merge into alike trees. -/
theorem exists_alike_merge (scales : Scales factor Corresponds) (positive : 0 < factor)
    {tree : Tree}
    (forests : List.Forall₂ (Tree.Alike Corresponds) forest other)
    (merged : forest.merge = some tree) :
    ∃ otherTree, other.merge = some otherTree ∧ tree.Alike Corresponds otherTree := by
  fun_induction merge forest generalizing other with
  | case1 => contradiction
  | case2 only =>
    obtain ⟨otherOnly, _, alike, nothing, rfl⟩ := List.forall₂_cons_left_iff.mp forests
    obtain rfl := List.forall₂_nil_left_iff.mp nothing
    obtain rfl := Option.some.inj merged
    exact ⟨otherOnly, by rw [merge], alike⟩
  | case3 lightest second rest ih =>
    obtain ⟨otherLightest, _, lightestAlike, later, rfl⟩ := List.forall₂_cons_left_iff.mp forests
    obtain ⟨otherSecond, otherRest, secondAlike, restAlike, rfl⟩ :=
      List.forall₂_cons_left_iff.mp later
    rw [merge]
    exact ih (alike_insert scales positive (.branch secondAlike lightestAlike) restAlike) merged

end Forest

namespace Histogram

variable {counts other : Histogram} {floor otherFloor : Nat}

/-- Sorting keeps leaves in correspondence when it finds the same order on both sides. -/
theorem forall₂_sortedLeaves
    (leaves : List.Forall₂ Corresponds (counts.leaves floor) (other.leaves otherFloor))
    (agree : ∀ first otherFirst second otherSecond, Corresponds first otherFirst →
      Corresponds second otherSecond → first.precedes second = otherFirst.precedes otherSecond) :
    List.Forall₂ Corresponds (counts.sortedLeaves floor) (other.sortedLeaves otherFloor) := by
  obtain ⟨size, corresponds⟩ := List.forall₂_iff_zip.mp leaves
  -- sort the pairs of corresponding leaves, which sorts either side
  let pairs := (counts.leaves floor).zip (other.leaves otherFloor)
  let sorted := pairs.mergeSort fun first second => first.1.precedes second.1
  have own : sorted.map Prod.fst = counts.sortedLeaves floor := by
    rw [List.map_mergeSort (s := Leaf.precedes) fun _ _ _ _ => rfl,
      List.map_fst_zip (Nat.le_of_eq size)]
    rfl
  have others : sorted.map Prod.snd = other.sortedLeaves otherFloor := by
    rw [List.map_mergeSort (s := Leaf.precedes) fun first isFirst second isSecond =>
      agree _ _ _ _ (corresponds isFirst) (corresponds isSecond),
      List.map_snd_zip (Nat.le_of_eq size.symm)]
    rfl
  rw [← own, ← others, List.forall₂_map_left_iff, List.forall₂_map_right_iff, List.forall₂_same]
  exact fun pair member => corresponds ((List.mergeSort_perm _ _).mem_iff.mp member)

/-- Histograms whose sorted leaves correspond have alike trees. -/
theorem exists_alike_tree (scales : Scales factor Corresponds) (positive : 0 < factor)
    (leaves : List.Forall₂ Corresponds (counts.sortedLeaves floor) (other.sortedLeaves otherFloor))
    {tree : Tree} (found : counts.tree floor = some tree) :
    ∃ otherTree, other.tree otherFloor = some otherTree ∧ tree.Alike Corresponds otherTree := by
  refine Forest.exists_alike_merge scales positive ?_ found
  rw [forest, forest, List.forall₂_map_left_iff, List.forall₂_map_right_iff,
    List.forall₂_reverse_iff]
  exact leaves.imp fun _ _ => .leaf

/-- Histograms whose sorted leaves correspond have trees of equal height. -/
theorem heightAt_eq_of_forall₂ (scales : Scales factor Corresponds) (positive : 0 < factor)
    (leaves : List.Forall₂ Corresponds (counts.sortedLeaves floor) (other.sortedLeaves otherFloor))
    (filled : counts.used ≠ 0) : counts.heightAt floor = other.heightAt otherFloor := by
  obtain ⟨tree, found⟩ := exists_tree filled floor
  obtain ⟨otherTree, otherFound, alike⟩ := exists_alike_tree scales positive leaves found
  rw [heightAt_eq found, heightAt_eq otherFound, alike.height_eq]

/-- Corresponding symbols get equal depths, when every leaf corresponds to one symbol only. -/
theorem getElem?_depthsAt_eq (scales : Scales factor Corresponds) (positive : 0 < factor)
    (single : ∀ tip first second, Corresponds tip first → Corresponds tip second →
      first.symbol = second.symbol)
    (leaves : List.Forall₂ Corresponds (counts.sortedLeaves floor) (other.sortedLeaves otherFloor))
    {tip otherTip : Leaf} (member : tip ∈ counts.leaves floor)
    (corresponds : Corresponds tip otherTip) :
    (counts.depthsAt floor)[tip.symbol]? = (other.depthsAt otherFloor)[otherTip.symbol]? := by
  have filled : counts.used ≠ 0 := by
    rw [← length_leaves counts floor]
    exact (List.length_pos_of_mem member).ne'
  obtain ⟨tree, found⟩ := exists_tree filled floor
  obtain ⟨otherTree, otherFound, alike⟩ := exists_alike_tree scales positive leaves found
  have isLeaf : tip ∈ tree.leaves := (leaves_perm_of_tree found).mem_iff.mpr member
  rw [← Tree.map_fst_leafDepths tree 0] at isLeaf
  obtain ⟨entry, isEntry, rfl⟩ := List.mem_map.mp isLeaf
  obtain ⟨otherEntry, isOther, counterpart, depth⟩ :=
    exists_of_mem_left (alike.leafDepths 0) isEntry
  rw [single _ _ _ corresponds counterpart, getElem?_depthsAt found isEntry,
    getElem?_depthsAt otherFound isOther, depth]

end Histogram

end CanonicalHuffman
