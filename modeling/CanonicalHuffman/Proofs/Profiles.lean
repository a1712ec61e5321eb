import CanonicalHuffman.Proofs.Placement
import CanonicalHuffman.Proofs.Rounds

/-!
# Depths along a forest

A profile lists the weights of a forest, lightest first, each with the depth at which its tree hangs
in the merged tree. Trees are taken from the front and joined trees are put behind all trees of
their weight, so trees are taken in the order in which they are joined. Hence the depths of a
profile never grow from one tree to the next, and a tree hangs at most one level below any tree that
is no heavier.
-/

namespace CanonicalHuffman

/-- The weights of a forest, lightest first, with the depths of its trees in the merged tree. -/
inductive Profile : List (Nat × Nat) → Prop where
  /-- A tree by itself is the merged tree. -/
  | root (weight : Nat) : Profile [(weight, 0)]
  /-- The two lightest trees hang one level below the tree that they are joined to. -/
  | join {lightest second depth : Nat} {light heavy : List (Nat × Nat)}
      (lighter : ∀ entry ∈ light, entry.1 ≤ lightest + second)
      (heavier : ∀ entry ∈ heavy, lightest + second < entry.1)
      (joined : Profile (light ++ (lightest + second, depth) :: heavy)) :
      Profile ((lightest, depth + 1) :: (second, depth + 1) :: (light ++ heavy))

namespace Profile

variable {entries : List (Nat × Nat)}

/-- Weights that do not fall along a list. -/
def Rising (entries : List (Nat × Nat)) : Prop :=
  entries.Pairwise fun entry later => entry.1 ≤ later.1

/-- What merging leaves of the order of the weights in the depths. -/
structure Falling (entries : List (Nat × Nat)) : Prop where
  /-- Depths do not grow along the list. -/
  ordered : entries.Pairwise fun entry later => later.2 ≤ entry.2
  /-- The first tree hangs at most one level below a tree that does not outweigh the tree that the
  first two are joined to. -/
  first_le : ∀ first second rest, entries = first :: second :: rest → ∀ entry ∈ entries,
    entry.1 ≤ first.1 + second.1 → first.2 ≤ entry.2 + 1

/-- No weight is less than the two lightest ones. -/
theorem Rising.forall_le {first second : Nat × Nat} {rest : List (Nat × Nat)}
    (rising : Rising (first :: second :: rest)) :
    (∀ entry ∈ rest, first.1 ≤ entry.1) ∧ ∀ entry ∈ rest, second.1 ≤ entry.1 := by
  obtain ⟨aboveFirst, later⟩ := List.pairwise_cons.mp rising
  exact ⟨(List.forall_mem_cons.mp aboveFirst).2, (List.pairwise_cons.mp later).1⟩

/-- Putting the joined tree between lighter and heavier ones keeps weights rising. -/
theorem Rising.join {lightest second depth further : Nat} {light heavy : List (Nat × Nat)}
    (rising : Rising ((lightest, further) :: (second, further) :: (light ++ heavy)))
    (lighter : ∀ entry ∈ light, entry.1 ≤ lightest + second)
    (heavier : ∀ entry ∈ heavy, lightest + second < entry.1) :
    Rising (light ++ (lightest + second, depth) :: heavy) := by
  have others : Rising (light ++ heavy) := List.Pairwise.of_cons (List.Pairwise.of_cons rising)
  obtain ⟨risingLight, risingHeavy, apart⟩ := List.pairwise_append.mp others
  refine List.pairwise_append.mpr ⟨risingLight, List.pairwise_cons.mpr
    ⟨fun entry member => Nat.le_of_lt (heavier entry member), risingHeavy⟩, ?_⟩
  intro entry member later isLater
  rcases List.mem_cons.mp isLater with rfl | old
  · exact lighter entry member
  · exact apart entry member later old

/-- No tree hangs more than one level below the joined one: the first tree is one of the next two to
be taken, and these weigh no less than the two that were joined. -/
theorem Falling.le_succ {lightest second depth : Nat} {light heavy : List (Nat × Nat)}
    (falling : Falling (light ++ (lightest + second, depth) :: heavy))
    (aboveLightest : ∀ entry ∈ light ++ heavy, lightest ≤ entry.1)
    (aboveSecond : ∀ entry ∈ light ++ heavy, second ≤ entry.1) :
    ∀ entry ∈ light ++ heavy, entry.2 ≤ depth + 1 := by
  obtain ⟨ordered, first_le⟩ := falling
  cases light with
  | nil =>
    intro entry member
    exact Nat.le_succ_of_le ((List.pairwise_cons.mp ordered).1 entry member)
  | cons first later =>
    obtain ⟨below, _⟩ := List.pairwise_cons.mp ordered
    obtain ⟨next, rest, split⟩ := List.exists_cons_of_ne_nil
      (List.append_ne_nil_of_right_ne_nil later (List.cons_ne_nil (lightest + second, depth) heavy))
    have heavyNext : second ≤ next.1 := by
      have isNext : next ∈ later ++ (lightest + second, depth) :: heavy := by simp [split]
      simp only [List.mem_append, List.mem_cons] at isNext
      rcases isNext with isLater | rfl | isHeavy
      · exact aboveSecond next (by simp [isLater])
      · exact Nat.le_add_left _ _
      · exact aboveSecond next (by simp [isHeavy])
    have pair : lightest + second ≤ first.1 + next.1 :=
      Nat.add_le_add (aboveLightest first (by simp)) heavyNext
    have near : first.2 ≤ depth + 1 := first_le first next rest (by simp [split])
      (lightest + second, depth) (by simp) pair
    intro entry member
    rcases List.mem_cons.mp member with rfl | other
    · exact near
    · refine Nat.le_trans (below entry ?_) near
      simpa using (List.mem_append.mp other).imp_right Or.inr

/-- Depths fall along a profile. -/
theorem falling (profile : Profile entries) (rising : Rising entries) : Falling entries := by
  induction profile with
  | root weight =>
    refine ⟨List.pairwise_singleton _ _, fun first second rest split => ?_⟩
    simp at split
  | @join lightest second depth light heavy lighter heavier _ ih =>
    have later := ih (rising.join lighter heavier)
    obtain ⟨aboveLightest, aboveSecond⟩ := rising.forall_le
    have high := later.le_succ aboveLightest aboveSecond
    have others : (light ++ heavy).Pairwise fun entry later => later.2 ≤ entry.2 :=
      later.ordered.sublist (List.Sublist.append_left (List.sublist_cons_self ..) light)
    have aboveLight : ∀ entry ∈ light, depth ≤ entry.2 := fun entry member =>
      (List.pairwise_append.mp later.ordered).2.2 entry member _ List.mem_cons_self
    constructor
    · refine List.pairwise_cons.mpr ⟨fun entry member => ?_, List.pairwise_cons.mpr ⟨high, others⟩⟩
      rcases List.mem_cons.mp member with rfl | other
      · exact Nat.le_refl _
      · exact high entry other
    · intro first next rest split entry member weight
      obtain ⟨rfl, rfl, rfl⟩ : (lightest, depth + 1) = first ∧ (second, depth + 1) = next ∧
          light ++ heavy = rest := by simpa using split
      simp only [List.mem_cons, List.mem_append] at member
      rcases member with rfl | rfl | isLight | isHeavy
      · exact Nat.le_succ _
      · exact Nat.le_succ _
      · exact Nat.succ_le_succ (aboveLight entry isLight)
      · exact absurd weight (Nat.not_le_of_lt (heavier entry isHeavy))

/-- A tree hangs at most one level below any tree that is no heavier. -/
theorem depth_le_succ (profile : Profile entries) (rising : Rising entries)
    {entry other : Nat × Nat}
    (member : entry ∈ entries) (isOther : other ∈ entries) (weight : other.1 ≤ entry.1) :
    entry.2 ≤ other.2 + 1 := by
  induction profile with
  | root weight =>
    obtain rfl := List.mem_singleton.mp member
    exact Nat.zero_le _
  | @join lightest second depth light heavy lighter heavier joined ih =>
    have falling := (Profile.join lighter heavier joined).falling rising
    have later := ih (rising.join lighter heavier)
    have deepest : entry.2 ≤ depth + 1 := by
      rcases List.mem_cons.mp member with rfl | after
      · exact Nat.le_refl _
      · exact (List.pairwise_cons.mp falling.ordered).1 entry after
    have grows : ∀ entry ∈ light ++ heavy,
        entry ∈ light ++ (lightest + second, depth) :: heavy := fun entry isRest =>
      ((List.sublist_cons_self ..).append_left light).mem isRest
    rw [List.mem_cons, List.mem_cons] at isOther
    rcases isOther with rfl | rfl | otherRest
    · exact Nat.le_succ_of_le deepest
    · exact Nat.le_succ_of_le deepest
    rw [List.mem_cons, List.mem_cons] at member
    rcases member with rfl | rfl | isRest
    · exact falling.first_le _ _ _ rfl other (by simp [otherRest]) (Nat.le_add_right_of_le weight)
    · exact falling.first_le _ _ _ rfl other (by simp [otherRest]) (Nat.le_add_left_of_le weight)
    · exact later (grows entry isRest) (grows other otherRest)

end Profile

namespace Placement

/-- The weights of the trees with the depths that they hang at. -/
def profile (placement : Placement) : List (Nat × Nat) :=
  placement.map fun entry => (entry.1.weight, entry.2)

/-- The leaves of all trees at their depths below the root. -/
def leafDepths (placement : Placement) : List (Leaf × Nat) :=
  placement.flatMap fun entry => entry.1.leafDepths entry.2

end Placement

namespace Forest

/-- A weight splits a sorted forest into the trees that do not exceed it and the heavier ones. -/
theorem Sorted.exists_split {forest : Forest} (sorted : forest.Sorted) (weight : Nat) :
    ∃ light heavy : Forest, forest = light ++ heavy ∧ (∀ other ∈ light, other.weight ≤ weight) ∧
      ∀ other ∈ heavy, weight < other.weight := by
  induction forest with
  | nil => exact ⟨[], [], rfl, by simp, by simp⟩
  | cons first rest ih =>
    obtain ⟨below, later⟩ := List.pairwise_cons.mp sorted
    by_cases lighter : first.weight ≤ weight
    · obtain ⟨light, heavy, rfl, isLight, isHeavy⟩ := ih later
      exact ⟨first :: light, heavy, rfl, List.forall_mem_cons.mpr ⟨lighter, isLight⟩, isHeavy⟩
    · have heavier : weight < first.weight := Nat.lt_of_not_le lighter
      refine ⟨[], first :: rest, rfl, by simp, List.forall_mem_cons.mpr ⟨heavier, ?_⟩⟩
      exact fun other member => Nat.lt_of_lt_of_le heavier (below other member)

/-- The trees of a sorted forest hang in the merged tree at the depths of a profile. -/
theorem exists_profile {forest : Forest} {tree : Tree} (sorted : forest.Sorted)
    (merged : forest.merge = some tree) :
    ∃ placement : Placement, placement.map Prod.fst = forest ∧ Profile placement.profile ∧
      (tree.leafDepths 0).Perm placement.leafDepths := by
  fun_induction merge forest with
  | case1 => contradiction
  | case2 only =>
    obtain rfl := Option.some.inj merged
    exact ⟨[(only, 0)], rfl, .root _, by simp [Placement.leafDepths]⟩
  | case3 lightest second rest ih =>
    have others : Sorted rest := List.Pairwise.of_cons (List.Pairwise.of_cons sorted)
    obtain ⟨light, heavy, rfl, lighter, heavier⟩ :=
      others.exists_split (Tree.branch second lightest).weight
    obtain ⟨placement, trees, joined, leaves⟩ := ih sorted.mergeOnce merged
    rw [insert_append lighter heavier] at trees
    obtain ⟨lightPart, joinedPart, rfl, rfl, joinedTrees⟩ := List.map_eq_append_iff.mp trees
    obtain ⟨⟨_, depth⟩, heavyPart, rfl, rfl, rfl⟩ := List.map_eq_cons_iff.mp joinedTrees
    refine ⟨(lightest, depth + 1) :: (second, depth + 1) :: (lightPart ++ heavyPart), by simp, ?_,
      ?_⟩
    · have weight : (Tree.branch second lightest).weight = lightest.weight + second.weight :=
        Nat.add_comm ..
      simp only [Placement.profile, List.map_cons, List.map_append, weight] at joined ⊢
      refine .join (List.forall_mem_map.mpr fun entry member => ?_)
        (List.forall_mem_map.mpr fun entry member => ?_) joined
      · rw [← weight]
        exact lighter entry.1 (List.mem_map_of_mem member)
      · rw [← weight]
        exact heavier entry.1 (List.mem_map_of_mem member)
    · refine leaves.trans ?_
      simp only [Placement.leafDepths, List.flatMap_append, List.flatMap_cons, Tree.leafDepths]
      refine List.perm_iff_count.mpr fun entry => ?_
      simp only [List.count_append]
      omega

end Forest

namespace Histogram

variable {counts : Histogram} {floor : Nat} {tree : Tree}

/-- The leaves of a histogram lie at the depths of a profile, lightest first. -/
theorem exists_leaf_profile (found : counts.tree floor = some tree) :
    ∃ entries : List (Leaf × Nat), entries.map Prod.fst = (counts.sortedLeaves floor).reverse ∧
      (tree.leafDepths 0).Perm entries ∧
      Profile (entries.map fun entry => (entry.1.weight, entry.2)) ∧
      Profile.Rising (entries.map fun entry => (entry.1.weight, entry.2)) := by
  have sorted : (counts.sortedLeaves floor).reverse.Pairwise
      fun first later => first.weight ≤ later.weight :=
    List.pairwise_reverse.mpr (sortedLeaves_weights counts floor)
  obtain ⟨placement, trees, profile, leaves⟩ :=
    Forest.exists_profile (List.pairwise_map.mpr sorted) found
  obtain ⟨entries, own, rfl⟩ : ∃ entries : List (Leaf × Nat),
      entries.map Prod.fst = (counts.sortedLeaves floor).reverse ∧
        placement = entries.map (Prod.map Tree.leaf id) := by
    have many := congrArg List.length trees
    simp only [List.length_map] at many
    refine ⟨(counts.sortedLeaves floor).reverse.zip (placement.map Prod.snd), ?_, ?_⟩
    · exact List.map_fst_zip (by rw [List.length_map, many])
    · rw [← List.zip_map_left]
      exact List.zip_of_prod trees rfl
  have hung : Placement.leafDepths (entries.map (Prod.map Tree.leaf id)) = entries := by
    rw [Placement.leafDepths, List.flatMap_map]
    exact List.flatMap_singleton' _
  have weights : Placement.profile (entries.map (Prod.map Tree.leaf id)) =
      entries.map fun entry => (entry.1.weight, entry.2) := by
    rw [Placement.profile, List.map_map]
    rfl
  rw [weights] at profile
  rw [hung] at leaves
  refine ⟨entries, own, leaves, profile, ?_⟩
  rw [← own, List.pairwise_map] at sorted
  exact List.pairwise_map.mpr sorted

/-- Along the leaves of a histogram, lightest first, depths do not grow, and a leaf lies at most one
level below any leaf that is no heavier. -/
theorem exists_ordered_leafDepths (found : counts.tree floor = some tree) :
    ∃ entries : List (Leaf × Nat), entries.map Prod.fst = (counts.sortedLeaves floor).reverse ∧
      (tree.leafDepths 0).Perm entries ∧
      (entries.Pairwise fun entry later => later.2 ≤ entry.2) ∧
      ∀ entry ∈ entries, ∀ other ∈ entries, other.1.weight ≤ entry.1.weight →
        entry.2 ≤ other.2 + 1 := by
  obtain ⟨entries, own, leaves, profile, rising⟩ := exists_leaf_profile found
  refine ⟨entries, own, leaves, List.pairwise_map.mp (profile.falling rising).ordered, ?_⟩
  intro entry member other isOther weight
  exact profile.depth_le_succ rising (List.mem_map_of_mem member)
    (List.mem_map_of_mem isOther) weight

end Histogram

end CanonicalHuffman
