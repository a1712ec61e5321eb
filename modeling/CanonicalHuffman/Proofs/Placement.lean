import CanonicalHuffman.Proofs.Merging
import Mathlib.Algebra.BigOperators.Ring.List
import Mathlib.Data.Finset.Max
import Mathlib.Tactic.Ring

/-!
# Trees hung at depths

A placement hangs each tree of a forest at a depth of its own below one root. It costs what its
leaves weigh, times their depths, and is as high as its deepest leaf. A placement is no worse than
another one when it is cheaper, or as cheap and no higher. Depths leave room for one another when
their shares of the space below the root add up to no more than the whole.

A placement with room can be changed, without becoming worse, into one in which two trees that are
ranked before all others hang side by side. When the deepest depth is taken only once, it can be
reduced; when it is taken twice, the two trees change places with those that take it. Two trees
side by side are one tree one level higher.
-/

namespace CanonicalHuffman

namespace Tree

variable {tree other third : Tree}

/-- A tree is ranked before another one when it is lighter, or as heavy and no higher. -/
def RankedBefore (tree other : Tree) : Prop :=
  tree.weight < other.weight ∨ (tree.weight = other.weight ∧ tree.height ≤ other.height)

/-- Ranking is transitive. -/
theorem RankedBefore.trans (before : tree.RankedBefore other) (after : other.RankedBefore third) :
    tree.RankedBefore third := by
  unfold RankedBefore at *
  omega

/-- Lower down, the leaves of a tree cost the weight of the tree more for every level. -/
theorem sum_leafDepths_mul (tree : Tree) (depth : Nat) :
    ((tree.leafDepths depth).map fun entry => entry.1.weight * entry.2).sum =
      tree.cost + tree.weight * depth := by
  induction tree generalizing depth with
  | leaf tip => simp [leafDepths, cost, weight]
  | branch left right ihLeft ihRight =>
    rw [cost, leafDepths, leafDepths, List.map_append, List.map_append, List.sum_append,
      List.sum_append, ihLeft, ihRight, ihLeft, ihRight, weight]
    ring

/-- A leaf by itself costs nothing. -/
@[simp] theorem cost_leaf (tip : Leaf) : (leaf tip).cost = 0 := by
  simp [cost, leafDepths]

/-- A branch costs what its parts cost, and the weight of its leaves once more. -/
theorem cost_branch (left right : Tree) :
    (branch left right).cost = left.cost + right.cost + (left.weight + right.weight) := by
  rw [cost, leafDepths, List.map_append, List.sum_append, sum_leafDepths_mul, sum_leafDepths_mul]
  ring

end Tree

/-- Depths below one root leave room for one another. The shares that they take are counted in
units of `2 ^ -width`. -/
structure LeaveRoom (width : Nat) (depths : List Nat) : Prop where
  /-- Every share is a number of units. -/
  within : ∀ depth ∈ depths, depth ≤ width
  /-- The shares add up to no more than the whole. -/
  sum_le : (depths.map fun depth => 2 ^ (width - depth)).sum ≤ 2 ^ width

namespace LeaveRoom

variable {width depth : Nat} {depths others : List Nat}

/-- The order of depths has no effect. -/
theorem perm (room : LeaveRoom width depths) (same : depths.Perm others) :
    LeaveRoom width others where
  within := fun depth member => room.within depth (same.mem_iff.mpr member)
  sum_le := by
    rw [← (same.map fun depth => 2 ^ (width - depth)).sum_eq]
    exact room.sum_le

/-- When two trees hang below one root, neither hangs at the root itself. -/
theorem depth_pos {other : Nat} (room : LeaveRoom width (depth :: other :: others)) :
    0 < depth := by
  have shares := room.sum_le
  have share := Nat.two_pow_pos (width - other)
  rw [List.map_cons, List.map_cons, List.sum_cons, List.sum_cons] at shares
  by_contra root
  obtain rfl : depth = 0 := by omega
  rw [Nat.sub_zero] at shares
  omega

/-- Two equal depths take the room of one that is less by one. -/
theorem join (room : LeaveRoom width ((depth + 1) :: (depth + 1) :: others)) :
    LeaveRoom width (depth :: others) := by
  obtain ⟨within, shares⟩ := room
  simp only [List.forall_mem_cons] at within
  constructor
  · exact List.forall_mem_cons.mpr ⟨by omega, within.2.2⟩
  · have twice : 2 ^ (width - depth) = 2 ^ (width - (depth + 1)) * 2 := by
      rw [← Nat.pow_succ]
      congr 1
      omega
    simp only [List.map_cons, List.sum_cons] at shares ⊢
    omega

/-- A depth that exceeds all others can be reduced by one: with it alone, the shares do not fill
the whole. -/
theorem lift (room : LeaveRoom width ((depth + 1) :: others))
    (deepest : ∀ other ∈ others, other ≤ depth) : LeaveRoom width (depth :: others) := by
  obtain ⟨within, shares⟩ := room
  rw [List.forall_mem_cons] at within
  constructor
  · exact List.forall_mem_cons.mpr ⟨by omega, within.2⟩
  · -- the other shares and the whole are multiples of twice the deepest share, so that with it
    -- once, half of such a multiple is still free
    let unit := 2 ^ (width - (depth + 1))
    have power : ∀ other ≤ depth, 2 ^ (width - other) = 2 * unit * 2 ^ (depth - other) := by
      intro other above
      rw [← Nat.pow_succ', ← Nat.pow_add]
      congr 1
      omega
    have even : 2 * unit ∣ (others.map fun other => 2 ^ (width - other)).sum := by
      apply List.dvd_sum
      intro share member
      obtain ⟨other, isOther, rfl⟩ := List.mem_map.mp member
      exact ⟨_, power other (deepest other isOther)⟩
    obtain ⟨units, total⟩ := even
    have whole := power 0 (Nat.zero_le _)
    have half := power depth (Nat.le_refl _)
    rw [Nat.sub_zero, Nat.sub_zero] at whole
    rw [Nat.sub_self, Nat.pow_zero, Nat.mul_one] at half
    rw [List.map_cons, List.sum_cons, total, whole] at shares ⊢
    have fits : units < 2 ^ depth := by
      apply Nat.lt_of_mul_lt_mul_left (a := 2 * unit)
      have positive : 0 < unit := Nat.two_pow_pos _
      omega
    rw [half]
    calc
      2 * unit + 2 * unit * units = 2 * unit * (units + 1) := by ring
      _ ≤ 2 * unit * 2 ^ depth := Nat.mul_le_mul_left _ fits

end LeaveRoom

/-- Trees, each with the depth that it hangs at. -/
abbrev Placement := List (Tree × Nat)

namespace Placement

/-- The weight of every leaf times its depth, summed up. -/
def cost (placement : Placement) : Nat :=
  (placement.map fun entry => entry.1.cost + entry.1.weight * entry.2).sum

/-- The depth of the deepest leaf. -/
def height (placement : Placement) : Nat :=
  (placement.map fun entry => entry.1.height + entry.2).foldr max 0

/-- A placement is no worse than another one when it is cheaper, or as cheap and no higher. -/
def NoWorse (placement other : Placement) : Prop :=
  placement.cost < other.cost ∨
    (placement.cost = other.cost ∧ placement.height ≤ other.height)

variable {placement other third : Placement}

/-- A tree in front costs its own leaves and its weight for every level above it. -/
@[simp] theorem cost_cons (entry : Tree × Nat) (rest : Placement) :
    cost (entry :: rest) = entry.1.cost + entry.1.weight * entry.2 + cost rest := by
  simp [cost]

/-- A tree in front is as high as it hangs deep and grows high. -/
@[simp] theorem height_cons (entry : Tree × Nat) (rest : Placement) :
    height (entry :: rest) = max (entry.1.height + entry.2) (height rest) := rfl

/-- Nothing placed costs nothing. -/
@[simp] theorem cost_nil : cost [] = 0 := rfl

/-- Nothing placed has no height. -/
@[simp] theorem height_nil : height [] = 0 := rfl

/-- A placement whose trees all end at a bound or above is no higher than the bound. -/
theorem height_le {bound : Nat}
    (above : ∀ entry ∈ placement, entry.1.height + entry.2 ≤ bound) :
    placement.height ≤ bound := by
  induction placement with
  | nil => exact Nat.zero_le _
  | cons entry rest ih =>
    rw [List.forall_mem_cons] at above
    rw [height_cons]
    exact Nat.max_le.mpr ⟨above.1, ih above.2⟩

/-- A placement is no worse than itself. -/
theorem NoWorse.refl (placement : Placement) : placement.NoWorse placement :=
  .inr ⟨rfl, Nat.le_refl _⟩

/-- Being no worse is transitive. -/
theorem NoWorse.trans (first : placement.NoWorse other) (second : other.NoWorse third) :
    placement.NoWorse third := by
  unfold NoWorse at *
  omega

/-- The order of trees has no effect. -/
theorem NoWorse.of_perm (same : placement.Perm other) : placement.NoWorse other := by
  have costs : placement.cost = other.cost :=
    (same.map fun entry : Tree × Nat => entry.1.cost + entry.1.weight * entry.2).sum_eq
  have heights : placement.height = other.height :=
    (same.map fun entry : Tree × Nat => entry.1.height + entry.2).foldr_eq 0
  exact .inr ⟨costs, Nat.le_of_eq heights⟩

/-- One more tree keeps a placement no worse. -/
theorem NoWorse.cons (better : placement.NoWorse other) (entry : Tree × Nat) :
    NoWorse (entry :: placement) (entry :: other) := by
  unfold NoWorse at *
  rw [cost_cons, cost_cons, height_cons, height_cons]
  omega

/-- A tree that hangs higher makes a placement no worse. -/
theorem NoWorse.lift (tree : Tree) (depth : Nat) (rest : Placement) :
    NoWorse ((tree, depth) :: rest) ((tree, depth + 1) :: rest) := by
  unfold NoWorse
  simp only [cost_cons, height_cons, Nat.mul_succ]
  omega

/-- Two trees side by side are one tree one level higher. -/
theorem NoWorse.join (left right : Tree) (depth : Nat) (rest : Placement) :
    NoWorse ((.branch left right, depth) :: rest)
      ((right, depth + 1) :: (left, depth + 1) :: rest) := by
  unfold NoWorse
  simp only [cost_cons, height_cons, Tree.cost_branch, Tree.weight, Tree.height, Nat.mul_succ,
    Nat.add_mul]
  omega

/-- A tree that is ranked before another one changes places with it when that one hangs deeper. -/
theorem NoWorse.exchange {low high : Tree} (ranked : low.RankedBefore high) {depth deep : Nat}
    (deeper : depth ≤ deep) (rest : Placement) :
    NoWorse ((low, deep) :: (high, depth) :: rest) ((high, deep) :: (low, depth) :: rest) := by
  obtain ⟨levels, rfl⟩ := Nat.exists_eq_add_of_le deeper
  unfold NoWorse
  simp only [cost_cons, height_cons, Nat.mul_add]
  rcases ranked with lighter | ⟨same, lower⟩
  · cases levels with
    | zero =>
      right
      simp only [Nat.add_zero]
      omega
    | succ levels =>
      have gain : low.weight * (levels + 1) < high.weight * (levels + 1) :=
        Nat.mul_lt_mul_of_pos_right lighter (Nat.succ_pos _)
      left
      omega
  · right
    rw [same]
    omega

/-- A tree that is ranked before all others of a placement can hang at the deepest depth. -/
theorem exists_sunk {low : Tree} {forest : Forest} {deep : Nat} {others : List Nat}
    (trees : (placement.map Prod.fst).Perm (low :: forest))
    (ranked : ∀ tree ∈ forest, low.RankedBefore tree)
    (depths : (placement.map Prod.snd).Perm (deep :: others))
    (deepest : ∀ depth ∈ others, depth ≤ deep) :
    ∃ rest : Placement, (rest.map Prod.fst).Perm forest ∧ (rest.map Prod.snd).Perm others ∧
      NoWorse ((low, deep) :: rest) placement := by
  obtain ⟨⟨high, deep⟩, atDeep, rfl⟩ := List.mem_map.mp (depths.mem_iff.mpr List.mem_cons_self)
  obtain ⟨rest, split⟩ : ∃ rest, placement.Perm ((high, deep) :: rest) :=
    ⟨_, List.perm_cons_erase atDeep⟩
  have restTrees : (high :: rest.map Prod.fst).Perm (low :: forest) :=
    (split.map Prod.fst).symm.trans trees
  have restDepths : (rest.map Prod.snd).Perm others :=
    ((split.map Prod.snd).symm.trans depths).cons_inv
  by_cases own : low = high
  · subst own
    exact ⟨rest, restTrees.cons_inv, restDepths, .of_perm split.symm⟩
  · have elsewhere : low ∈ rest.map Prod.fst :=
      (List.mem_cons.mp (restTrees.mem_iff.mpr List.mem_cons_self)).resolve_left own
    obtain ⟨⟨low, depth⟩, atDepth, rfl⟩ := List.mem_map.mp elsewhere
    obtain ⟨last, splitAgain⟩ : ∃ last, rest.Perm ((low, depth) :: last) :=
      ⟨_, List.perm_cons_erase atDepth⟩
    have lastTrees : (high :: low :: last.map Prod.fst).Perm (low :: forest) :=
      ((splitAgain.map Prod.fst).symm.cons high).trans restTrees
    have lastDepths : (depth :: last.map Prod.snd).Perm others :=
      (splitAgain.map Prod.snd).symm.trans restDepths
    have kept : (high :: last.map Prod.fst).Perm forest :=
      ((List.Perm.swap ..).trans lastTrees).cons_inv
    refine ⟨(high, depth) :: last, kept, lastDepths, ?_⟩
    have before := ranked high (kept.mem_iff.mp List.mem_cons_self)
    have above := deepest depth (lastDepths.mem_iff.mp List.mem_cons_self)
    exact (NoWorse.exchange before above last).trans
      (.of_perm ((splitAgain.symm.cons _).trans split.symm))

/-- Some tree of a placement hangs at the deepest depth. -/
theorem exists_deepest (filled : placement ≠ []) : ∃ tree deep others,
    placement.Perm ((tree, deep) :: others) ∧ ∀ other ∈ others.map Prod.snd, other ≤ deep := by
  obtain ⟨⟨tree, deep⟩, atDeep, deepest⟩ := placement.toFinset.exists_max_image Prod.snd
    ((List.toFinset_nonempty_iff _).mpr filled)
  rw [List.mem_toFinset] at atDeep
  refine ⟨tree, deep, placement.erase (tree, deep), List.perm_cons_erase atDeep, ?_⟩
  intro other member
  obtain ⟨entry, isEntry, rfl⟩ := List.mem_map.mp member
  exact deepest entry (List.mem_toFinset.mpr (List.mem_of_mem_erase isEntry))

/-- A placement with room can be lifted until two of its trees share the deepest depth. -/
theorem exists_paired {width : Nat} (many : 2 ≤ placement.length)
    (room : LeaveRoom width (placement.map Prod.snd)) :
    ∃ paired : Placement, (paired.map Prod.fst).Perm (placement.map Prod.fst) ∧
      LeaveRoom width (paired.map Prod.snd) ∧ paired.NoWorse placement ∧
      ∃ depth rest, (paired.map Prod.snd).Perm ((depth + 1) :: (depth + 1) :: rest) ∧
        ∀ other ∈ rest, other ≤ depth + 1 := by
  -- lifting a tree makes the sum of all depths smaller
  induction total : (placement.map Prod.snd).sum using Nat.strong_induction_on
    generalizing placement with
  | h sum ih =>
    obtain ⟨tree, deep, others, split, bound⟩ :=
      exists_deepest (List.ne_nil_of_length_pos (by omega : 0 < placement.length))
    have depths := split.map Prod.snd
    rw [split.length_eq] at many
    have below : 0 < deep := by
      obtain ⟨_, _, filled⟩ := List.exists_cons_of_ne_nil
        (List.ne_nil_of_length_pos (Nat.lt_of_succ_lt_succ many))
      have arranged := room.perm depths
      rw [filled] at arranged
      exact arranged.depth_pos
    obtain ⟨depth, rfl⟩ := Nat.exists_eq_succ_of_ne_zero (Nat.ne_of_gt below)
    by_cases twice : depth + 1 ∈ others.map Prod.snd
    · refine ⟨placement, .refl _, room, .refl _, depth, (others.map Prod.snd).erase (depth + 1),
        ?_, ?_⟩
      · exact depths.trans ((List.perm_cons_erase twice).cons _)
      · intro other member
        exact bound other (List.mem_of_mem_erase member)
    · have higher : ∀ other ∈ others.map Prod.snd, other ≤ depth := by
        intro other member
        have apart : other ≠ depth + 1 := fun same => twice (same ▸ member)
        have := bound other member
        omega
      have less : (((tree, depth) :: others).map Prod.snd).sum < sum := by
        rw [← total, depths.sum_eq, List.map_cons, List.map_cons, List.sum_cons, List.sum_cons]
        omega
      obtain ⟨paired, trees, roomy, better, deepPair⟩ :=
        @ih _ less ((tree, depth) :: others) many ((room.perm depths).lift higher) rfl
      refine ⟨paired, trees.trans (split.map Prod.fst).symm, roomy, ?_, deepPair⟩
      exact better.trans ((NoWorse.lift tree depth others).trans (.of_perm split.symm))

/-- Two trees that are ranked before all others of a placement with room can be joined. -/
theorem exists_joined {width : Nat} {first second : Tree} {forest : Forest}
    (trees : (placement.map Prod.fst).Perm (first :: second :: forest))
    (room : LeaveRoom width (placement.map Prod.snd))
    (firstRanked : ∀ tree ∈ second :: forest, first.RankedBefore tree)
    (secondRanked : ∀ tree ∈ forest, second.RankedBefore tree) :
    ∃ joined : Placement, (joined.map Prod.fst).Perm (.branch second first :: forest) ∧
      LeaveRoom width (joined.map Prod.snd) ∧ joined.NoWorse placement := by
  have many : 2 ≤ placement.length := by
    rw [← List.length_map Prod.fst, trees.length_eq]
    simp
  obtain ⟨paired, sameTrees, roomy, better, depth, others, deepPair, deepest⟩ :=
    exists_paired many room
  have deepestPair : ∀ other ∈ (depth + 1) :: others, other ≤ depth + 1 :=
    List.forall_mem_cons.mpr ⟨Nat.le_refl _, deepest⟩
  obtain ⟨rest, restTrees, restDepths, sunk⟩ :=
    exists_sunk (sameTrees.trans trees) firstRanked deepPair deepestPair
  obtain ⟨last, lastTrees, lastDepths, sunkAgain⟩ :=
    exists_sunk restTrees secondRanked restDepths deepest
  refine ⟨(.branch second first, depth) :: last, ?_, ?_, ?_⟩
  · exact lastTrees.cons _
  · have pair : LeaveRoom width ((depth + 1) :: (depth + 1) :: last.map Prod.snd) :=
      roomy.perm (deepPair.trans ((lastDepths.symm.cons _).cons _))
    exact pair.join
  · have joined := NoWorse.join second first depth last
    exact joined.trans ((sunkAgain.cons _).trans (sunk.trans better))

end Placement

end CanonicalHuffman
