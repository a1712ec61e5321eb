import CanonicalHuffman.Proofs.Searching

/-!
# The order that a merge keeps in its arrays

At every step the waiting nodes of a merge stand for the trees of the textbook algorithm, in the
same order.

Its pool is filled from the front. A step writes the next two slots and leaves those in use as they
are, and a node that is written there names slots below its own only. So whatever the pool held
before, a node can be followed to one tree and no other.
-/

namespace CanonicalHuffman

namespace Node

variable {pool : Slots Node} {node : Node} {tree : Tree}

/-- The pool slots that a node names. -/
def children : Node → List Nat
  | branch _ left right => [left, right]
  | _ => []

/-- A node that stands for a tree names slots that are filled. -/
theorem Holds.lt_of_mem_children {taken : Nat} (holds : node.Holds (pool.take taken) tree) :
    ∀ child ∈ node.children, child < taken := by
  cases holds with
  | leaf tip => simp [ofLeaf, children]
  | branch atLeft atRight _ _ =>
    intro child member
    rw [children, List.mem_pair] at member
    rcases member with rfl | rfl
    · exact (Slots.of_getElem?_take atLeft).1
    · exact (Slots.of_getElem?_take atRight).1

/-- A node stands for one tree at most. -/
theorem Holds.unique {other : Tree} (first : node.Holds pool tree)
    (second : node.Holds pool other) :
    tree = other := by
  induction first generalizing other with
  | leaf tip =>
    generalize same : ofLeaf tip = node at second
    cases second with
    | leaf =>
      rw [ofLeaf, ofLeaf, leaf.injEq] at same
      exact congrArg Tree.leaf (by rw [Leaf.mk.injEq]; exact same)
    | branch => contradiction
  | @branch leftSlot rightSlot leftNode rightNode left right atLeft atRight _ _ ihLeft ihRight =>
    generalize same : Node.branch (left.weight + right.weight) leftSlot rightSlot = node at second
    cases second with
    | leaf => contradiction
    | branch atLeftToo atRightToo holdsLeft holdsRight =>
      injection same with _ lefts rights
      subst lefts rights
      rw [atLeft, Option.some.injEq] at atLeftToo
      rw [atRight, Option.some.injEq] at atRightToo
      subst atLeftToo atRightToo
      rw [ihLeft holdsLeft, ihRight holdsRight]

end Node

namespace Merge

variable {merge next last : Merge} {total count : Nat}

/-- Further steps leave the pool slots in use as they are. -/
theorem getElem?_pool_of_steps (ran : merge.steps count = .ok last) {slot : Nat}
    (used : slot < merge.taken) : last.pool[slot]? = merge.pool[slot]? := by
  induction count generalizing merge with
  | zero => rw [Except.ok.inj ran]
  | succ count ih =>
    obtain ⟨next, stepped, later⟩ := bind_eq_ok_iff.mp ran
    obtain ⟨_, _, _, _, _, _, _, _, _, taken⟩ := of_step_eq_ok stepped
    rw [ih later (by omega), getElem?_pool_of_step stepped used]

/-- Steps can be taken in two goes. -/
theorem steps_add (merge : Merge) (count more : Nat) :
    merge.steps (count + more) = merge.steps count >>= steps more := by
  induction count generalizing merge with
  | zero => rw [Nat.zero_add]; rfl
  | succ count ih =>
    rw [Nat.succ_add, steps, steps]
    cases merge.step with
    | error fault => rfl
    | ok next => exact ih next

/-- What holds of a merge of `total` leaves whenever another step may be due. -/
structure Orderly (total : Nat) (merge : Merge) : Prop where
  /-- The frontier has one slot per leaf. -/
  size_frontier : merge.frontier.size = total
  /-- The waiting nodes lie in the frontier. -/
  waiting_le : merge.waiting ≤ total
  /-- The slots in use lie in the pool. -/
  taken_le : merge.taken ≤ merge.pool.size
  /-- Two pool slots are in use for every tree less. -/
  taken_eq : merge.taken = 2 * (total - merge.waiting)
  /-- No waiting node is lighter than one behind it. -/
  falling : (merge.frontier.toList.take merge.waiting).Pairwise
    fun first later => later.weight ≤ first.weight
  /-- A waiting node names slots in use only. -/
  frontier_descends : ∀ node ∈ merge.frontier.toList.take merge.waiting,
    ∀ child ∈ node.children, child < merge.taken
  /-- A node in a used slot names slots below its own only. -/
  pool_descends : ∀ slot < merge.taken, ∀ node, merge.pool[slot]? = some node →
    ∀ child ∈ node.children, child < slot

/-- The waiting nodes weigh as much as the trees that they stand for. -/
theorem Represents.map_weight {forest : Forest} (represents : merge.Represents forest) :
    (merge.frontier.toList.take merge.waiting).map Node.weight =
      forest.reverse.map Tree.weight := by
  rw [← List.forall₂_eq_eq_eq, List.forall₂_map_left_iff, List.forall₂_map_right_iff]
  exact represents.holds.imp fun _ _ holds => holds.weight_eq

/-- Nodes that stand for a sorted forest, heaviest first, do not get heavier. -/
theorem Represents.falling {forest : Forest} (represents : merge.Represents forest) :
    (merge.frontier.toList.take merge.waiting).Pairwise
      fun first later => later.weight ≤ first.weight := by
  have sorted : (forest.reverse.map Tree.weight).Pairwise fun first later => later ≤ first :=
    List.pairwise_map.mpr (List.pairwise_reverse.mpr represents.sorted)
  rw [← represents.map_weight] at sorted
  exact List.pairwise_map.mp sorted

/-- Nodes that stand for trees name slots in use. -/
theorem Represents.frontier_descends {forest : Forest} (represents : merge.Represents forest) :
    ∀ node ∈ merge.frontier.toList.take merge.waiting, ∀ child ∈ node.children,
      child < merge.taken := by
  intro node member
  obtain ⟨tree, _, holds⟩ := exists_of_mem_left represents.holds member
  exact holds.lt_of_mem_children

/-- Before the first step nothing is out of order. -/
theorem initial_orderly {leaves : List Leaf} {pool : Slots Node}
    (sorted : leaves.Pairwise fun first later => later.weight ≤ first.weight)
    (room : 2 * (leaves.length - 1) ≤ pool.size) :
    (initial (leaves.map Node.ofLeaf).toArray pool).Orderly leaves.length where
  size_frontier := by simp [initial]
  waiting_le := by simp [initial]
  taken_le := Nat.zero_le _
  taken_eq := by simp [initial]
  falling := (initial_represents sorted room).falling
  frontier_descends := (initial_represents sorted room).frontier_descends
  pool_descends := fun slot used => absurd used (Nat.not_lt_zero slot)

/-- A step fills two slots with nodes that waited. -/
theorem mem_waiting_of_step (stepped : merge.step = .ok next) (many : 2 ≤ merge.waiting)
    {slot : Nat}
    {node : Node} (fresh : merge.taken ≤ slot) (used : slot < next.taken)
    (found : next.pool[slot]? = some node) : node ∈ merge.frontier.toList.take merge.waiting := by
  obtain ⟨lightest, second, atLightest, atSecond, room, _, pool, _, _, taken⟩ :=
    of_step_eq_ok stepped
  have waits : ∀ place < merge.waiting, merge.frontier[place]? = some node →
      node ∈ merge.frontier.toList.take merge.waiting := by
    intro place before waited
    refine List.mem_of_getElem? (i := place) ?_
    rw [List.getElem?_take, if_pos before, Array.getElem?_toList, waited]
  rw [pool] at found
  rcases Nat.eq_or_lt_of_le fresh with rfl | next
  · rw [Array.getElem?_setIfInBounds_ne (by omega),
      Array.getElem?_setIfInBounds_self_of_lt (by omega)] at found
    obtain rfl := Option.some.inj found
    exact waits _ (by omega) atLightest
  · obtain rfl : slot = merge.taken + 1 := by omega
    rw [Array.getElem?_setIfInBounds_self_of_lt (by simpa using room)] at found
    obtain rfl := Option.some.inj found
    exact waits _ (by omega) atSecond

/-- A step keeps the order. -/
theorem Orderly.step {forest : Forest} (orderly : merge.Orderly total) (many : 2 ≤ merge.waiting)
    (stepped : merge.step = .ok next) (represents : next.Represents forest) :
    next.Orderly total := by
  obtain ⟨_, _, _, _, room, _, pool, inserted, waiting, taken⟩ := of_step_eq_ok stepped
  have waits := orderly.waiting_le
  have inUse := orderly.taken_eq
  exact {
    size_frontier := (size_of_insert inserted).trans orderly.size_frontier
    waiting_le := by omega
    taken_le := by
      rw [pool, Array.size_setIfInBounds, Array.size_setIfInBounds]
      omega
    taken_eq := by omega
    falling := represents.falling
    frontier_descends := represents.frontier_descends
    pool_descends := by
      intro slot used node found child member
      rcases Nat.lt_or_ge slot merge.taken with old | fresh
      · rw [getElem?_pool_of_step stepped old] at found
        exact orderly.pool_descends slot old node found child member
      · have waited := mem_waiting_of_step stepped many fresh used found
        exact Nat.lt_of_lt_of_le (orderly.frontier_descends node waited child member) fresh }

/-- Steps keep the order. -/
theorem Orderly.steps {forest : Forest} (orderly : merge.Orderly total)
    (represents : merge.Represents forest) (enough : count < forest.length)
    (ran : merge.steps count = .ok last) : last.Orderly total := by
  induction count generalizing merge forest with
  | zero => exact Except.ok.inj ran ▸ orderly
  | succ count ih =>
    match forest, represents, enough with
    | lightest :: second :: rest, represents, enough =>
      obtain ⟨next, stepped, later⟩ := bind_eq_ok_iff.mp ran
      obtain ⟨follows, _⟩ := represents.of_step stepped
      have many : 2 ≤ merge.waiting := by
        rw [represents.waiting_eq]
        exact Nat.le_add_left ..
      refine ih (orderly.step many stepped follows) follows ?_ later
      rw [Forest.length_mergeOnce]
      split <;> omega

/-- A run on leaves of different symbols that stand in order never leaves its arrays. Only a branch
of more weight than 64 bits hold can stop it, which happens exactly when all leaves together weigh
more. Before every step that it comes to, the arrays are in order, the waiting nodes stand for the
trees of the textbook algorithm after as many steps and weigh as much as all leaves together, and
the pool slots that were in use at any earlier step hold what they held then. In the end the root
stands for the tree of the textbook algorithm and for no other, and every leaf is in it once. -/
theorem run_follows_falling_forest {leaves : List Leaf} {pool : Slots Node} (filled : leaves ≠ [])
    (distinct : (leaves.map Leaf.symbol).Nodup)
    (sorted : leaves.Pairwise fun first later => later.weight ≤ first.weight)
    (room : 2 * (leaves.length - 1) ≤ pool.size) :
    (∀ count < leaves.length, ∀ fault,
      (initial (leaves.map Node.ofLeaf).toArray pool).steps count = .error fault →
      fault = .sumOverflow ∧ UInt64.size ≤ (leaves.map Leaf.weight).sum) ∧
    (∀ count < leaves.length, ∀ merge,
      (initial (leaves.map Node.ofLeaf).toArray pool).steps count = .ok merge →
      merge.waiting = leaves.length - count ∧ merge.Orderly leaves.length ∧
      List.Forall₂ (Node.Holds merge.pool) (merge.frontier.toList.take merge.waiting)
        (FallingForest.mergeOnce^[count] (leaves.map Tree.leaf)) ∧
      ((merge.frontier.toList.take merge.waiting).map Node.weight).sum =
        (leaves.map Leaf.weight).sum ∧
      ∀ earlier ≤ count, ∃ before,
        (initial (leaves.map Node.ofLeaf).toArray pool).steps earlier = .ok before ∧
        ∀ slot < before.taken, merge.pool[slot]? = before.pool[slot]?) ∧
    ((leaves.map Leaf.weight).sum < UInt64.size →
      (∀ count < leaves.length, ∃ merge,
        (initial (leaves.map Node.ofLeaf).toArray pool).steps count = .ok merge) ∧
      ∃ last root tree, run (leaves.map Node.ofLeaf).toArray pool = .ok last ∧
        Slots.fetch last.frontier 0 = .ok root ∧
        FallingForest.mergeOnce^[leaves.length - 1] (leaves.map Tree.leaf) = [tree] ∧
        (∀ other, root.Holds last.pool other ↔ other = tree) ∧
        tree.leaves.Perm leaves ∧ (tree.leaves.map Leaf.symbol).Nodup) ∧
    (2 ≤ leaves.length → UInt64.size ≤ (leaves.map Leaf.weight).sum →
      run (leaves.map Node.ofLeaf).toArray pool = .error .sumOverflow) := by
  have represents := initial_represents sorted room
  have length : (leaves.reverse.map Tree.leaf).length = leaves.length := by simp
  have reversed : (leaves.reverse.map Tree.leaf).reverse = leaves.map Tree.leaf := by simp
  have weight := Forest.weight_map_leaf leaves
  refine ⟨?_, ?_, fun light => ⟨?_, ?_⟩, fun many heavy => run_of_le many sorted room heavy⟩
  · intro count unfinished fault refused
    rw [← weight]
    exact represents.of_steps_eq_error (unfinished.trans_eq length.symm) refused
  · intro count unfinished merge reached
    have enough : count < (leaves.reverse.map Tree.leaf).length := by omega
    obtain ⟨follows, _⟩ := represents.of_steps enough reached
    refine ⟨?_, (initial_orderly sorted room).steps represents enough reached, ?_, ?_, ?_⟩
    · rw [follows.waiting_eq, Forest.length_iterate_mergeOnce enough, length]
    · rw [← reversed, FallingForest.iterate_mergeOnce_reverse represents.sorted]
      exact follows.holds.imp fun _ _ holds => holds.of_take
    · rw [follows.map_weight, List.map_reverse, List.sum_reverse, ← Forest.weight,
        Forest.weight_iterate_mergeOnce, weight]
    · intro earlier before
      rw [← Nat.add_sub_cancel' before, steps_add] at reached
      obtain ⟨middle, halfway, later⟩ := bind_eq_ok_iff.mp reached
      exact ⟨middle, halfway, fun slot used => getElem?_pool_of_steps later used⟩
  · intro count unfinished
    obtain ⟨merge, reached, _⟩ :=
      represents.steps_ok (weight.trans_lt light) (unfinished.trans_eq length.symm)
    exact ⟨merge, reached⟩
  · obtain ⟨last, root, tree, ran, merged, atRoot, holds, _⟩ := run_ok filled sorted room light
    have perm : tree.leaves.Perm leaves := by
      have kept := Forest.leaves_perm_of_merge merged
      rw [List.flatMap_map] at kept
      have reverse : tree.leaves.Perm leaves.reverse := by simpa [Tree.leaves] using kept
      exact reverse.trans (List.reverse_perm _)
    refine ⟨last, root, tree, ran, atRoot, ?_,
      fun other => ⟨fun another => another.unique holds, ?_⟩,
      perm, (perm.map Leaf.symbol).nodup_iff.mpr distinct⟩
    · rw [← reversed, ← length]
      exact FallingForest.iterate_mergeOnce_eq represents.sorted merged
    · rintro rfl
      exact holds

/-- Four leaves, two of them equally heavy, are merged over a pool that held branches to slots it
does not have. Two leaves that weigh `2 ^ 63` each are not. -/
theorem run_follows_falling_forest_of_four_leaves :
    (∃ last root, run ([⟨5, 2⟩, ⟨3, 3⟩, ⟨3, 0⟩, ⟨1, 1⟩].map Node.ofLeaf).toArray
        (Array.replicate 7 (.branch 0 40 41)) = .ok last ∧
      Slots.fetch last.frontier 0 = .ok root ∧
      last.taken = 6 ∧
      ∀ tree, root.Holds last.pool tree ↔ tree =
        .branch (.branch (.branch (.leaf ⟨3, 0⟩) (.leaf ⟨1, 1⟩)) (.leaf ⟨3, 3⟩)) (.leaf ⟨5, 2⟩)) ∧
      run ([⟨2 ^ 63, 1⟩, ⟨2 ^ 63, 0⟩].map Node.ofLeaf).toArray (Array.replicate 2 .vacant) =
        .error .sumOverflow := by
  obtain ⟨_, states, light, _⟩ :=
    @run_follows_falling_forest [⟨5, 2⟩, ⟨3, 3⟩, ⟨3, 0⟩, ⟨1, 1⟩]
      (Array.replicate 7 (.branch 0 40 41)) (by decide) (by decide) (by decide) (by decide)
  obtain ⟨reaches, last, root, tree, ran, atRoot, merged, holds, _⟩ := light (by decide)
  obtain ⟨merge, reached⟩ := reaches 3 (by decide)
  obtain ⟨waiting, orderly, _⟩ := states 3 (by decide) merge reached
  obtain rfl : merge = last := Except.ok.inj (reached.symm.trans ran)
  obtain rfl : _ = tree := (List.cons.inj merged).1
  obtain ⟨_, _, _, heavy⟩ :=
    @run_follows_falling_forest [⟨2 ^ 63, 1⟩, ⟨2 ^ 63, 0⟩] (Array.replicate 2 .vacant)
      (by decide) (by decide) (by decide) (by decide)
  exact ⟨⟨merge, root, ran, atRoot, by rw [orderly.taken_eq, waiting]; rfl, holds⟩,
    heavy (by decide) (by decide)⟩

end Merge

end CanonicalHuffman
