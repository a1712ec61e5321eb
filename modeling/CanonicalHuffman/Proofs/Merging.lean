import CanonicalHuffman.Tree.Arena
import CanonicalHuffman.Proofs.Forests
import Mathlib.Data.List.Forall2

/-!
# The merge in place follows the merge of a forest

A merge on two arrays stands for a forest when its waiting nodes stand for the trees of the forest.
Trees refer to pool slots in use only, so writing the next two slots leaves them as they are. One
step of the arrays merges the forest once; a whole run ends with a node that stands for the merged
tree.

The leaves may stand in any order. When they are sorted, the merge also represents the forest that
is read from the lightest tree to the heaviest, and a pool with room for two slots per merge is
enough for it to end.
-/

namespace CanonicalHuffman

/-- Every entry of a list has a counterpart in a corresponding list. -/
theorem exists_of_mem_left {α β : Type} {Related : α → β → Prop} {entries : List α}
    {others : List β} (related : List.Forall₂ Related entries others) {entry : α}
    (member : entry ∈ entries) :
    ∃ other ∈ others, Related entry other := by
  obtain ⟨place, inside, rfl⟩ := List.mem_iff_getElem.mp member
  have within : place < others.length := related.length_eq ▸ inside
  exact ⟨others[place], List.getElem_mem within, related.get inside within⟩

namespace Slots

/-- The first slots hold what the slots hold, as far as they reach. -/
theorem getElem?_take {α : Type} (slots : Slots α) (count index : Nat) :
    (slots.take count)[index]? = if index < count then slots[index]? else none := by
  rw [Array.take_eq_extract, Array.getElem?_extract]
  grind

/-- What the first slots hold lies among them and in all slots. -/
theorem of_getElem?_take {α : Type} {slots : Slots α} {count index : Nat} {value : α}
    (found : (slots.take count)[index]? = some value) :
    index < count ∧ slots[index]? = some value := by
  rw [getElem?_take] at found
  split at found
  · next before => exact ⟨before, found⟩
  · contradiction

end Slots

namespace Node

/-- A node stands for the same tree in a pool that has more slots filled. -/
theorem Holds.mono {pool larger : Slots Node} {node : Node} {tree : Tree}
    (holds : Holds pool node tree)
    (keeps : ∀ (slot : Nat) (stored : Node), pool[slot]? = some stored →
      larger[slot]? = some stored) :
    Holds larger node tree := by
  induction holds with
  | leaf tip => exact .leaf tip
  | branch atLeft atRight _ _ ihLeft ihRight =>
    exact .branch (keeps _ _ atLeft) (keeps _ _ atRight) ihLeft ihRight

/-- What a node stands for in the first slots it stands for in all of them. -/
theorem Holds.of_take {pool : Slots Node} {taken : Nat} {node : Node} {tree : Tree}
    (holds : Holds (pool.take taken) node tree) : Holds pool node tree :=
  holds.mono fun _ _ found => (Slots.of_getElem?_take found).2

end Node

namespace Merge

variable {merge next last : Merge} {count : Nat}

/-- A node stored behind the waiting ones and brought down stands between them. -/
theorem take_bringDown_set {frontier : Slots Node} {waiting place : Nat}
    (inside : waiting < frontier.size) (within : place ≤ waiting) (node : Node) :
    (Slots.bringDown (frontier.set waiting node) place (waiting - place)).toList.take
      (waiting + 1) =
      (frontier.toList.take waiting).take place ++
        node :: (frontier.toList.take waiting).drop place := by
  apply List.ext_getElem?
  intro position
  have moved := Slots.getElem?_bringDown (frontier.set waiting node) place (waiting - place)
    position (by rw [Array.size_set]; omega)
  have behind : place + (waiting - place) = waiting := by omega
  have front : ((frontier.toList.take waiting).take place).length = place := by
    simp
    omega
  rw [List.getElem?_take, Array.getElem?_toList, moved, behind]
  rcases Nat.lt_trichotomy position place with before | rfl | after
  · rw [List.getElem?_append_left (by omega), if_pos (by omega), if_neg (by omega),
      if_neg (by omega), Array.getElem?_set_ne inside (by omega), List.getElem?_take,
      if_pos before, List.getElem?_take, if_pos (by omega), Array.getElem?_toList]
  · rw [List.getElem?_append_right (by omega), front, if_pos (by omega), if_pos rfl,
      Array.getElem?_set_self inside, Nat.sub_self, List.getElem?_cons_zero]
  · obtain ⟨offset, rfl⟩ : ∃ offset, position = place + (offset + 1) :=
      ⟨position - place - 1, by omega⟩
    rw [List.getElem?_append_right (by omega), front, Nat.add_sub_cancel_left,
      List.getElem?_cons_succ, List.getElem?_drop, List.getElem?_take]
    by_cases bound : place + offset < waiting
    · rw [if_pos (by omega), if_neg (by omega), if_pos (by omega), if_pos bound,
        Array.getElem?_set_ne inside (by omega), Array.getElem?_toList]
      rfl
    · rw [if_neg (by omega), if_neg bound]

/-- Where a node is inserted: behind every heavier waiting node, and before the first that is not.
-/
theorem insert_ok {frontier : Slots Node} {waiting : Nat} {node : Node}
    (inside : waiting < frontier.size) :
    ∃ heavy light filled, frontier.toList.take waiting = heavy ++ light ∧
      (∀ other ∈ heavy, node.weight < other.weight) ∧
      (∀ other ∈ light.head?, other.weight ≤ node.weight) ∧
      insert frontier waiting node = .ok filled ∧ filled.size = frontier.size ∧
      filled.toList.take (waiting + 1) = heavy ++ node :: light := by
  let place := placeFrom frontier node.weight 0 waiting
  have within : place ≤ waiting := by simpa using placeFrom_le frontier node.weight 0 waiting
  refine ⟨(frontier.toList.take waiting).take place, (frontier.toList.take waiting).drop place,
    Slots.bringDown (frontier.set waiting node) place (waiting - place),
    (List.take_append_drop ..).symm, ?_, ?_, ?_, ?_, take_bringDown_set inside within node⟩
  · intro other member
    obtain ⟨position, bound, found⟩ := List.mem_iff_getElem.mp member
    have before : position < place := by
      rw [List.length_take] at bound
      omega
    apply lt_weight_of_lt_placeFrom (Nat.zero_le position) before
    rw [Array.getElem?_eq_getElem (by omega)]
    simpa using found
  · intro other first
    rw [Option.mem_def, List.head?_drop] at first
    obtain ⟨bound, found⟩ := List.getElem?_eq_some_iff.mp first
    have before : place < 0 + waiting := by
      rw [List.length_take] at bound
      omega
    apply weight_le_of_placeFrom before
    show frontier[place]? = some other
    rw [Array.getElem?_eq_getElem (by omega)]
    simpa using found
  · rw [insert, Slots.store_of_lt node inside]
    rfl
  · simp

/-- Inserting a node keeps the number of slots. -/
theorem size_of_insert {frontier filled : Slots Node} {waiting : Nat} {node : Node}
    (inserted : insert frontier waiting node = .ok filled) : filled.size = frontier.size := by
  simp only [insert, bind_eq_ok_iff, Slots.store_eq_ok_iff] at inserted
  obtain ⟨stored, ⟨_, rfl⟩, moved⟩ := inserted
  rw [← Except.ok.inj moved, Slots.size_bringDown, Array.size_setIfInBounds]

/-- All that a step does: the two lightest nodes go to the next two pool slots, and a branch over
these, if they are not too heavy for one, waits in their place. -/
theorem of_step_eq_ok (stepped : merge.step = .ok next) :
    ∃ lightest second, merge.frontier[merge.waiting - 1]? = some lightest ∧
      merge.frontier[merge.waiting - 2]? = some second ∧
      merge.taken + 1 < merge.pool.size ∧ second.weight + lightest.weight < UInt64.size ∧
      next.pool =
        (merge.pool.setIfInBounds merge.taken lightest).setIfInBounds (merge.taken + 1) second ∧
      insert merge.frontier (merge.waiting - 2)
        (.branch (second.weight + lightest.weight) (merge.taken + 1) merge.taken) =
          .ok next.frontier ∧
      next.waiting = merge.waiting - 1 ∧ next.taken = merge.taken + 2 := by
  simp only [step, bind_eq_ok_iff, Slots.fetch_eq_ok_iff, Slots.store_eq_ok_iff,
    Node.join_eq_ok_iff] at stepped
  obtain ⟨lightest, atLightest, second, atSecond, _, ⟨_, rfl⟩, _, ⟨room, rfl⟩, _, ⟨light, rfl⟩,
    filled, inserted, reached⟩ := stepped
  obtain rfl := Except.ok.inj reached
  rw [Array.size_setIfInBounds] at room
  exact ⟨lightest, second, atLightest, atSecond, room, light, rfl, inserted, rfl, rfl⟩

/-- What a step does with the two nodes that it takes. -/
theorem of_step_takes (stepped : merge.step = .ok next) {lightest second : Node}
    (atLightest : merge.frontier[merge.waiting - 1]? = some lightest)
    (atSecond : merge.frontier[merge.waiting - 2]? = some second) :
    merge.taken + 1 < merge.pool.size ∧
      next.pool =
        (merge.pool.setIfInBounds merge.taken lightest).setIfInBounds (merge.taken + 1) second ∧
      insert merge.frontier (merge.waiting - 2)
        (.branch (second.weight + lightest.weight) (merge.taken + 1) merge.taken) =
          .ok next.frontier := by
  obtain ⟨_, _, foundLightest, foundSecond, room, _, pool, inserted, _⟩ := of_step_eq_ok stepped
  rw [atLightest, Option.some.injEq] at foundLightest
  rw [atSecond, Option.some.injEq] at foundSecond
  subst foundLightest foundSecond
  exact ⟨room, pool, inserted⟩

/-- A step is taken when the last two nodes are not too heavy for a branch and two pool slots are
free. -/
theorem exists_step {lightest second : Node}
    (atLightest : merge.frontier[merge.waiting - 1]? = some lightest)
    (atSecond : merge.frontier[merge.waiting - 2]? = some second)
    (room : merge.taken + 1 < merge.pool.size)
    (light : second.weight + lightest.weight < UInt64.size) : ∃ next, merge.step = .ok next := by
  have inside : merge.waiting - 2 < merge.frontier.size :=
    (Array.getElem?_eq_some_iff.mp atSecond).1
  have spare : merge.taken + 1 < (merge.pool.set merge.taken lightest).size := by
    rwa [Array.size_set]
  obtain ⟨_, _, _, _, _, _, inserted, _⟩ := @insert_ok merge.frontier (merge.waiting - 2)
    (.branch (second.weight + lightest.weight) (merge.taken + 1) merge.taken) inside
  exact ⟨_, bind_eq_ok_iff.mpr ⟨_, Slots.fetch_eq_ok_iff.mpr atLightest, bind_eq_ok_iff.mpr
    ⟨_, Slots.fetch_eq_ok_iff.mpr atSecond, bind_eq_ok_iff.mpr ⟨_, Slots.store_of_lt _ (by omega),
      bind_eq_ok_iff.mpr ⟨_, Slots.store_of_lt _ spare, bind_eq_ok_iff.mpr
        ⟨_, Node.join_eq_ok_iff.mpr ⟨light, rfl⟩, bind_eq_ok_iff.mpr ⟨_, inserted, rfl⟩⟩⟩⟩⟩⟩⟩

/-- A step is refused when the two nodes are too heavy for a branch. -/
theorem step_of_le {lightest second : Node}
    (atLightest : merge.frontier[merge.waiting - 1]? = some lightest)
    (atSecond : merge.frontier[merge.waiting - 2]? = some second)
    (room : merge.taken + 1 < merge.pool.size)
    (heavy : UInt64.size ≤ second.weight + lightest.weight) :
    merge.step = .error .sumOverflow := by
  have spare : merge.taken + 1 < (merge.pool.set merge.taken lightest).size := by
    rwa [Array.size_set]
  simp only [step, Slots.fetch_eq_ok_iff.mpr atLightest, Slots.fetch_eq_ok_iff.mpr atSecond,
    Slots.store_of_lt _ (Nat.lt_of_succ_lt room), Slots.store_of_lt _ spare, Node.join_of_le heavy,
    bind, Except.bind]

/-- A step leaves the pool slots in use as they are. -/
theorem getElem?_pool_of_step (stepped : merge.step = .ok next) {slot : Nat}
    (used : slot < merge.taken) :
    next.pool[slot]? = merge.pool[slot]? := by
  obtain ⟨_, _, _, _, _, _, pool, _⟩ := of_step_eq_ok stepped
  rw [pool, Array.getElem?_setIfInBounds_ne (by omega), Array.getElem?_setIfInBounds_ne (by omega)]

/-- A node that stands for a tree before a step stands for it afterwards. -/
theorem holds_of_step (stepped : merge.step = .ok next) {node : Node} {tree : Tree}
    (holds : node.Holds (merge.pool.take merge.taken) tree) :
    node.Holds (next.pool.take next.taken) tree := by
  obtain ⟨_, _, _, _, _, _, _, _, _, taken⟩ := of_step_eq_ok stepped
  refine holds.mono fun slot stored found => ?_
  obtain ⟨used, stored⟩ := Slots.of_getElem?_take found
  rw [Slots.getElem?_take, if_pos (by omega), getElem?_pool_of_step stepped used, stored]

/-- The branch over the two nodes that a step takes stands for the tree over theirs. -/
theorem holds_branch_of_step (stepped : merge.step = .ok next) {lightestNode secondNode : Node}
    {lightest second : Tree} (atLightest : merge.frontier[merge.waiting - 1]? = some lightestNode)
    (atSecond : merge.frontier[merge.waiting - 2]? = some secondNode)
    (holdsLightest : lightestNode.Holds (merge.pool.take merge.taken) lightest)
    (holdsSecond : secondNode.Holds (merge.pool.take merge.taken) second) :
    (Node.branch (secondNode.weight + lightestNode.weight) (merge.taken + 1) merge.taken).Holds
      (next.pool.take next.taken) (.branch second lightest) := by
  obtain ⟨_, _, _, _, _, _, _, _, _, taken⟩ := of_step_eq_ok stepped
  obtain ⟨room, pool, _⟩ := of_step_takes stepped atLightest atSecond
  rw [holdsSecond.weight_eq, holdsLightest.weight_eq]
  refine .branch ?_ ?_ (holds_of_step stepped holdsSecond) (holds_of_step stepped holdsLightest)
  · rw [Slots.getElem?_take, if_pos (by omega), pool,
      Array.getElem?_setIfInBounds_self_of_lt (by simpa using room)]
  · rw [Slots.getElem?_take, if_pos (by omega), pool, Array.getElem?_setIfInBounds_ne (by omega),
      Array.getElem?_setIfInBounds_self_of_lt (by omega)]

/-- The last two of the nodes that stand for trees stand for the last two trees. -/
theorem exists_last_two {pool frontier : Slots Node} {others : List Tree} {second lightest : Tree}
    (holds : List.Forall₂ (Node.Holds pool) (frontier.toList.take (others.length + 2))
      (others ++ [second, lightest])) :
    ∃ lightestNode secondNode,
      Slots.fetch frontier others.length = .ok secondNode ∧
      Slots.fetch frontier (others.length + 1) = .ok lightestNode ∧
      secondNode.Holds pool second ∧ lightestNode.Holds pool lightest ∧
      List.Forall₂ (Node.Holds pool) (frontier.toList.take others.length) others := by
  have front := List.forall₂_take_append _ _ _ holds
  have pair := List.forall₂_drop_append _ _ _ holds
  rw [List.take_take, Nat.min_eq_left (by omega)] at front
  obtain ⟨secondNode, tail, holdsSecond, lastly, split⟩ := List.forall₂_cons_right_iff.mp pair
  obtain ⟨lightestNode, _, holdsLightest, nothing, rfl⟩ := List.forall₂_cons_right_iff.mp lastly
  obtain rfl := List.forall₂_nil_right_iff.mp nothing
  refine ⟨lightestNode, secondNode, ?_, ?_, holdsSecond, holdsLightest, front⟩
  · have first := congrArg (·[0]?) split
    simpa [List.getElem?_drop, List.getElem?_take] using first
  · have next := congrArg (·[1]?) split
    simpa [List.getElem?_drop, List.getElem?_take] using next

section AnyOrder

variable {forest : FallingForest}

/-- A merge stands for a forest when its waiting nodes stand for the trees of the forest, in the
order in which they wait. -/
structure StandsFor (merge : Merge) (forest : FallingForest) : Prop where
  /-- The waiting nodes lie in the frontier. -/
  inside : merge.waiting ≤ merge.frontier.size
  /-- The waiting nodes stand for the trees. -/
  holds : List.Forall₂ (Node.Holds (merge.pool.take merge.taken))
    (merge.frontier.toList.take merge.waiting) forest

/-- As many nodes wait as the forest has trees. -/
theorem StandsFor.waiting_eq (stands : merge.StandsFor forest) : merge.waiting = forest.length := by
  have same := stands.holds.length_eq
  have inside := stands.inside
  rw [List.length_take, Array.length_toList] at same
  omega

/-- Before the first step the leaves stand for themselves. -/
theorem initial_standsFor (leaves : List Leaf) (pool : Slots Node) :
    (initial (leaves.map Node.ofLeaf).toArray pool).StandsFor (leaves.map Tree.leaf) where
  inside := Nat.le_refl _
  holds := by
    simp only [initial, List.size_toArray, List.take_length]
    exact List.forall₂_map_left_iff.mpr (List.forall₂_map_right_iff.mpr
      (List.forall₂_same.mpr fun tip _ => .leaf tip))

/-- A node inserted between nodes puts its tree between their trees. -/
theorem holds_insert_between {pool : Slots Node} {heavy light : List Node} {node : Node}
    {tree : Tree}
    (holds : List.Forall₂ (Node.Holds pool) (heavy ++ light) forest)
    (holdsNode : node.Holds pool tree)
    (heavier : ∀ other ∈ heavy, node.weight < other.weight)
    (lighter : ∀ other ∈ light.head?, other.weight ≤ node.weight) :
    List.Forall₂ (Node.Holds pool) (heavy ++ node :: light) (forest.insert tree) := by
  have holdsHeavy := List.forall₂_take heavy.length holds
  have holdsLight := List.forall₂_drop heavy.length holds
  rw [List.take_left] at holdsHeavy
  rw [List.drop_left] at holdsLight
  rw [holdsNode.weight_eq] at heavier lighter
  have heavierTrees : ∀ other ∈ forest.take heavy.length, tree.weight < other.weight := by
    intro other member
    obtain ⟨stored, isHeavy, stands⟩ := exists_of_mem_left holdsHeavy.flip member
    rw [← Node.Holds.weight_eq stands]
    exact heavier stored isHeavy
  have lighterTrees : ∀ other ∈ (forest.drop heavy.length).head?, other.weight ≤ tree.weight := by
    generalize forest.drop heavy.length = trees at holdsLight
    intro other first
    cases holdsLight with
    | nil => contradiction
    | cons stands _ =>
      obtain rfl := Option.some.inj first
      rw [← Node.Holds.weight_eq stands]
      exact lighter _ rfl
  rw [← List.take_append_drop heavy.length forest,
    FallingForest.insert_append heavierTrees lighterTrees]
  exact List.rel_append holdsHeavy (.cons holdsNode holdsLight)

/-- A step merges the last two trees. -/
theorem StandsFor.step (stands : merge.StandsFor forest) (many : 2 ≤ merge.waiting)
    (stepped : merge.step = .ok next) : next.StandsFor forest.mergeOnce := by
  have length := stands.waiting_eq
  obtain ⟨others, second, lightest, rfl⟩ := FallingForest.exists_append_pair (length ▸ many)
  have waits : merge.waiting = others.length + 2 := by simpa using length
  obtain ⟨lightestNode, secondNode, atSecond, atLightest, holdsSecond, holdsLightest, front⟩ :=
    exists_last_two (waits ▸ stands.holds)
  rw [Slots.fetch_eq_ok_iff] at atSecond atLightest
  have foundSecond : merge.frontier[merge.waiting - 2]? = some secondNode := by rwa [waits]
  have foundLightest : merge.frontier[merge.waiting - 1]? = some lightestNode := by rwa [waits]
  have joined := holds_branch_of_step stepped foundLightest foundSecond holdsLightest holdsSecond
  have kept : List.Forall₂ (Node.Holds (next.pool.take next.taken))
      (merge.frontier.toList.take others.length) others :=
    front.imp fun _ _ holds => holds_of_step stepped holds
  obtain ⟨_, _, inserted⟩ := of_step_takes stepped foundLightest foundSecond
  obtain ⟨_, _, _, _, _, _, _, _, waiting, _⟩ := of_step_eq_ok stepped
  rw [waits, Nat.add_sub_cancel] at inserted
  have inside := stands.inside
  obtain ⟨heavy, light, placed, split, heavier, lighter, stored, size, between⟩ :=
    @insert_ok merge.frontier others.length
      (.branch (secondNode.weight + lightestNode.weight) (merge.taken + 1) merge.taken) (by omega)
  obtain rfl : placed = next.frontier := Except.ok.inj (stored.symm.trans inserted)
  rw [FallingForest.mergeOnce_append]
  refine ⟨by omega, ?_⟩
  rw [waiting, waits, Nat.add_succ_sub_one, between]
  exact holds_insert_between (split ▸ kept) joined heavier lighter

/-- Steps merge the last two trees as often. -/
theorem StandsFor.steps (stands : merge.StandsFor forest) (enough : count < forest.length)
    (ran : merge.steps count = .ok last) :
    last.StandsFor (FallingForest.mergeOnce^[count] forest) := by
  induction count generalizing merge forest with
  | zero => exact Except.ok.inj ran ▸ stands
  | succ count ih =>
    obtain ⟨next, stepped, later⟩ := bind_eq_ok_iff.mp ran
    have length := stands.waiting_eq
    have shorter : forest.mergeOnce.length + 1 = forest.length :=
      FallingForest.length_mergeOnce (by omega)
    exact ih (stands.step (by omega) stepped) (by omega) later

/-- Steps that stay in the pool take two slots each and keep its size. -/
theorem taken_of_steps (ran : merge.steps count = .ok last)
    (within : merge.taken ≤ merge.pool.size) :
    last.pool.size = merge.pool.size ∧ last.taken = merge.taken + 2 * count ∧
      last.taken ≤ last.pool.size := by
  induction count generalizing merge with
  | zero => exact Except.ok.inj ran ▸ ⟨rfl, rfl, within⟩
  | succ count ih =>
    obtain ⟨next, stepped, later⟩ := bind_eq_ok_iff.mp ran
    obtain ⟨_, _, _, _, room, _, pool, _, _, taken⟩ := of_step_eq_ok stepped
    have size : next.pool.size = merge.pool.size := by simp [pool]
    obtain ⟨sizes, takes, fits⟩ := ih later (by omega)
    exact ⟨sizes.trans size, by omega, fits⟩

/-- The last waiting node stands for the last tree. -/
theorem StandsFor.exists_root {tree : Tree} (stands : merge.StandsFor [tree]) :
    ∃ root, Slots.fetch merge.frontier 0 = .ok root ∧ root.Holds merge.pool tree := by
  have holds := stands.holds
  rw [stands.waiting_eq] at holds
  obtain ⟨root, _, holdsRoot, nothing, split⟩ := List.forall₂_cons_right_iff.mp holds
  obtain rfl := List.forall₂_nil_right_iff.mp nothing
  refine ⟨root, ?_, holdsRoot.of_take⟩
  have first := congrArg (·[0]?) split
  simpa [List.getElem?_take] using first

/-- A run on leaves in any order ends with a node that stands for a tree in which every leaf occurs
once, and with two pool slots in use for every merge. -/
theorem of_run_eq_ok {leaves : List Leaf} {pool : Slots Node} {root : Node}
    (ran : run (leaves.map Node.ofLeaf).toArray pool = .ok last)
    (atRoot : Slots.fetch last.frontier 0 = .ok root) :
    ∃ tree, FallingForest.mergeOnce^[leaves.length - 1] (leaves.map Tree.leaf) = [tree] ∧
      root.Holds last.pool tree ∧ tree.leaves.Perm leaves ∧
      2 * (leaves.length - 1) ≤ last.pool.size := by
  have filled : 0 < leaves.length := by
    refine List.length_pos_iff.mpr ?_
    rintro rfl
    obtain rfl := Except.ok.inj ran
    contradiction
  rw [run, List.size_toArray, List.length_map] at ran
  have enough : leaves.length - 1 < (leaves.map Tree.leaf).length := by
    rw [List.length_map]
    omega
  obtain ⟨length, perm⟩ := FallingForest.iterate_mergeOnce_perm enough
  have stands := (initial_standsFor leaves pool).steps enough ran
  rw [List.length_map] at length
  have one : (FallingForest.mergeOnce^[leaves.length - 1] (leaves.map Tree.leaf)).length = 1 := by
    omega
  obtain ⟨tree, only⟩ := List.length_eq_one_iff.mp one
  rw [only] at stands perm
  obtain ⟨first, atFirst, holds⟩ := stands.exists_root
  obtain rfl : first = root := Except.ok.inj (atFirst.symm.trans atRoot)
  rw [List.flatMap_singleton, List.flatMap_map] at perm
  obtain ⟨_, taken, room⟩ := taken_of_steps ran (Nat.zero_le _)
  have start : (initial (leaves.map Node.ofLeaf).toArray pool).taken = 0 := rfl
  exact ⟨tree, only, holds, by simpa [Tree.leaves] using perm, by omega⟩

end AnyOrder

/-- A merge represents a forest. -/
structure Represents (merge : Merge) (forest : Forest) : Prop where
  /-- The forest is sorted. -/
  sorted : forest.Sorted
  /-- The waiting nodes lie in the frontier. -/
  inside : merge.waiting ≤ merge.frontier.size
  /-- The pool has room for two slots per merge to come. -/
  room : merge.taken + 2 * (merge.waiting - 1) ≤ merge.pool.size
  /-- The waiting nodes, heaviest first, stand for the trees. -/
  holds : List.Forall₂ (Node.Holds (merge.pool.take merge.taken))
    (merge.frontier.toList.take merge.waiting) forest.reverse

/-- A merge stands for the forest that it represents, heaviest tree first. -/
theorem Represents.standsFor {merge : Merge} {forest : Forest}
    (represents : merge.Represents forest) :
    merge.StandsFor forest.reverse :=
  ⟨represents.inside, represents.holds⟩

/-- As many nodes wait as the forest has trees. -/
theorem Represents.waiting_eq {merge : Merge} {forest : Forest}
    (represents : merge.Represents forest) : merge.waiting = forest.length :=
  represents.standsFor.waiting_eq.trans List.length_reverse

/-- Before the first step the leaves of the frontier stand for themselves. -/
theorem initial_represents {leaves : List Leaf} {pool : Slots Node}
    (sorted : leaves.Pairwise fun first later => later.weight ≤ first.weight)
    (room : 2 * (leaves.length - 1) ≤ pool.size) :
    (initial (leaves.map Node.ofLeaf).toArray pool).Represents (leaves.reverse.map Tree.leaf) where
  sorted := List.pairwise_map.mpr (List.pairwise_reverse.mpr sorted)
  inside := Nat.le_refl _
  room := by simpa [initial] using room
  holds := by
    rw [List.map_reverse, List.reverse_reverse]
    exact (initial_standsFor leaves pool).holds

/-- The last two waiting nodes stand for the two lightest trees. -/
theorem Represents.exists_lightest {merge : Merge} {lightest second : Tree} {rest : Forest}
    (represents : merge.Represents (lightest :: second :: rest)) :
    ∃ lightestNode secondNode,
      Slots.fetch merge.frontier rest.length = .ok secondNode ∧
      Slots.fetch merge.frontier (rest.length + 1) = .ok lightestNode ∧
      secondNode.Holds (merge.pool.take merge.taken) second ∧
      lightestNode.Holds (merge.pool.take merge.taken) lightest ∧
      List.Forall₂ (Node.Holds (merge.pool.take merge.taken))
        (merge.frontier.toList.take rest.length) rest.reverse := by
  have waiting : merge.waiting = rest.length + 2 := represents.waiting_eq
  have holds : List.Forall₂ (Node.Holds (merge.pool.take merge.taken))
      (merge.frontier.toList.take (rest.reverse.length + 2))
      (rest.reverse ++ [second, lightest]) := by
    simpa [waiting] using represents.holds
  simpa only [List.length_reverse] using exists_last_two holds

/-- A step merges the two lightest trees of the forest. -/
theorem Represents.of_step {merge next : Merge} {lightest second : Tree} {rest : Forest}
    (represents : merge.Represents (lightest :: second :: rest)) (stepped : merge.step = .ok next) :
    next.Represents (Forest.mergeOnce (lightest :: second :: rest)) ∧
      next.pool.size = merge.pool.size := by
  have many : merge.waiting = rest.length + 2 := represents.waiting_eq
  have room := represents.room
  have stands := represents.standsFor.step (by omega) stepped
  rw [FallingForest.mergeOnce_reverse represents.sorted] at stands
  obtain ⟨_, _, _, _, _, _, pool, _, waiting, taken⟩ := of_step_eq_ok stepped
  have size : next.pool.size = merge.pool.size := by simp [pool]
  exact ⟨⟨represents.sorted.mergeOnce, stands.inside, by omega, stands.holds⟩, size⟩

/-- A step is taken unless the two lightest trees are too heavy for a branch. -/
theorem Represents.step_cases {merge : Merge} {lightest second : Tree} {rest : Forest}
    (represents : merge.Represents (lightest :: second :: rest)) :
    (second.weight + lightest.weight < UInt64.size ∧ ∃ next, merge.step = .ok next) ∨
      (UInt64.size ≤ second.weight + lightest.weight ∧ merge.step = .error .sumOverflow) := by
  obtain ⟨lightestNode, secondNode, atSecond, atLightest, holdsSecond, holdsLightest, _⟩ :=
    represents.exists_lightest
  have many : merge.waiting = rest.length + 2 := represents.waiting_eq
  have room := represents.room
  rw [Slots.fetch_eq_ok_iff] at atSecond atLightest
  have foundSecond : merge.frontier[merge.waiting - 2]? = some secondNode := by rwa [many]
  have foundLightest : merge.frontier[merge.waiting - 1]? = some lightestNode := by rwa [many]
  rw [← holdsSecond.weight_eq, ← holdsLightest.weight_eq]
  rcases Nat.lt_or_ge (secondNode.weight + lightestNode.weight) UInt64.size with light | heavy
  · exact .inl ⟨light, exists_step foundLightest foundSecond (by omega) light⟩
  · exact .inr ⟨heavy, step_of_le foundLightest foundSecond (by omega) heavy⟩

/-- Steps merge as often as the forest allows. -/
theorem Represents.of_steps {merge last : Merge} {forest : Forest} {count : Nat}
    (represents : merge.Represents forest) (enough : count < forest.length)
    (ran : merge.steps count = .ok last) :
    last.Represents (Forest.mergeOnce^[count] forest) ∧ last.pool.size = merge.pool.size := by
  induction count generalizing merge forest with
  | zero => exact Except.ok.inj ran ▸ ⟨represents, rfl⟩
  | succ count ih =>
    match forest, represents, enough with
    | lightest :: second :: rest, represents, enough =>
      obtain ⟨next, stepped, later⟩ := bind_eq_ok_iff.mp ran
      obtain ⟨follows, size⟩ := represents.of_step stepped
      obtain ⟨reached, sizes⟩ := ih follows (by
        rw [Forest.length_mergeOnce]
        split <;> omega) later
      exact ⟨reached, sizes.trans size⟩

/-- Only the weights can stop a merge, and only when they are too heavy for a branch all together.
-/
theorem Represents.of_steps_eq_error {merge : Merge} {forest : Forest} {count : Nat} {fault : Fault}
    (represents : merge.Represents forest) (enough : count < forest.length)
    (refused : merge.steps count = .error fault) :
    fault = .sumOverflow ∧ UInt64.size ≤ forest.weight := by
  induction count generalizing merge forest with
  | zero => contradiction
  | succ count ih =>
    match forest, represents, enough with
    | lightest :: second :: rest, represents, enough =>
      rw [steps] at refused
      rcases represents.step_cases with ⟨_, next, stepped⟩ | ⟨heavy, stepped⟩
      · rw [stepped] at refused
        rw [← Forest.weight_mergeOnce]
        exact ih (represents.of_step stepped).1 (by
          rw [Forest.length_mergeOnce]
          split <;> omega) refused
      · rw [stepped] at refused
        refine ⟨(Except.error.inj refused).symm, ?_⟩
        simp only [Forest.weight, List.map_cons, List.sum_cons]
        omega

/-- Trees that are not too heavy for a branch all together are merged as often as the forest
allows. -/
theorem Represents.steps_ok {merge : Merge} {forest : Forest} {count : Nat}
    (represents : merge.Represents forest) (light : forest.weight < UInt64.size)
    (enough : count < forest.length) :
    ∃ last, merge.steps count = .ok last ∧ last.Represents (Forest.mergeOnce^[count] forest) ∧
      last.pool.size = merge.pool.size := by
  cases ran : merge.steps count with
  | error fault => exact absurd light (Nat.not_lt.mpr (represents.of_steps_eq_error enough ran).2)
  | ok last => exact ⟨last, rfl, represents.of_steps enough ran⟩

/-- Two trees and more that are too heavy for a branch all together are not merged to the end. -/
theorem Represents.steps_of_le {merge : Merge} {forest : Forest} {count : Nat}
    (represents : merge.Represents forest) (length : forest.length = count + 2)
    (heavy : UInt64.size ≤ forest.weight) :
    merge.steps (count + 1) = .error .sumOverflow := by
  induction count generalizing merge forest with
  | zero =>
    -- The last branch would carry all the weight there is.
    obtain ⟨lightest, second, rfl⟩ := List.length_eq_two.mp length
    rcases represents.step_cases with ⟨light, _⟩ | ⟨_, stepped⟩
    · simp only [Forest.weight, List.map_cons, List.sum_cons, List.map_nil, List.sum_nil] at heavy
      omega
    · rw [steps, stepped]
      rfl
  | succ count ih =>
    obtain ⟨lightest, others, rfl⟩ := List.exists_cons_of_length_eq_add_one length
    obtain ⟨second, rest, rfl⟩ :=
      List.exists_cons_of_length_eq_add_one (Nat.succ.inj ((List.length_cons).symm.trans length))
    rcases represents.step_cases with ⟨_, next, stepped⟩ | ⟨_, stepped⟩
    · rw [steps, stepped]
      apply ih (represents.of_step stepped).1
      · rw [Forest.length_mergeOnce]
        split <;> omega
      · rwa [Forest.weight_mergeOnce]
    · rw [steps, stepped]
      rfl

/-- A run on sorted leaves that are not too heavy all together never leaves its arrays and ends with
the merged tree of the leaves. -/
theorem run_ok {leaves : List Leaf} {pool : Slots Node} (filled : leaves ≠ [])
    (sorted : leaves.Pairwise fun first later => later.weight ≤ first.weight)
    (room : 2 * (leaves.length - 1) ≤ pool.size)
    (light : (leaves.map Leaf.weight).sum < UInt64.size) :
    ∃ last root tree, run (leaves.map Node.ofLeaf).toArray pool = .ok last ∧
      Forest.merge (leaves.reverse.map Tree.leaf) = some tree ∧
      Slots.fetch last.frontier 0 = .ok root ∧ root.Holds last.pool tree ∧
      last.pool.size = pool.size := by
  have positive : 0 < leaves.length := List.length_pos_iff.mpr filled
  have enough : leaves.length - 1 < (leaves.reverse.map Tree.leaf).length := by
    simp
    omega
  rw [← Forest.weight_map_leaf] at light
  obtain ⟨last, ran, represents, size⟩ := (initial_represents sorted room).steps_ok light enough
  have merged := Forest.merge_iterate_mergeOnce (leaves.reverse.map Tree.leaf) (leaves.length - 1)
  have single :
      (Forest.mergeOnce^[leaves.length - 1] (leaves.reverse.map Tree.leaf)).length = 1 := by
    rw [Forest.length_iterate_mergeOnce enough]
    simp
    omega
  obtain ⟨tree, only⟩ := List.length_eq_one_iff.mp single
  rw [only] at merged represents
  obtain ⟨root, atRoot, holds⟩ := represents.standsFor.exists_root
  exact ⟨last, root, tree, by simpa [run] using ran, by rw [← merged, Forest.merge], atRoot, holds,
    size⟩

/-- A run on two sorted leaves and more that are too heavy all together is refused. -/
theorem run_of_le {leaves : List Leaf} {pool : Slots Node} (many : 2 ≤ leaves.length)
    (sorted : leaves.Pairwise fun first later => later.weight ≤ first.weight)
    (room : 2 * (leaves.length - 1) ≤ pool.size)
    (heavy : UInt64.size ≤ (leaves.map Leaf.weight).sum) :
    run (leaves.map Node.ofLeaf).toArray pool = .error .sumOverflow := by
  obtain ⟨count, length⟩ := Nat.exists_eq_add_of_le' many
  have steps : (leaves.map Node.ofLeaf).toArray.size - 1 = count + 1 := by simp [length]
  rw [run, steps]
  apply (initial_represents sorted room).steps_of_le
  · simpa using length
  · rwa [Forest.weight_map_leaf]

end Merge

end CanonicalHuffman
