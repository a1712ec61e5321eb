import CanonicalHuffman.Proofs.Flattening

/-!
# The steps of a walk

A walk keeps a stack of the subtrees it still has to visit. A step takes the one on top: a leaf is
written down and gone, a branch makes way for its two parts. So the leaves that are still to be
written are those of the subtrees on the stack, from the top down, and every step makes the nodes of
these subtrees one fewer. As each subtree has a leaf of its own, the stack never outgrows the
leaves. It is looked at between steps only, since a step that pushes two parts is at its highest
when it ends.

What a walk writes is read off its steps, and how deep a leaf lies off the pool: it is the number of
child slots on the way from the root to the leaf.
-/

namespace CanonicalHuffman

namespace Tree

/-- Every tree has a node. -/
theorem nodeCount_pos (tree : Tree) : 0 < tree.nodeCount := by
  cases tree <;> exact Nat.succ_pos _

/-- There are as many depths as leaves. -/
theorem length_leafDepths (tree : Tree) (depth : Nat) :
    (tree.leafDepths depth).length = tree.leaves.length := by
  rw [← map_fst_leafDepths tree depth, List.length_map]

end Tree

namespace Node

variable {pool : Slots Node} {node : Node} {tree : Tree}

/-- A node is reached from another one by following so many child slots. -/
inductive Reaches (pool : Slots Node) : Node → Nat → Node → Prop where
  /-- A node is reached from itself. -/
  | here (node : Node) : Reaches pool node 0 node
  /-- What a left child reaches is one slot further from its parent. -/
  | left {weight leftSlot rightSlot distance : Nat} {child target : Node}
      (atLeft : pool[leftSlot]? = some child) (onwards : Reaches pool child distance target) :
      Reaches pool (.branch weight leftSlot rightSlot) (distance + 1) target
  /-- What a right child reaches is one slot further from its parent. -/
  | right {weight leftSlot rightSlot distance : Nat} {child target : Node}
      (atRight : pool[rightSlot]? = some child) (onwards : Reaches pool child distance target) :
      Reaches pool (.branch weight leftSlot rightSlot) (distance + 1) target

/-- No tree stands at a slot that was never stored in. -/
theorem Holds.ne_vacant (holds : node.Holds pool tree) : node ≠ vacant := by
  cases holds <;> exact Node.noConfusion

/-- The distance of a leaf from a node is its depth in the tree that the node stands for. -/
theorem Holds.reaches_leaf_iff (holds : node.Holds pool tree) {tip : Leaf} (depth : Nat)
    {distance : Nat} :
    node.Reaches pool distance (ofLeaf tip) ↔ (tip, depth + distance) ∈ tree.leafDepths depth := by
  induction holds generalizing depth distance with
  | leaf own =>
    rw [Tree.leafDepths, List.mem_singleton, Prod.mk.injEq]
    constructor
    · intro reaches
      generalize target : ofLeaf tip = leaf at reaches
      cases reaches with
      | here =>
        rw [ofLeaf, ofLeaf, leaf.injEq] at target
        exact ⟨by rw [← Leaf.mk.injEq] at target; exact target, rfl⟩
    · rintro ⟨rfl, same⟩
      obtain rfl : distance = 0 := by omega
      exact .here _
  | @branch leftSlot rightSlot leftNode rightNode left right atLeft atRight _ _ ihLeft ihRight =>
    rw [Tree.leafDepths, List.mem_append]
    constructor
    · intro reaches
      generalize target : ofLeaf tip = leaf at reaches
      cases reaches with
      | here => contradiction
      | @left _ _ _ further _ _ found onwards =>
        subst target
        rw [atLeft, Option.some.injEq] at found
        subst found
        rw [Nat.add_comm further 1, ← Nat.add_assoc]
        exact .inl ((ihLeft _).mp onwards)
      | @right _ _ _ further _ _ found onwards =>
        subst target
        rw [atRight, Option.some.injEq] at found
        subst found
        rw [Nat.add_comm further 1, ← Nat.add_assoc]
        exact .inr ((ihRight _).mp onwards)
    · intro member
      have below : depth + 1 ≤ depth + distance := by
        rcases member with member | member <;> exact (Tree.depth_bounds member).1
      obtain ⟨further, rfl⟩ : ∃ further, distance = further + 1 := ⟨distance - 1, by omega⟩
      rw [Nat.add_comm further 1, ← Nat.add_assoc] at member
      rcases member with member | member
      · exact .left atLeft ((ihLeft _).mpr member)
      · exact .right atRight ((ihRight _).mpr member)

/-- A leaf whose symbol no other leaf has lies at one distance only. -/
theorem Holds.exists_distance (holds : node.Holds pool tree)
    (distinct : (tree.leaves.map Leaf.symbol).Nodup) {tip : Leaf} (member : tip ∈ tree.leaves) :
    ∃ depth, (tip, depth) ∈ tree.leafDepths 0 ∧
      ∀ distance, node.Reaches pool distance (ofLeaf tip) ↔ distance = depth := by
  rw [← Tree.map_fst_leafDepths tree 0] at member
  obtain ⟨⟨_, depth⟩, isEntry, rfl⟩ := List.mem_map.mp member
  rw [← Tree.map_symbol_leafDepths tree 0] at distinct
  refine ⟨depth, isEntry, fun distance => ?_⟩
  rw [holds.reaches_leaf_iff 0, Nat.zero_add]
  constructor
  · intro another
    exact congrArg Prod.snd (List.inj_on_of_nodup_map distinct another isEntry rfl)
  · rintro rfl
    exact isEntry

end Node

/-- Subtrees that are still to be visited, each with the depth of its root. -/
abbrev Pending := List (Tree × Nat)

namespace Pending

variable {pending : Pending}

/-- Visit the first subtree: a leaf is done with, a branch makes way for its two parts. -/
def visit : Pending → Pending
  | [] => []
  | (.leaf _, _) :: rest => rest
  | (.branch left right, depth) :: rest => (left, depth + 1) :: (right, depth + 1) :: rest

/-- The leaf that comes first, if the first subtree is one. -/
def first? : Pending → Option (Leaf × Nat)
  | (.leaf tip, depth) :: _ => some (tip, depth)
  | _ => none

/-- The leaves still to come, with their depths. -/
def leafDepths (pending : Pending) : List (Leaf × Nat) :=
  pending.flatMap fun part => part.1.leafDepths part.2

/-- The number of nodes still to come. -/
def nodeCount (pending : Pending) : Nat := (pending.map fun part => part.1.nodeCount).sum

/-- A visit takes the first leaf away and leaves the others in their order. -/
theorem leafDepths_eq (pending : Pending) :
    pending.leafDepths = pending.first?.toList ++ pending.visit.leafDepths := by
  match pending with
  | [] => rfl
  | (.leaf _, _) :: _ => rfl
  | (.branch left right, depth) :: rest => simp [leafDepths, first?, visit, Tree.leafDepths]

/-- A visit takes one node away. -/
theorem nodeCount_visit (pending : Pending) : pending.visit.nodeCount = pending.nodeCount - 1 := by
  match pending with
  | [] => rfl
  | (.leaf _, _) :: _ => simp [nodeCount, visit, Tree.nodeCount]
  | (.branch left right, depth) :: rest =>
    simp only [nodeCount, visit, Tree.nodeCount, List.map_cons, List.sum_cons]
    omega

/-- Every subtree has a node. -/
theorem nodeCount_eq_zero_iff : pending.nodeCount = 0 ↔ pending = [] := by
  match pending with
  | [] => simp [nodeCount]
  | (tree, depth) :: rest =>
    have positive := tree.nodeCount_pos
    simp only [nodeCount, List.map_cons, List.sum_cons, reduceCtorEq, iff_false]
    omega

/-- Every subtree has a leaf. -/
theorem length_le (pending : Pending) : pending.length ≤ pending.leafDepths.length := by
  induction pending with
  | nil => exact Nat.le_refl 0
  | cons part rest ih =>
    have positive := part.1.nodeCount_pos
    have twice := part.1.nodeCount_succ
    have split : (leafDepths (part :: rest)).length =
        (part.1.leafDepths part.2).length + (leafDepths rest).length := by
      rw [leafDepths, List.flatMap_cons, List.length_append]
      rfl
    rw [split, Tree.length_leafDepths, List.length_cons]
    omega

/-- Visits take as many nodes away. -/
theorem nodeCount_iterate_visit (pending : Pending) (count : Nat) :
    nodeCount (visit^[count] pending) = pending.nodeCount - count := by
  induction count with
  | zero => rfl
  | succ count ih => rw [Function.iterate_succ_apply', nodeCount_visit, ih, Nat.sub_sub]

/-- Visits bring no new leaves. -/
theorem length_leafDepths_iterate_visit_le (pending : Pending) (count : Nat) :
    (leafDepths (visit^[count] pending)).length ≤ pending.leafDepths.length := by
  induction count with
  | zero => exact Nat.le_refl _
  | succ count ih =>
    have split := congrArg List.length (leafDepths_eq (visit^[count] pending))
    rw [List.length_append] at split
    rw [Function.iterate_succ_apply']
    omega

end Pending

namespace Walk

variable {pool : Slots Node} {walk next last : Walk} {pending : Pending} {count : Nat}

/-- The slot that the next step writes and the depth it writes there, if a leaf is on top of the
stack. -/
def write? : Walk → Option (Nat × UInt8)
  | ⟨(.leaf _ symbol, depth) :: _, _, _⟩ => some (symbol, writtenDepth depth)
  | _ => none

/-- What the next steps write, in order. -/
def writes (pool : Slots Node) : Nat → Walk → List (Nat × UInt8)
  | 0, _ => []
  | count + 1, walk =>
    walk.write?.toList ++
      match walk.step pool with
      | .ok next => writes pool count next
      | .error _ => []

/-- The next steps write what the first of them writes and then what the others do. -/
theorem writes_succ (stepped : walk.step pool = .ok next) :
    writes pool (count + 1) walk = walk.write?.toList ++ writes pool count next := by
  rw [writes, stepped]

/-- A depth is written as it is, or as 255. -/
theorem toNat_writtenDepth_eq_min (depth : Nat) : (writtenDepth depth).toNat = min depth 255 := by
  rw [writtenDepth, Nat.toUInt8_eq, UInt8.toNat_ofNat']
  omega

/-- A step changes the slot that it writes and no other. -/
theorem depths_of_step (stepped : walk.step pool = .ok next) :
    next.depths = match walk.write? with
      | some (slot, depth) => walk.depths.setIfInBounds slot depth
      | none => walk.depths := by
  match walk, stepped with
  | ⟨[], _, _⟩, stepped => rw [← Except.ok.inj stepped]; rfl
  | ⟨(.leaf _ symbol, depth) :: stack, depths, deepest⟩, stepped =>
    obtain ⟨filled, stored, reached⟩ := bind_eq_ok_iff.mp stepped
    rw [← Except.ok.inj reached, ← (Slots.store_eq_ok_iff.mp stored).2]
    rfl
  | ⟨(.branch _ left right, depth) :: stack, depths, deepest⟩, stepped =>
    obtain ⟨_, _, later⟩ := bind_eq_ok_iff.mp stepped
    obtain ⟨_, _, reached⟩ := bind_eq_ok_iff.mp later
    rw [← Except.ok.inj reached]
    rfl

/-- A step keeps the number of slots. -/
theorem size_depths_of_step (stepped : walk.step pool = .ok next) :
    next.depths.size = walk.depths.size := by
  rw [depths_of_step stepped]
  split
  · exact Array.size_setIfInBounds
  · rfl

/-- A walk still has to visit the given subtrees. -/
structure Visits (pool : Slots Node) (walk : Walk) (pending : Pending) : Prop where
  /-- The nodes on the stack stand for the subtrees. -/
  holds : List.Forall₂ (fun entry part => entry.1.Holds pool part.1 ∧ entry.2 = part.2)
    walk.stack pending
  /-- The leaves to come have slots. -/
  inside : ∀ entry ∈ pending.leafDepths, entry.1.symbol < walk.depths.size

/-- The slot of a leaf and the depth that is written there. -/
def writeOf (entry : Leaf × Nat) : Nat × UInt8 := (entry.1.symbol, writtenDepth entry.2)

/-- Before the first step the whole tree is to be visited. -/
theorem initial_visits {root : Node} {tree : Tree} {depths : Slots UInt8}
    (holds : root.Holds pool tree) (inside : ∀ tip ∈ tree.leaves, tip.symbol < depths.size) :
    (initial root depths).Visits pool [(tree, 0)] where
  holds := .cons ⟨holds, rfl⟩ .nil
  inside := by
    intro entry member
    rw [Pending.leafDepths, List.flatMap_singleton] at member
    exact inside entry.1 (Tree.mem_leaves_of_mem_leafDepths member)

/-- A step visits the first subtree and writes its leaf, if it is one. -/
theorem Visits.step (visits : walk.Visits pool pending) :
    ∃ next, walk.step pool = .ok next ∧ next.Visits pool pending.visit ∧
      walk.write? = pending.first?.map writeOf := by
  suffices visited : ∃ next, walk.step pool = .ok next ∧ List.Forall₂
      (fun entry part => entry.1.Holds pool part.1 ∧ entry.2 = part.2) next.stack pending.visit ∧
      walk.write? = pending.first?.map writeOf by
    obtain ⟨next, stepped, holds, written⟩ := visited
    refine ⟨next, stepped, ⟨holds, fun entry member => ?_⟩, written⟩
    rw [size_depths_of_step stepped]
    apply visits.inside
    rw [Pending.leafDepths_eq]
    exact List.mem_append_right _ member
  obtain ⟨stack, depths, deepest⟩ := walk
  obtain ⟨holds, inside⟩ := visits
  cases holds with
  | nil => exact ⟨_, rfl, .nil, rfl⟩
  | @cons entry part stack rest stands below =>
    obtain ⟨node, depth⟩ := entry
    obtain ⟨tree, partDepth⟩ := part
    obtain ⟨holds, rfl⟩ := stands
    cases holds with
    | leaf tip =>
      have within : tip.symbol < depths.size := inside (tip, depth) List.mem_cons_self
      refine ⟨⟨stack, depths.set tip.symbol (writtenDepth depth), max deepest depth⟩, ?_, below,
        rfl⟩
      rw [Walk.step, Slots.store_of_lt _ within]
      rfl
    | @branch leftSlot rightSlot leftNode rightNode left right atLeft atRight holdsLeft
      holdsRight =>
      refine ⟨⟨(leftNode, depth + 1) :: (rightNode, depth + 1) :: stack, depths, deepest⟩, ?_,
        .cons ⟨holdsLeft, rfl⟩ (.cons ⟨holdsRight, rfl⟩ below), rfl⟩
      rw [Walk.step, Slots.fetch_eq_ok_iff.mpr atRight, Slots.fetch_eq_ok_iff.mpr atLeft]
      rfl

/-- Steps visit as often. -/
theorem Visits.steps (visits : walk.Visits pool pending) (count : Nat) :
    ∃ last, steps pool count walk = .ok last ∧
      last.Visits pool (Pending.visit^[count] pending) := by
  induction count generalizing walk pending with
  | zero => exact ⟨walk, rfl, visits⟩
  | succ count ih =>
    obtain ⟨next, stepped, follows, _⟩ := visits.step
    obtain ⟨last, ran, reached⟩ := ih follows
    exact ⟨last, by rw [Walk.steps, stepped]; exact ran, reached⟩

/-- In as many steps as there are nodes to come, all leaves to come are written once each. -/
theorem Visits.writes_eq (visits : walk.Visits pool pending) (enough : pending.nodeCount ≤ count) :
    writes pool count walk = pending.leafDepths.map writeOf := by
  induction count generalizing walk pending with
  | zero =>
    obtain rfl := Pending.nodeCount_eq_zero_iff.mp (Nat.le_zero.mp enough)
    rfl
  | succ count ih =>
    obtain ⟨next, stepped, follows, written⟩ := visits.step
    have fewer := pending.nodeCount_visit
    rw [writes_succ stepped, written, ih follows (by omega), Pending.leafDepths_eq pending,
      List.map_append]
    cases pending.first? <;> rfl

/-- Of the writes for leaves of different symbols one goes to the slot of each leaf. -/
theorem filter_map_writeOf {entries : List (Leaf × Nat)} {entry : Leaf × Nat}
    (distinct : (entries.map fun entry => entry.1.symbol).Nodup) (member : entry ∈ entries) :
    (entries.map writeOf).filter (fun write => write.1 = entry.1.symbol) = [writeOf entry] := by
  induction entries with
  | nil => contradiction
  | cons first rest ih =>
    rw [List.map_cons, List.nodup_cons] at distinct
    rcases List.mem_cons.mp member with rfl | later
    · have others : (rest.map writeOf).filter (fun write => write.1 = entry.1.symbol) = [] := by
        rw [List.filter_eq_nil_iff, List.forall_mem_map]
        intro other isOther
        rw [decide_eq_true_eq]
        exact fun same => distinct.1 (List.mem_map.mpr ⟨other, isOther, same⟩)
      rw [List.map_cons, List.filter_cons, if_pos (by simp [writeOf]), others]
    · have apart : (writeOf first).1 ≠ entry.1.symbol := fun same =>
        distinct.1 (List.mem_map.mpr ⟨entry, later, same.symm⟩)
      rw [List.map_cons, List.filter_cons_of_neg (by simpa using apart), ih distinct.2 later]

/-- What is on the stack of a walk through a tree after a number of steps. -/
theorem stack_of_initial {root : Node} {tree : Tree} {depths : Slots UInt8}
    (holds : root.Holds pool tree) (inside : ∀ tip ∈ tree.leaves, tip.symbol < depths.size)
    (count : Nat) :
    ∃ walk, steps pool count (initial root depths) = .ok walk ∧
      walk.stack.length ≤ tree.leaves.length ∧ (∀ entry ∈ walk.stack, entry.1 ≠ .vacant) ∧
      (walk.stack = [] ↔ tree.nodeCount ≤ count) := by
  obtain ⟨walk, ran, visits⟩ := (initial_visits holds inside).steps count
  let pending := Pending.visit^[count] [(tree, 0)]
  have length : walk.stack.length = pending.length := visits.holds.length_eq
  refine ⟨walk, ran, ?_, ?_, ?_⟩
  · have whole : (Pending.leafDepths [(tree, 0)]).length = tree.leaves.length := by
      rw [Pending.leafDepths, List.flatMap_singleton, Tree.length_leafDepths]
    calc
      walk.stack.length = pending.length := length
      _ ≤ (Pending.leafDepths pending).length := Pending.length_le pending
      _ ≤ tree.leaves.length := by
        rw [← whole]
        exact Pending.length_leafDepths_iterate_visit_le _ count
  · intro entry member
    obtain ⟨part, _, stands, _⟩ := exists_of_mem_left visits.holds member
    exact stands.ne_vacant
  · have left : Pending.nodeCount pending = tree.nodeCount - count :=
      Pending.nodeCount_iterate_visit [(tree, 0)] count
    rw [← List.length_eq_zero_iff, length, List.length_eq_zero_iff, ← Pending.nodeCount_eq_zero_iff]
    omega

/-- A walk through the tree that a merge made of leaves takes one step for each of its nodes. No
step is refused, the stack never holds more subtrees than there are leaves, none of them vacant, and
it is empty after the last step and no sooner. The slot of every leaf is written once, with the
distance of the leaf from the root or with 255 if that is less, and no other slot is written. The
depth that the walk reports is the greatest of the distances, whatever was written. -/
theorem run_writes_each_leaf_once {leaves : List Leaf} {pool : Slots Node} {depths : Slots UInt8}
    {merge : Merge} {root : Node} (distinct : (leaves.map Leaf.symbol).Nodup)
    (inside : ∀ tip ∈ leaves, tip.symbol < depths.size)
    (merged : Merge.run (leaves.map Node.ofLeaf).toArray pool = .ok merge)
    (atRoot : Slots.fetch merge.frontier 0 = .ok root) :
    (∀ count, ∃ walk, steps merge.pool count (initial root depths) = .ok walk ∧
      walk.stack.length ≤ leaves.length ∧ (∀ entry ∈ walk.stack, entry.1 ≠ .vacant) ∧
      (walk.stack = [] ↔ 2 * leaves.length - 1 ≤ count)) ∧
    ∃ last, run root merge.pool depths = .ok last ∧
      steps merge.pool (2 * leaves.length - 1) (initial root depths) = .ok last ∧
      (∀ tip ∈ leaves, ∃ depth,
        (∀ distance, root.Reaches merge.pool distance (.ofLeaf tip) ↔ distance = depth) ∧
        (writes merge.pool (2 * leaves.length - 1) (initial root depths)).filter
          (fun write => write.1 = tip.symbol) = [(tip.symbol, writtenDepth depth)] ∧
        (writtenDepth depth).toNat = min depth 255 ∧
        last.depths[tip.symbol]? = some (writtenDepth depth) ∧
        depth ≤ last.deepest) ∧
      (∃ tip ∈ leaves, root.Reaches merge.pool last.deepest (.ofLeaf tip)) ∧
      last.depths.size = depths.size ∧
      ∀ symbol, symbol ∉ leaves.map Leaf.symbol →
        (∀ write ∈ writes merge.pool (2 * leaves.length - 1) (initial root depths),
          write.1 ≠ symbol) ∧ last.depths[symbol]? = depths[symbol]? := by
  obtain ⟨tree, _, holds, perm, room⟩ := Merge.of_run_eq_ok merged atRoot
  have nodes : tree.nodeCount = 2 * leaves.length - 1 := by
    have twice := tree.nodeCount_succ
    rw [perm.length_eq] at twice
    omega
  have slots : ∀ tip ∈ tree.leaves, tip.symbol < depths.size := fun tip member =>
    inside tip (perm.mem_iff.mp member)
  have apart : (tree.leaves.map Leaf.symbol).Nodup := (perm.map Leaf.symbol).nodup_iff.mpr distinct
  have written : writes merge.pool (2 * leaves.length - 1) (initial root depths) =
      (tree.leafDepths 0).map writeOf := by
    rw [(initial_visits holds slots).writes_eq (Nat.le_of_eq nodes), Pending.leafDepths,
      List.flatMap_singleton]
  have ran := run_ok holds (by omega) slots
  have reached := steps_visit holds 0 0 0 [] slots
  rw [Nat.add_zero, nodes, Nat.zero_max, Nat.zero_add] at reached
  rw [written, ← nodes, ← perm.length_eq]
  refine ⟨stack_of_initial holds slots, _, ran, nodes ▸ reached, ?_, ?_, size_writeAll _ _, ?_⟩
  · intro tip member
    obtain ⟨depth, isEntry, distances⟩ := holds.exists_distance apart (perm.mem_iff.mpr member)
    rw [← Tree.map_symbol_leafDepths tree 0] at apart
    exact ⟨depth, distances, filter_map_writeOf apart isEntry, toNat_writtenDepth_eq_min depth,
      getElem?_writeAll_of_mem apart isEntry (inside tip member),
      by simpa using (Tree.depth_bounds isEntry).2⟩
  · obtain ⟨⟨tip, depth⟩, isEntry, deep⟩ := tree.exists_deepest 0
    obtain rfl : depth = 0 + tree.height := deep
    refine ⟨tip, perm.mem_iff.mp (Tree.mem_leaves_of_mem_leafDepths isEntry), ?_⟩
    exact (holds.reaches_leaf_iff 0).mpr isEntry
  · intro symbol unused
    have elsewhere : ∀ entry ∈ tree.leafDepths 0, entry.1.symbol ≠ symbol := by
      rintro entry member rfl
      exact unused
        (List.mem_map_of_mem (perm.mem_iff.mp (Tree.mem_leaves_of_mem_leafDepths member)))
    exact ⟨List.forall_mem_map.mpr elsewhere, getElem?_writeAll_of_forall_ne elsewhere⟩

/-- Four leaves that do not stand in order are merged into a chain of branches, over a pool that
held branches to slots it does not have. The walk overwrites the slots of the leaves, but not slot
4. -/
theorem run_writes_each_leaf_once_of_four_leaves :
    ∃ merge root last, Merge.run ([⟨8, 2⟩, ⟨9, 3⟩, ⟨1, 0⟩, ⟨2, 5⟩].map Node.ofLeaf).toArray
        (Array.replicate 7 (.branch 0 40 41)) = .ok merge ∧
      Slots.fetch merge.frontier 0 = .ok root ∧
      run root merge.pool #[9, 9, 9, 9, 9, 9] = .ok last ∧
      steps merge.pool 7 (initial root #[9, 9, 9, 9, 9, 9]) = .ok last ∧
      (∀ count, ∃ walk, steps merge.pool count (initial root #[9, 9, 9, 9, 9, 9]) = .ok walk ∧
        walk.stack.length ≤ 4) ∧
      root.Reaches merge.pool last.deepest (.ofLeaf ⟨1, 0⟩) ∧ last.deepest = 3 ∧
      last.depths[0]? = some 3 ∧ last.depths[4]? = some 9 := by
  obtain ⟨states, last, ran, reached, written, _, _, others⟩ :=
    @run_writes_each_leaf_once [⟨8, 2⟩, ⟨9, 3⟩, ⟨1, 0⟩, ⟨2, 5⟩]
      (Array.replicate 7 (.branch 0 40 41))
      #[9, 9, 9, 9, 9, 9] _ _ (by decide) (by decide) rfl rfl
  obtain ⟨depth, distances, _, _, atSlot, _⟩ := written ⟨1, 0⟩ (by decide)
  have deepest : last.deepest = 3 := by
    obtain rfl := Except.ok.inj ran
    rfl
  obtain rfl : 3 = depth :=
    (distances 3).mp (.left rfl (.right rfl (.left rfl (.here (.ofLeaf ⟨1, 0⟩)))))
  exact ⟨_, _, last, rfl, rfl, ran, reached, fun count => (states count).imp fun _ state =>
    ⟨state.1, state.2.1⟩, (distances _).mpr deepest, deepest, atSlot, (others 4 (by decide)).2⟩

end Walk

end CanonicalHuffman
