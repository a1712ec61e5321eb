import CanonicalHuffman.Tree.Walk

/-!
# What a walk writes

A walk of a node that stands for a tree visits the nodes of the tree once each. It writes the
depth of every leaf into the slot of the leaf's symbol, in the order of the leaves, touches no
other slot and never leaves its arrays, and its deepest depth is the height of the tree.
-/

namespace CanonicalHuffman

namespace Tree

/-- The number of nodes of a tree. -/
def nodeCount : Tree → Nat
  | leaf _ => 1
  | branch left right => left.nodeCount + right.nodeCount + 1

/-- A binary tree has one branch less than leaves. -/
theorem nodeCount_succ (tree : Tree) : tree.nodeCount + 1 = 2 * tree.leaves.length := by
  induction tree with
  | leaf tip => rfl
  | branch left right ihLeft ihRight =>
    rw [nodeCount, leaves, List.length_append]
    omega

/-- The leaves with their depths have the symbols of the leaves. -/
theorem map_symbol_leafDepths (tree : Tree) (depth : Nat) :
    (tree.leafDepths depth).map (fun entry => entry.1.symbol) = tree.leaves.map Leaf.symbol := by
  rw [← map_fst_leafDepths tree depth, List.map_map]
  rfl

end Tree

namespace Walk

/-- Write the depths of leaves into the slots of their symbols. -/
def writeAll (entries : List (Leaf × Nat)) (depths : Slots UInt8) : Slots UInt8 :=
  entries.foldl
    (fun depths entry => depths.setIfInBounds entry.1.symbol (writtenDepth entry.2)) depths

/-- Nothing is written for no leaves. -/
@[simp] theorem writeAll_nil (depths : Slots UInt8) : writeAll [] depths = depths := rfl

/-- The first leaf is written first. -/
@[simp] theorem writeAll_cons (entry : Leaf × Nat) (rest : List (Leaf × Nat))
    (depths : Slots UInt8) : writeAll (entry :: rest) depths =
      writeAll rest (depths.setIfInBounds entry.1.symbol (writtenDepth entry.2)) := rfl

/-- Leaves behind are written over those in front. -/
theorem writeAll_append (front back : List (Leaf × Nat)) (depths : Slots UInt8) :
    writeAll (front ++ back) depths = writeAll back (writeAll front depths) :=
  List.foldl_append

/-- Writing keeps the number of slots. -/
@[simp] theorem size_writeAll (entries : List (Leaf × Nat)) (depths : Slots UInt8) :
    (writeAll entries depths).size = depths.size := by
  induction entries generalizing depths with
  | nil => rfl
  | cons entry rest ih => rw [writeAll_cons, ih, Array.size_setIfInBounds]

/-- A slot that belongs to no leaf is left as it was. -/
theorem getElem?_writeAll_of_forall_ne {entries : List (Leaf × Nat)} {depths : Slots UInt8}
    {symbol : Nat} (apart : ∀ entry ∈ entries, entry.1.symbol ≠ symbol) :
    (writeAll entries depths)[symbol]? = depths[symbol]? := by
  induction entries generalizing depths with
  | nil => rfl
  | cons entry rest ih =>
    rw [List.forall_mem_cons] at apart
    rw [writeAll_cons, ih apart.2, Array.getElem?_setIfInBounds_ne apart.1]

/-- The slot of a leaf holds the leaf's depth when no two leaves share a symbol. -/
theorem getElem?_writeAll_of_mem {entries : List (Leaf × Nat)} {depths : Slots UInt8}
    {entry : Leaf × Nat} (distinct : (entries.map fun entry => entry.1.symbol).Nodup)
    (member : entry ∈ entries) (inside : entry.1.symbol < depths.size) :
    (writeAll entries depths)[entry.1.symbol]? = some (writtenDepth entry.2) := by
  induction entries generalizing depths with
  | nil => contradiction
  | cons first rest ih =>
    rw [List.map_cons, List.nodup_cons] at distinct
    rcases List.mem_cons.mp member with rfl | later
    · have apart : ∀ other ∈ rest, other.1.symbol ≠ entry.1.symbol := fun other found same =>
        distinct.1 (List.mem_map.mpr ⟨other, found, same⟩)
      rw [writeAll_cons, getElem?_writeAll_of_forall_ne apart,
        Array.getElem?_setIfInBounds_self_of_lt inside]
    · rw [writeAll_cons, ih distinct.2 later (by rwa [Array.size_setIfInBounds])]

/-- What is written over has no effect. -/
theorem writeAll_congr {entries : List (Leaf × Nat)} {depths other : Slots UInt8}
    (size : depths.size = other.size)
    (agree : ∀ symbol : Nat, (∀ entry ∈ entries, entry.1.symbol ≠ symbol) →
      depths[symbol]? = other[symbol]?) :
    writeAll entries depths = writeAll entries other := by
  induction entries generalizing depths other with
  | nil => exact Array.ext_getElem? fun symbol => agree symbol (fun _ member => nomatch member)
  | cons entry rest ih =>
    apply ih (by simpa using size)
    intro symbol apart
    by_cases own : entry.1.symbol = symbol
    · subst own
      simp only [Array.getElem?_setIfInBounds_self, size]
    · rw [Array.getElem?_setIfInBounds_ne own, Array.getElem?_setIfInBounds_ne own]
      exact agree symbol (List.forall_mem_cons.mpr ⟨own, apart⟩)

/-- Visiting a tree takes one step per node, writes its leaves and goes on with the stack below. -/
theorem steps_visit {pool : Slots Node} {node : Node} {tree : Tree} (holds : node.Holds pool tree)
    (depth further deepest : Nat) (stack : List (Node × Nat)) {depths : Slots UInt8}
    (inside : ∀ tip ∈ tree.leaves, tip.symbol < depths.size) :
    steps pool (tree.nodeCount + further) ⟨(node, depth) :: stack, depths, deepest⟩ =
      steps pool further ⟨stack, writeAll (tree.leafDepths depth) depths,
        max deepest (depth + tree.height)⟩ := by
  induction holds generalizing depth further deepest stack depths with
  | leaf tip =>
    have within : tip.symbol < depths.size := inside tip List.mem_cons_self
    rw [Tree.nodeCount, Nat.add_comm, steps, Node.ofLeaf, step, Slots.store_of_lt _ within]
    simp [Tree.leafDepths, Tree.height, Array.setIfInBounds, within, bind, Except.bind, pure,
      Except.pure]
  | @branch leftSlot rightSlot leftNode rightNode left right atLeft atRight _ _ ihLeft ihRight =>
    have insideLeft : ∀ tip ∈ left.leaves, tip.symbol < depths.size := fun tip member =>
      inside tip (List.mem_append_left _ member)
    have insideRight : ∀ tip ∈ right.leaves,
        tip.symbol < (writeAll (left.leafDepths (depth + 1)) depths).size := fun tip member => by
      rw [size_writeAll]
      exact inside tip (List.mem_append_right _ member)
    have count : (left.branch right).nodeCount + further =
        (left.nodeCount + (right.nodeCount + further)) + 1 := by
      rw [Tree.nodeCount]
      omega
    have deepen : max (max deepest (depth + 1 + left.height)) (depth + 1 + right.height) =
        max deepest (depth + (left.branch right).height) := by
      rw [Tree.height]
      omega
    rw [count, steps, step, Slots.fetch_eq_ok_iff.mpr atLeft, Slots.fetch_eq_ok_iff.mpr atRight]
    change steps pool (left.nodeCount + (right.nodeCount + further))
      ⟨(leftNode, depth + 1) :: (rightNode, depth + 1) :: stack, depths, deepest⟩ = _
    rw [ihLeft _ _ _ _ insideLeft, ihRight _ _ _ _ insideRight, deepen, Tree.leafDepths,
      writeAll_append]

/-- A walk with nothing to visit stays as it is. -/
theorem steps_of_stack_nil (pool : Slots Node) (count : Nat) (depths : Slots UInt8)
    (deepest : Nat) : steps pool count ⟨[], depths, deepest⟩ = .ok ⟨[], depths, deepest⟩ := by
  induction count with
  | zero => rfl
  | succ count ih => exact ih

/-- A walk of a tree whose nodes fit the pool ends, with all leaves written and the height found. -/
theorem run_ok {pool : Slots Node} {root : Node} {tree : Tree} {depths : Slots UInt8}
    (holds : root.Holds pool tree) (room : tree.nodeCount ≤ pool.size + 1)
    (inside : ∀ tip ∈ tree.leaves, tip.symbol < depths.size) :
    run root pool depths = .ok ⟨[], writeAll (tree.leafDepths 0) depths, tree.height⟩ := by
  obtain ⟨further, enough⟩ := Nat.exists_eq_add_of_le room
  have visited := steps_visit holds 0 further 0 [] inside
  rw [Nat.zero_max, Nat.zero_add, steps_of_stack_nil] at visited
  rw [run, initial, enough, visited]
  rfl

end Walk

end CanonicalHuffman
