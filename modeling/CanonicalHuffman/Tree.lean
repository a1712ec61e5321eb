import CanonicalHuffman.Histogram

/-!
# Weighted binary trees

The leaves of a tree are the used symbols of a histogram, weighted with their counts. A leaf's
depth is the number of branches above it. The order on leaves puts the heavier first and, of two
that weigh the same, the higher symbol, so that it is total on leaves of different symbols.
-/

namespace CanonicalHuffman

attribute [local instance (20000)] Zero.ofOfNat0

/-- A symbol with its weight. That 64 bits hold the sum of weights is checked where trees are
joined. -/
structure Leaf where
  /-- The count of the symbol, raised to the floor of its round. -/
  weight : Nat
  /-- The position of the symbol in its alphabet. -/
  symbol : Nat
deriving DecidableEq, Repr

/-- Whether one leaf stands before another: it is heavier, or weighs the same and has no lower
symbol. -/
def Leaf.precedes (left right : Leaf) : Bool :=
  right.weight < left.weight ∨ (left.weight = right.weight ∧ right.symbol ≤ left.symbol)

/-- Heavier leaves come first, and of equally heavy ones the later symbol. -/
theorem Leaf.precedes_iff (left right : Leaf) : left.precedes right = true ↔
    right.weight < left.weight ∨ (left.weight = right.weight ∧ right.symbol ≤ left.symbol) := by
  simp [precedes]

/-- The order on leaves is total. -/
theorem Leaf.precedes_total (left right : Leaf) :
    (left.precedes right || right.precedes left) = true := by
  simp only [Bool.or_eq_true, precedes_iff]
  omega

/-- The order on leaves is transitive. -/
theorem Leaf.precedes_trans (first second third : Leaf) (before : first.precedes second)
    (after : second.precedes third) : first.precedes third := by
  rw [precedes_iff] at before after ⊢
  omega

/-- Two leaves that stand before each other are the same. -/
theorem Leaf.precedes_antisymm (left right : Leaf) (before : left.precedes right)
    (after : right.precedes left) : left = right := by
  rw [precedes_iff] at before after
  cases left
  cases right
  simp only [mk.injEq] at *
  omega

/-- The leaf of a used symbol, weighted with its count or with `floor`, whichever is more. -/
def Leaf.ofCount? (floor : Nat) (entry : UInt32 × Nat) : Option Leaf :=
  if entry.1 = 0 then none else some ⟨max entry.1.toNat floor, entry.2⟩

/-- The leaves of the used symbols of a histogram, in symbol order. -/
def Histogram.leaves (counts : Histogram) (floor : Nat) : List Leaf :=
  counts.zipIdx.filterMap (Leaf.ofCount? floor)

/-- The leaves of a histogram, heaviest first. -/
def Histogram.sortedLeaves (counts : Histogram) (floor : Nat) : List Leaf :=
  (counts.leaves floor).mergeSort Leaf.precedes

/-- Sorting keeps the leaves. -/
theorem Histogram.sortedLeaves_perm (counts : Histogram) (floor : Nat) :
    (counts.sortedLeaves floor).Perm (counts.leaves floor) :=
  List.mergeSort_perm _ _

/-- Sorted leaves stand in order. -/
theorem Histogram.sortedLeaves_pairwise (counts : Histogram) (floor : Nat) :
    (counts.sortedLeaves floor).Pairwise fun left right => left.precedes right = true :=
  List.pairwise_mergeSort Leaf.precedes_trans Leaf.precedes_total _

/-- There is one leaf per used symbol. -/
theorem Histogram.length_leaves (counts : Histogram) (floor : Nat) :
    (counts.leaves floor).length = counts.used := by
  suffices numbered : ∀ first,
      ((counts.zipIdx first).filterMap (Leaf.ofCount? floor)).length = counts.used from numbered 0
  induction counts with
  | nil => simp
  | cons count rest ih =>
    intro first
    by_cases zero : count = 0 <;> simp [used_cons, Leaf.ofCount?, zero, ih]

/-- Sorting keeps the number of leaves. -/
theorem Histogram.length_sortedLeaves (counts : Histogram) (floor : Nat) :
    (counts.sortedLeaves floor).length = counts.used :=
  (sortedLeaves_perm counts floor).length_eq.trans (length_leaves counts floor)

/-- A binary tree over weighted symbols. -/
inductive Tree where
  /-- A single symbol. -/
  | leaf (tip : Leaf)
  /-- Two trees under one branch. -/
  | branch (left right : Tree)
deriving DecidableEq, Repr

namespace Tree

/-- The sum of the weights of all leaves. -/
def weight : Tree → Nat
  | leaf tip => tip.weight
  | branch left right => left.weight + right.weight

/-- The leaves from left to right. -/
def leaves : Tree → List Leaf
  | leaf tip => [tip]
  | branch left right => left.leaves ++ right.leaves

/-- The depth of the deepest leaf. -/
def height : Tree → Nat
  | leaf _ => 0
  | branch left right => max left.height right.height + 1

/-- The leaves from left to right with their depths, where the root lies at `depth`. -/
def leafDepths (depth : Nat) : Tree → List (Leaf × Nat)
  | leaf tip => [(tip, depth)]
  | branch left right => left.leafDepths (depth + 1) ++ right.leafDepths (depth + 1)

/-- The weight of every leaf times its depth, summed up. -/
def cost (tree : Tree) : Nat := ((tree.leafDepths 0).map fun entry => entry.1.weight * entry.2).sum

/-- Every leaf has one depth. -/
@[simp] theorem map_fst_leafDepths (tree : Tree) (depth : Nat) :
    (tree.leafDepths depth).map Prod.fst = tree.leaves := by
  induction tree generalizing depth with
  | leaf tip => rfl
  | branch left right ihl ihr => simp [leafDepths, leaves, ihl, ihr]

/-- What has a depth is a leaf of the tree. -/
theorem mem_leaves_of_mem_leafDepths {tree : Tree} {depth : Nat} {entry : Leaf × Nat}
    (member : entry ∈ tree.leafDepths depth) : entry.1 ∈ tree.leaves := by
  rw [← map_fst_leafDepths tree depth]
  exact List.mem_map_of_mem member

end Tree

end CanonicalHuffman
