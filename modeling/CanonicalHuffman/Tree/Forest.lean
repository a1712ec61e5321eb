import CanonicalHuffman.Tree

/-!
# Merging a forest

A forest is a list of trees, lightest first. Merging takes the two lightest trees, joins them
under a branch and puts the joined tree behind every tree that does not weigh more, so that of
trees of equal weight the joined one is taken last. One tree is left in the end.
-/

namespace CanonicalHuffman

/-- Trees that wait to be merged, lightest first. -/
abbrev Forest := List Tree

namespace Forest

/-- Put a tree behind every tree that does not weigh more. -/
def insert (tree : Tree) : Forest → Forest
  | [] => [tree]
  | first :: rest =>
    if first.weight ≤ tree.weight then first :: insert tree rest else tree :: first :: rest

/-- Inserting a tree adds one tree. -/
@[simp] theorem length_insert (tree : Tree) (forest : Forest) :
    (insert tree forest).length = forest.length + 1 := by
  induction forest with
  | nil => rfl
  | cons first rest ih => rw [insert]; split <;> simp [ih]

/-- Inserting adds the tree and nothing else. -/
theorem insert_perm (tree : Tree) (forest : Forest) :
    (insert tree forest).Perm (tree :: forest) := by
  induction forest with
  | nil => rfl
  | cons first rest ih =>
    rw [insert]
    split
    · exact (ih.cons first).trans (List.Perm.swap tree first rest)
    · rfl

/-- Join the two lightest trees, the lighter one on the right. -/
def mergeOnce : Forest → Forest
  | lightest :: second :: rest => insert (.branch second lightest) rest
  | forest => forest

/-- The tree that is left when all trees of a forest are merged. -/
def merge : Forest → Option Tree
  | [] => none
  | [tree] => some tree
  | lightest :: second :: rest => merge (insert (.branch second lightest) rest)
termination_by forest => forest.length
decreasing_by simp

/-- A forest with a tree in it merges into a tree. -/
theorem isSome_merge (forest : Forest) (filled : forest ≠ []) : forest.merge.isSome := by
  fun_induction merge forest with
  | case1 => exact absurd rfl filled
  | case2 tree => rfl
  | case3 lightest second rest ih =>
    exact ih (by rw [ne_eq, ← List.length_eq_zero_iff, length_insert]; omega)

end Forest

/-- The forest of the leaves of a histogram. -/
def Histogram.forest (counts : Histogram) (floor : Nat) : Forest :=
  (counts.sortedLeaves floor).reverse.map Tree.leaf

/-- The tree of a histogram whose counts are raised to `floor`. There is none when no symbol is
used. -/
def Histogram.tree (counts : Histogram) (floor : Nat) : Option Tree := (counts.forest floor).merge

end CanonicalHuffman
