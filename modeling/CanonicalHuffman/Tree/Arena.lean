import CanonicalHuffman.Slots
import CanonicalHuffman.Tree

/-!
# Merging in place

The merge of a forest on two arrays of nodes. The frontier holds the trees that wait, heaviest
first; the pool holds the nodes that were taken from the frontier, and a branch names the pool slots
of its two children. Each step moves the two lightest trees of the frontier into the pool and puts a
branch over them before the first waiting tree that is not heavier. A weight takes 64 bits, so a
branch that would be heavier than that is a fault.

Pool slots are used in order and never twice, so what a pool held before a merge has no effect.
`Node.Holds` says which tree a node stands for.
-/

namespace CanonicalHuffman

/-- A slot of an arena. -/
inductive Node where
  /-- No node has been stored here. -/
  | vacant
  /-- A symbol. -/
  | leaf (weight symbol : Nat)
  /-- A branch over the nodes in two pool slots. -/
  | branch (weight left right : Nat)
deriving DecidableEq, Repr

namespace Node

/-- The weight of the tree under a node. -/
def weight : Node → Nat
  | vacant => 0
  | leaf weight _ => weight
  | branch weight _ _ => weight

/-- The node of a leaf. -/
def ofLeaf (tip : Leaf) : Node := leaf tip.weight tip.symbol

/-- Put a branch over two nodes in the given slots. It weighs as much as both together. -/
def join (left right : Node) (leftSlot rightSlot : Nat) : Except Fault Node := do
  return branch (← addWords left.weight right.weight) leftSlot rightSlot

/-- Two nodes are joined when 64 bits hold the sum of their weights. -/
@[simp] theorem join_eq_ok_iff {left right joined : Node} {leftSlot rightSlot : Nat} :
    join left right leftSlot rightSlot = .ok joined ↔
      left.weight + right.weight < UInt64.size ∧
        branch (left.weight + right.weight) leftSlot rightSlot = joined := by
  simp only [join, bind_eq_ok_iff, addWords_eq_ok_iff, pure, Except.pure, Except.ok.injEq,
    and_assoc, exists_and_left, exists_eq_left']

/-- Two nodes of more weight than 64 bits hold are not joined. -/
theorem join_of_le {left right : Node} {leftSlot rightSlot : Nat}
    (heavy : UInt64.size ≤ left.weight + right.weight) :
    join left right leftSlot rightSlot = .error .sumOverflow := by
  rw [join, addWords_of_le heavy]
  rfl

/-- A node stands for a tree when it carries the tree's weight, a leaf names the tree's symbol,
and the two pool slots of a branch stand for the tree's two parts. -/
inductive Holds (pool : Slots Node) : Node → Tree → Prop where
  /-- A leaf stands for its symbol. -/
  | leaf (tip : Leaf) : Holds pool (ofLeaf tip) (.leaf tip)
  /-- A branch stands for the trees in its two slots. -/
  | branch {leftSlot rightSlot : Nat} {leftNode rightNode : Node} {left right : Tree}
      (atLeft : pool[leftSlot]? = some leftNode) (atRight : pool[rightSlot]? = some rightNode)
      (holdsLeft : Holds pool leftNode left) (holdsRight : Holds pool rightNode right) :
      Holds pool (.branch (left.weight + right.weight) leftSlot rightSlot) (.branch left right)

/-- The weight of a node is the weight of its tree. -/
theorem Holds.weight_eq {pool : Slots Node} {node : Node} {tree : Tree}
    (holds : Holds pool node tree) : node.weight = tree.weight := by
  cases holds <;> rfl

end Node

/-- The state of a merge. -/
structure Merge where
  /-- The trees that wait, heaviest first, in the first `waiting` slots. -/
  frontier : Slots Node
  /-- The trees that were taken, in the first `taken` slots. -/
  pool : Slots Node
  /-- The number of trees that wait. -/
  waiting : Nat
  /-- The number of pool slots in use. -/
  taken : Nat
deriving Repr

namespace Merge

/-- Before the first step every tree waits and no pool slot is in use. -/
def initial (frontier pool : Slots Node) : Merge where
  frontier := frontier
  pool := pool
  waiting := frontier.size
  taken := 0

/-- The first place from `place` on, out of `count`, at which no heavier tree stands. -/
def placeFrom (frontier : Slots Node) (weight place : Nat) : (count : Nat) → Nat
  | 0 => place
  | count + 1 =>
    match frontier[place]? with
    | none => place
    | some node =>
      if node.weight ≤ weight then place else placeFrom frontier weight (place + 1) count

/-- Put a node before the first of the `waiting` trees that is not heavier: write it behind them and
bring it down to its place. -/
def insert (frontier : Slots Node) (waiting : Nat) (node : Node) : Except Fault (Slots Node) := do
  let place := placeFrom frontier node.weight 0 waiting
  let frontier ← Slots.store frontier waiting node
  return Slots.bringDown frontier place (waiting - place)

/-- Join the two lightest trees under a branch, the lighter one on the right. -/
def step : Merge → Except Fault Merge
  | ⟨frontier, pool, waiting, taken⟩ => do
    let lightest ← Slots.fetch frontier (waiting - 1)
    let second ← Slots.fetch frontier (waiting - 2)
    let pool ← Slots.store pool taken lightest
    let pool ← Slots.store pool (taken + 1) second
    let joined ← Node.join second lightest (taken + 1) taken
    let frontier ← insert frontier (waiting - 2) joined
    return ⟨frontier, pool, waiting - 1, taken + 2⟩

/-- Take a number of steps. -/
def steps : Nat → Merge → Except Fault Merge
  | 0, merge => .ok merge
  | count + 1, merge => do steps count (← merge.step)

/-- Merge until one tree is left. -/
def run (frontier pool : Slots Node) : Except Fault Merge :=
  (initial frontier pool).steps (frontier.size - 1)

/-- The place lies among the trees that are looked at, or behind them. -/
theorem placeFrom_le (frontier : Slots Node) (weight place count : Nat) :
    placeFrom frontier weight place count ≤ place + count := by
  induction count generalizing place with
  | zero => exact Nat.le_refl _
  | succ count ih =>
    rw [placeFrom]
    split
    · omega
    · split
      · omega
      · have := ih (place + 1)
        omega

/-- The tree at the place is not heavier, unless the place is behind all trees looked at. -/
theorem weight_le_of_placeFrom {frontier : Slots Node} {weight place count : Nat} {node : Node}
    (within : placeFrom frontier weight place count < place + count)
    (found : frontier[placeFrom frontier weight place count]? = some node) :
    node.weight ≤ weight := by
  induction count generalizing place with
  | zero => exact absurd within (Nat.lt_irrefl _)
  | succ count ih =>
    rw [placeFrom] at within found
    split at found
    · next missing => simp [missing] at found
    · next present =>
      split at found
      · next light => simp_all
      · next heavy =>
        rw [present] at within
        simp only [heavy, if_false] at within
        exact ih (by omega) found

/-- Every tree before the place is heavier. -/
theorem lt_weight_of_lt_placeFrom {frontier : Slots Node} {weight place count position : Nat}
    {node : Node} (after : place ≤ position)
    (before : position < placeFrom frontier weight place count)
    (found : frontier[position]? = some node) : weight < node.weight := by
  induction count generalizing place with
  | zero => exact absurd before (Nat.not_lt.mpr after)
  | succ count ih =>
    rw [placeFrom] at before
    split at before
    · exact absurd before (Nat.not_lt.mpr after)
    · next present =>
      split at before
      · exact absurd before (Nat.not_lt.mpr after)
      · next heavy =>
        by_cases first : position = place
        · subst first
          rw [present, Option.some.injEq] at found
          subst found
          exact Nat.lt_of_not_le heavy
        · exact ih (by omega) before

end Merge

end CanonicalHuffman
