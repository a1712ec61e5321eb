import CanonicalHuffman.Tree.Arena

/-!
# Walking a tree in an arena

The walk visits every node of a tree, left before right, with a stack of the subtrees still to
visit. At a leaf it writes the depth into the slot of the leaf's symbol and remembers the deepest
one. A written depth takes one byte and stops at 255, which is more than any limit; the remembered
one is exact.
-/

namespace CanonicalHuffman

/-- The state of a walk. -/
structure Walk where
  /-- The subtrees to visit, each with its depth. -/
  stack : List (Node × Nat)
  /-- The depth of each symbol. -/
  depths : Slots UInt8
  /-- The depth of the deepest leaf visited. -/
  deepest : Nat
deriving Repr

namespace Walk

/-- Before the first step only the root is to be visited. -/
def initial (root : Node) (depths : Slots UInt8) : Walk where
  stack := [(root, 0)]
  depths := depths
  deepest := 0

/-- A depth as it is written. -/
def writtenDepth (depth : Nat) : UInt8 := (min depth 255).toUInt8

/-- Visit the node on top of the stack. -/
def step (pool : Slots Node) : Walk → Except Fault Walk
  | ⟨[], depths, deepest⟩ => .ok ⟨[], depths, deepest⟩
  | ⟨(.vacant, _) :: _, _, _⟩ => .error .vacantNode
  | ⟨(.leaf _ symbol, depth) :: stack, depths, deepest⟩ => do
    let depths ← Slots.store depths symbol (writtenDepth depth)
    return ⟨stack, depths, max deepest depth⟩
  | ⟨(.branch _ left right, depth) :: stack, depths, deepest⟩ => do
    let rightNode ← Slots.fetch pool right
    let leftNode ← Slots.fetch pool left
    return ⟨(leftNode, depth + 1) :: (rightNode, depth + 1) :: stack, depths, deepest⟩

/-- Take a number of steps. -/
def steps (pool : Slots Node) : Nat → Walk → Except Fault Walk
  | 0, walk => .ok walk
  | count + 1, walk => do steps pool count (← walk.step pool)

/-- Walk a whole tree. The root and the nodes of the pool are visited once each, so a stack that
is not empty by then belongs to no tree. -/
def run (root : Node) (pool : Slots Node) (depths : Slots UInt8) : Except Fault Walk := do
  let walk ← steps pool (pool.size + 1) (initial root depths)
  if walk.stack = [] then return walk else throw .endlessWalk

end Walk

end CanonicalHuffman
