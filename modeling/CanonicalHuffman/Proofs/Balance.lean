import CanonicalHuffman.Proofs.Merging
import Mathlib.Algebra.Ring.Nat

/-!
# Level forests merge into balanced trees

A forest is level when no tree outweighs the two lightest together. The joined tree of a level
forest is then the heaviest one and goes to the end, so merging is a queue: trees are taken at the
front and joined trees appended at the back. Starting from leaves, the heights in the queue never
differ by more than one, and the tree that is left is as shallow as its number of leaves allows.
-/

namespace CanonicalHuffman

namespace Forest

/-- No tree outweighs the two lightest trees together. -/
def Level (forest : Forest) : Prop :=
  ∀ lightest second rest, forest = lightest :: second :: rest →
    ∀ tree ∈ forest, tree.weight ≤ lightest.weight + second.weight

/-- In a level forest the joined tree goes to the end. -/
theorem Level.mergeOnce_eq {lightest second : Tree} {rest : Forest}
    (level : Level (lightest :: second :: rest)) :
    mergeOnce (lightest :: second :: rest) = rest ++ [.branch second lightest] := by
  have lighter : ∀ other ∈ rest, other.weight ≤ (Tree.branch second lightest).weight := by
    intro other member
    have bound := level lightest second rest rfl other
      (List.mem_cons_of_mem _ (List.mem_cons_of_mem _ member))
    rw [Tree.weight]
    omega
  have behind : ∀ other ∈ ([] : Forest), (Tree.branch second lightest).weight < other.weight :=
    fun _ member => absurd member List.not_mem_nil
  simpa [mergeOnce] using insert_append lighter behind

/-- Merging once keeps a sorted forest level. -/
theorem Level.mergeOnce {forest : Forest} (sorted : forest.Sorted) (level : forest.Level) :
    forest.mergeOnce.Level := by
  match forest, sorted, level with
  | [], _, level => exact level
  | [tree], _, level => exact level
  | lightest :: second :: rest, sorted, level =>
    rw [level.mergeOnce_eq]
    have bound := level lightest second rest rfl
    intro nextLightest nextSecond nextRest split tree member
    match rest, split with
    | [], split => simp at split
    | [only], split =>
      obtain ⟨rfl, rfl, rfl⟩ : only = nextLightest ∧ .branch second lightest = nextSecond ∧
          [] = nextRest := by simpa using split
      simp only [List.cons_append, List.nil_append, List.mem_cons, List.not_mem_nil,
        or_false] at member
      rcases member with rfl | rfl <;> omega
    | third :: fourth :: others, split =>
      obtain ⟨rfl, rfl, _⟩ : third = nextLightest ∧ fourth = nextSecond ∧
          others ++ [.branch second lightest] = nextRest := by simpa using split
      -- the next pair weighs at least as much as the pair just joined, which outweighs every tree
      simp only [Sorted, List.pairwise_cons, List.mem_cons] at sorted
      have heavierThird := sorted.1 third (by simp)
      have heavierFourth := sorted.2.1 fourth (by simp)
      have pair : lightest.weight + second.weight ≤ third.weight + fourth.weight := by omega
      rcases List.mem_append.mp member with old | new
      · have := bound tree (List.mem_cons_of_mem _ (List.mem_cons_of_mem _ old))
        omega
      · rw [List.mem_singleton.mp new, Tree.weight]
        omega

/-- Heights never fall along the forest, and the first tree is at most one lower than any other. -/
structure Even (forest : Forest) : Prop where
  /-- Heights do not fall. -/
  rising : forest.Pairwise fun first later => first.height ≤ later.height
  /-- The first tree is at most one lower than any other. -/
  close : ∀ first ∈ forest.head?, ∀ tree ∈ forest, tree.height ≤ first.height + 1

/-- The number of leaves of complete trees with the heights of a forest. -/
def capacity (forest : Forest) : Nat := (forest.map fun tree => 2 ^ tree.height).sum

/-- Joining the first two trees of an even forest at the end keeps it even. -/
theorem Even.join {lightest second : Tree} {rest : Forest}
    (even : Even (lightest :: second :: rest)) :
    Even (rest ++ [.branch second lightest]) := by
  have rising := even.rising
  have close := even.close lightest rfl
  simp only [List.pairwise_cons, List.mem_cons] at rising
  have higherSecond := rising.1 second (by simp)
  have closeSecond := close second (by simp)
  have height : (Tree.branch second lightest).height = second.height + 1 := by
    rw [Tree.height]
    omega
  constructor
  · refine List.pairwise_append.mpr ⟨rising.2.2, List.pairwise_singleton _ _, ?_⟩
    intro tree member joined isJoined
    rw [List.mem_singleton.mp isJoined, height]
    have := close tree (by simp [member])
    omega
  · intro first isFirst tree member
    match rest, isFirst with
    | [], isFirst => simp_all
    | third :: others, isFirst =>
      obtain rfl : third = first := by simpa using isFirst
      have higherThird := rising.2.1 third (by simp)
      rcases List.mem_append.mp member with old | new
      · have := close tree (by simp [old])
        omega
      · rw [List.mem_singleton.mp new, height]
        omega

/-- A tree in front adds the leaves that its height has room for. -/
@[simp] theorem capacity_cons (tree : Tree) (rest : Forest) :
    capacity (tree :: rest) = 2 ^ tree.height + capacity rest := by
  simp [capacity]

/-- Two forests have room for the leaves of both. -/
@[simp] theorem capacity_append (front back : Forest) :
    capacity (front ++ back) = capacity front + capacity back := by
  simp [capacity]

/-- Trees of one height have the capacity of that many complete trees. -/
theorem capacity_eq_mul {forest : Forest} {height : Nat}
    (same : ∀ tree ∈ forest, tree.height = height) :
    capacity forest = forest.length * 2 ^ height := by
  induction forest with
  | nil => simp [capacity]
  | cons tree rest ih =>
    rw [List.forall_mem_cons] at same
    rw [capacity_cons, ih same.2, same.1, List.length_cons, Nat.succ_mul, Nat.add_comm]

/-- Half a unit more than `count` units below a power of two leaves room for a whole unit more. -/
theorem succ_mul_two_pow_le {low count limit : Nat}
    (bound : 2 ^ low + (count + 1) * 2 ^ (low + 1) ≤ 2 ^ limit) :
    (count + 2) * 2 ^ (low + 1) ≤ 2 ^ limit := by
  have positive : 0 < 2 ^ low := Nat.two_pow_pos low
  have unit : 2 ^ (low + 1) = 2 * 2 ^ low := by rw [Nat.pow_succ, Nat.mul_comm]
  have below : low < limit := by
    refine (Nat.pow_lt_pow_iff_right (by decide)).mp (Nat.lt_of_lt_of_le ?_ bound)
    have : 2 ^ (low + 1) ≤ (count + 1) * 2 ^ (low + 1) := Nat.le_mul_of_pos_left _ (by omega)
    omega
  obtain ⟨units, rfl⟩ := Nat.exists_eq_add_of_lt below
  have total : 2 ^ (low + units + 1) = 2 ^ units * 2 ^ (low + 1) := by
    rw [← Nat.pow_add]
    congr 1
    omega
  rw [total] at bound ⊢
  apply Nat.mul_le_mul_right
  -- otherwise the half unit does not fit
  by_contra few
  have crowded : 2 ^ units * 2 ^ (low + 1) ≤ (count + 1) * 2 ^ (low + 1) :=
    Nat.mul_le_mul_right _ (by omega)
  omega

/-- Joining the first two trees of an even forest does not make it outgrow a complete tree. -/
theorem Even.capacity_join {lightest second : Tree} {rest : Forest} {limit : Nat}
    (even : Even (lightest :: second :: rest))
    (fits : capacity (lightest :: second :: rest) ≤ 2 ^ limit) :
    capacity (rest ++ [.branch second lightest]) ≤ 2 ^ limit := by
  have rising := even.rising
  have close := even.close lightest rfl
  simp only [List.pairwise_cons, List.mem_cons] at rising
  have higherSecond := rising.1 second (by simp)
  have closeSecond := close second (by simp)
  have height : (Tree.branch second lightest).height = second.height + 1 := by
    rw [Tree.height]
    omega
  have joined : capacity (rest ++ [.branch second lightest]) =
      capacity rest + 2 ^ (second.height + 1) := by
    rw [capacity_append, capacity_cons, height]
    simp [capacity]
  rw [capacity_cons, capacity_cons] at fits
  rw [joined]
  by_cases same : second.height = lightest.height
  · rw [same] at fits ⊢
    rw [Nat.pow_succ]
    omega
  · have higher : second.height = lightest.height + 1 := by omega
    have others : ∀ tree ∈ rest, tree.height = lightest.height + 1 := by
      intro tree member
      have := rising.2.1 tree member
      have := close tree (by simp [member])
      omega
    rw [capacity_eq_mul others, higher] at fits
    rw [capacity_eq_mul others, higher]
    have room : (rest.length + 2) * 2 ^ (lightest.height + 1) ≤ 2 ^ limit := by
      apply succ_mul_two_pow_le
      rw [Nat.succ_mul]
      omega
    rw [Nat.pow_succ 2 (lightest.height + 1)]
    rw [Nat.add_mul] at room
    omega

/-- Merging a level, even forest leaves a tree no higher than its capacity asks for. -/
theorem height_le_of_level {forest : Forest} {limit : Nat} {tree : Tree} (sorted : forest.Sorted)
    (level : forest.Level) (even : forest.Even) (fits : forest.capacity ≤ 2 ^ limit)
    (merged : forest.merge = some tree) : tree.height ≤ limit := by
  fun_induction merge forest with
  | case1 => contradiction
  | case2 only =>
    obtain rfl := Option.some.inj merged
    apply (Nat.pow_le_pow_iff_right (by decide : 1 < 2)).mp
    simpa [capacity] using fits
  | case3 lightest second rest ih =>
    have queued := level.mergeOnce_eq
    rw [mergeOnce] at queued
    have nextSorted := sorted.mergeOnce
    have nextLevel := level.mergeOnce sorted
    rw [mergeOnce] at nextSorted nextLevel
    refine ih nextSorted nextLevel ?_ ?_ merged
    · rw [queued]
      exact even.join
    · rw [queued]
      exact even.capacity_join fits

/-- Sorted leaves, none of which outweighs the two lightest together, merge into a tree no higher
than their number asks for. -/
theorem height_le_of_leaves {leaves : List Leaf} {limit : Nat} {tree : Tree}
    (sorted : leaves.Pairwise fun first later => first.weight ≤ later.weight)
    (level : Level (leaves.map Tree.leaf)) (fits : leaves.length ≤ 2 ^ limit)
    (merged : merge (leaves.map Tree.leaf) = some tree) : tree.height ≤ limit := by
  have flat : ∀ other ∈ leaves.map Tree.leaf, other.height = 0 := by
    intro other member
    obtain ⟨tip, _, rfl⟩ := List.mem_map.mp member
    rfl
  have even : Even (leaves.map Tree.leaf) := by
    constructor
    · exact List.pairwise_map.mpr (List.pairwise_of_forall fun _ _ => Nat.le_refl _)
    · intro first _ other member
      rw [flat other member]
      exact Nat.zero_le _
  refine height_le_of_level (List.pairwise_map.mpr sorted) level even ?_ merged
  simpa [capacity_eq_mul flat] using fits

end Forest

end CanonicalHuffman
