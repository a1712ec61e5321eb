import CanonicalHuffman.Proofs.Cutting
import CanonicalHuffman.Proofs.Flattening
import Mathlib.Data.Nat.Fib.Basic

/-!
# High trees are heavy

Each tree of a forest was joined from two parts that were the lightest of their time, so no part
outweighs a tree that still waits. When two trees are joined, the higher one has a part that is only
one level lower, and the other tree weighs no less than that part. Hence the least weights of trees
grow from height to height like the Fibonacci numbers, whatever the order in which trees are merged,
and a histogram with a small total has a low tree.
-/

namespace CanonicalHuffman

namespace Tree

/-- The two trees under the topmost branch. -/
def parts : Tree → List Tree
  | leaf _ => []
  | branch left right => [left, right]

/-- A tree weighs at least the Fibonacci number that is two places behind its height. -/
def Heavy (tree : Tree) : Prop := Nat.fib (tree.height + 2) ≤ tree.weight

/-- A tree has no more leaves than a complete tree of its height. -/
theorem length_leaves_le (tree : Tree) : tree.leaves.length ≤ 2 ^ tree.height := by
  induction tree with
  | leaf tip => exact Nat.le_refl _
  | branch left right ihLeft ihRight =>
    have widerLeft : 2 ^ left.height ≤ 2 ^ max left.height right.height :=
      Nat.pow_le_pow_right (by decide) (Nat.le_max_left ..)
    have widerRight : 2 ^ right.height ≤ 2 ^ max left.height right.height :=
      Nat.pow_le_pow_right (by decide) (Nat.le_max_right ..)
    rw [leaves, List.length_append, height, Nat.pow_succ]
    omega

/-- What outweighs the heavy parts of a tree weighs at least the Fibonacci number that is one place
behind the height of the tree. -/
theorem fib_height_succ_le {tree : Tree} {weight : Nat} (positive : 0 < weight)
    (heavy : ∀ part ∈ tree.parts, part.Heavy) (light : ∀ part ∈ tree.parts, part.weight ≤ weight) :
    Nat.fib (tree.height + 1) ≤ weight := by
  cases tree with
  | leaf tip => exact positive
  | branch left right =>
    simp only [parts, List.forall_mem_cons] at heavy light
    rw [height]
    rcases Nat.le_total left.height right.height with higher | higher
    · rw [Nat.max_eq_right higher]
      exact Nat.le_trans heavy.2.1 light.2.1
    · rw [Nat.max_eq_left higher]
      exact Nat.le_trans heavy.1 light.1

/-- Joining two heavy trees gives a heavy tree, when neither has a part that outweighs the other. -/
theorem Heavy.branch {left right : Tree} (heavyLeft : left.Heavy) (heavyRight : right.Heavy)
    (nextLeft : Nat.fib (left.height + 1) ≤ right.weight)
    (nextRight : Nat.fib (right.height + 1) ≤ left.weight) : (Tree.branch left right).Heavy := by
  unfold Heavy at *
  rw [height, weight, Nat.fib_add_two]
  rcases Nat.le_total left.height right.height with higher | higher
  · rw [Nat.max_eq_right higher]
    exact Nat.add_le_add nextRight heavyRight
  · rw [Nat.max_eq_left higher]
    exact (Nat.add_le_add nextLeft heavyLeft).trans_eq (Nat.add_comm ..)

/-- A tree weighs what its leaves weigh. -/
theorem sum_weight_leaves (tree : Tree) : (tree.leaves.map Leaf.weight).sum = tree.weight := by
  induction tree with
  | leaf tip => simp [leaves, weight]
  | branch left right ihLeft ihRight =>
    rw [leaves, List.map_append, List.sum_append, ihLeft, ihRight, weight]

end Tree

namespace Forest

variable {forest : Forest} {tree : Tree}

/-- All trees of a forest and their parts are heavy. -/
def Heavy (forest : Forest) : Prop :=
  ∀ tree ∈ forest, tree.Heavy ∧ ∀ part ∈ tree.parts, part.Heavy

/-- No part of a tree in a ranked forest outweighs a tree of the forest. -/
theorem Ranked.weight_part_le (ranked : forest.Ranked) {part other : Tree} (member : tree ∈ forest)
    (isPart : part ∈ tree.parts) (isOther : other ∈ forest) : part.weight ≤ other.weight := by
  cases tree with
  | leaf tip => contradiction
  | branch left right =>
    obtain ⟨leftBefore, rightBefore⟩ := ranked.parts left right member other isOther
    simp only [Tree.parts, List.mem_cons, List.not_mem_nil, or_false] at isPart
    unfold Tree.RankedBefore at leftBefore rightBefore
    rcases isPart with rfl | rfl <;> omega

/-- A tree of a heavy, ranked forest weighs at least the Fibonacci number that is one place behind
the height of another one. -/
theorem Heavy.fib_height_succ_le (heavy : forest.Heavy) (ranked : forest.Ranked) {other : Tree}
    (member : tree ∈ forest) (isOther : other ∈ forest) :
    Nat.fib (tree.height + 1) ≤ other.weight := by
  apply Tree.fib_height_succ_le
  · exact Nat.lt_of_lt_of_le (Nat.fib_pos.mpr (Nat.succ_pos _)) (heavy other isOther).1
  · exact (heavy tree member).2
  · exact fun part isPart => ranked.weight_part_le member isPart isOther

/-- Joining the two lightest trees keeps a ranked forest heavy. -/
theorem Heavy.insert_joined {lightest second : Tree} {rest : Forest}
    (heavy : Heavy (lightest :: second :: rest)) (ranked : Ranked (lightest :: second :: rest)) :
    Heavy (rest.insert (.branch second lightest)) := by
  have first : lightest ∈ lightest :: second :: rest := List.mem_cons_self
  have next : second ∈ lightest :: second :: rest := List.mem_cons_of_mem _ List.mem_cons_self
  intro tree member
  rcases List.mem_cons.mp ((insert_perm _ rest).mem_iff.mp member) with rfl | waits
  · constructor
    · exact (heavy second next).1.branch (heavy lightest first).1
        (heavy.fib_height_succ_le ranked next first) (heavy.fib_height_succ_le ranked first next)
    · simp only [Tree.parts, List.forall_mem_cons]
      exact ⟨(heavy second next).1, (heavy lightest first).1, by simp⟩
  · exact heavy tree (List.mem_cons_of_mem _ (List.mem_cons_of_mem _ waits))

/-- The merged tree of a heavy, ranked forest is heavy. -/
theorem Heavy.merge (heavy : forest.Heavy) (ranked : forest.Ranked)
    (merged : forest.merge = some tree) : tree.Heavy := by
  fun_induction Forest.merge forest with
  | case1 => contradiction
  | case2 only =>
    obtain rfl := Option.some.inj merged
    exact (heavy only List.mem_cons_self).1
  | case3 lightest second rest ih =>
    exact ih (heavy.insert_joined ranked) ranked.insert_joined merged

end Forest

namespace Histogram

variable {counts : Histogram} {tree : Tree} {limit : Nat}

/-- The leaves of a histogram are heavy trees of height zero. -/
theorem heavy_forest (counts : Histogram) : (counts.forest 1).Heavy := by
  intro tree member
  obtain ⟨tip, isTip, rfl⟩ := List.mem_map.mp member
  obtain ⟨_, _, _, weight⟩ := mem_leaves_iff.mp
    ((sortedLeaves_perm counts 1).mem_iff.mp (List.mem_reverse.mp isTip))
  refine ⟨?_, fun part isPart => nomatch isPart⟩
  show 1 ≤ tip.weight
  omega

/-- Raised to one, the counts add up to what is counted. -/
theorem raisedTotal_one (counts : Histogram) : counts.raisedTotal 1 = counts.total := by
  rw [raisedTotal, map_weight_leaves]
  induction counts with
  | nil => rfl
  | cons count rest ih =>
    rw [total_cons]
    by_cases zero : count = 0
    · rw [List.filter_cons_of_neg (by simpa using zero), ih, zero, UInt32.toNat_zero, Nat.zero_add]
    · rw [List.filter_cons_of_pos (by simpa using zero), List.map_cons, List.sum_cons, ih,
        max_toNat_one zero]

/-- The tree of the given counts weighs what is counted. -/
theorem weight_tree_one (found : counts.tree 1 = some tree) : tree.weight = counts.total := by
  rw [← tree.sum_weight_leaves, ← raisedTotal_one]
  exact ((leaves_perm_of_tree found).map Leaf.weight).sum_eq

/-- A total below a Fibonacci number keeps the tree of the given counts low. -/
theorem heightAt_one_le_of_total (small : counts.total < Nat.fib (limit + 3)) :
    counts.heightAt 1 ≤ limit := by
  cases found : counts.tree 1 with
  | none => simp [heightAt, found]
  | some tree =>
    have heavy : tree.Heavy := (heavy_forest counts).merge (ranked_forest counts 1) found
    rw [Tree.Heavy, weight_tree_one found] at heavy
    rw [heightAt_eq found]
    by_contra high
    have larger : Nat.fib (limit + 3) ≤ Nat.fib (tree.height + 2) := Nat.fib_mono (by omega)
    omega

/-- The used symbols fit the limit when their tree does. -/
theorem used_le_of_heightAt (filled : counts.used ≠ 0) {floor : Nat}
    (low : counts.heightAt floor ≤ limit) : counts.used ≤ 2 ^ limit := by
  obtain ⟨tree, found⟩ := exists_tree filled floor
  rw [heightAt_eq found] at low
  calc
    counts.used = tree.leaves.length := (length_leaves_of_tree found).symm
    _ ≤ 2 ^ tree.height := tree.length_leaves_le
    _ ≤ 2 ^ limit := Nat.pow_le_pow_right (by decide) low

/-- When the counts of two used symbols and more add up to less than the Fibonacci number that is
three places behind the limit, the first round finds a tree within the limit and is accepted, which
raises no count. For the longest limit this holds of every total below 2584. -/
theorem fit_of_total_lt_fib (counts : Histogram) (previous : List UInt8)
    (sizes : counts.length = previous.length) (many : 2 ≤ counts.used) :
    (∀ limit, 1 ≤ limit → limit ≤ 15 → counts.total < Nat.fib (limit + 3) →
      (∃ depth ≤ limit, counts.DeepestAt 1 depth) ∧
      ∃ fitting, counts.fit limit previous = .ok fitting ∧ fitting.floor = 1 ∧
        ∀ count ∈ counts, count ≠ 0 → max count.toNat fitting.floor = count.toNat) ∧
    (counts.total < 2584 → ∃ fitting, counts.fit 15 previous = .ok fitting ∧ fitting.floor = 1 ∧
      ∀ count ∈ counts, count ≠ 0 → max count.toNat fitting.floor = count.toNat) := by
  have filled : counts.used ≠ 0 := by omega
  have accepts : ∀ limit, 1 ≤ limit → limit ≤ 15 → counts.total < Nat.fib (limit + 3) →
      (∃ depth ≤ limit, counts.DeepestAt 1 depth) ∧
      ∃ fitting, counts.fit limit previous = .ok fitting ∧ fitting.floor = 1 ∧
        ∀ count ∈ counts, count ≠ 0 → max count.toNat fitting.floor = count.toNat := by
    intro limit legal short small
    have low := heightAt_one_le_of_total small
    have fits := used_le_of_heightAt filled low
    have light : counts.raisedTotal 1 < UInt64.size :=
      raisedTotal_lt (used_le_of_fits fits short) (by decide)
    exact ⟨⟨_, low, deepestAt_heightAt filled light⟩, _,
      fit_of_heightAt_one_le legal short sizes many fits low, rfl, fun count _ => max_toNat_one⟩
  exact ⟨accepts, fun small => (accepts 15 (by decide) (by decide) small).2⟩

/-- Six counts that grow like the Fibonacci numbers add up to one less than the number for five
bits. -/
theorem fit_of_total_lt_fib_of_six_symbols :
    (∃ fitting, fit [1, 1, 2, 3, 5, 8] 5 [0, 0, 0, 0, 0, 0] = .ok fitting ∧ fitting.floor = 1) ∧
      ∃ fitting, fit [1, 1, 2, 3, 5, 8] 15 [0, 0, 0, 0, 0, 0] = .ok fitting ∧
        fitting.floor = 1 := by
  obtain ⟨accepts, longest⟩ :=
    fit_of_total_lt_fib [1, 1, 2, 3, 5, 8] [0, 0, 0, 0, 0, 0] rfl (by decide)
  obtain ⟨_, fitting, fitted, floor, _⟩ := accepts 5 (by decide) (by decide) (by decide)
  obtain ⟨other, otherFitted, otherFloor, _⟩ := longest (by decide)
  exact ⟨⟨fitting, fitted, floor⟩, other, otherFitted, otherFloor⟩

end Histogram

end CanonicalHuffman
