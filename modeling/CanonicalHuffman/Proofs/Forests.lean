import CanonicalHuffman.Tree.Forest
import Mathlib.Algebra.BigOperators.Group.List.Basic
import Mathlib.Algebra.Ring.Nat
import Mathlib.Data.List.Basic
import Mathlib.Logic.Function.Iterate

/-!
# Forests from either end

A forest is merged from its lightest tree on. The textbook algorithm keeps the same trees the other
way round, heaviest first: it takes the two lightest trees from the end of the list and puts the
tree over them before the first one that is not heavier, until a single tree is left. On trees that
stand in order the two do the same.

Each step of the textbook algorithm is defined for trees in any order. The order decides how good
the last tree is; that one is left, and that every leaf is in it once, does not depend on it.
-/

namespace CanonicalHuffman

namespace Forest

/-- Lighter trees stand before heavier ones. -/
def Sorted (forest : Forest) : Prop :=
  forest.Pairwise fun first later => first.weight ≤ later.weight

/-- A tree is put between the trees that do not weigh more and the heavier ones. -/
theorem insert_append {tree : Tree} {light heavy : Forest}
    (lighter : ∀ other ∈ light, other.weight ≤ tree.weight)
    (heavier : ∀ other ∈ heavy, tree.weight < other.weight) :
    insert tree (light ++ heavy) = light ++ tree :: heavy := by
  induction light with
  | nil =>
    cases heavy with
    | nil => rfl
    | cons first rest =>
      have above := heavier first List.mem_cons_self
      simp only [List.nil_append, insert, if_neg (Nat.not_le.mpr above)]
  | cons first rest ih =>
    rw [List.forall_mem_cons] at lighter
    simp only [List.cons_append, insert, if_pos lighter.1, ih lighter.2]

/-- Inserting keeps a forest sorted. -/
theorem Sorted.insert {forest : Forest} (sorted : forest.Sorted) (tree : Tree) :
    (forest.insert tree).Sorted := by
  induction forest with
  | nil => exact List.pairwise_singleton _ _
  | cons first rest ih =>
    obtain ⟨below, later⟩ := List.pairwise_cons.mp sorted
    rw [Forest.insert]
    split
    · next light =>
      refine List.pairwise_cons.mpr ⟨?_, ih later⟩
      intro other member
      rcases List.mem_cons.mp ((insert_perm tree rest).mem_iff.mp member) with rfl | old
      · exact light
      · exact below other old
    · next heavy =>
      refine List.pairwise_cons.mpr ⟨?_, sorted⟩
      intro other member
      rcases List.mem_cons.mp member with rfl | old
      · exact Nat.le_of_not_le heavy
      · exact Nat.le_trans (Nat.le_of_not_le heavy) (below other old)

/-- Merging once keeps a forest sorted. -/
theorem Sorted.mergeOnce {forest : Forest} (sorted : forest.Sorted) : forest.mergeOnce.Sorted := by
  match forest, sorted with
  | [], sorted => exact sorted
  | [tree], sorted => exact sorted
  | lightest :: second :: rest, sorted =>
    have later : Sorted rest := List.Pairwise.of_cons (List.Pairwise.of_cons sorted)
    exact later.insert _

/-- Merging once does not change what the whole merge yields. -/
theorem merge_mergeOnce (forest : Forest) : forest.mergeOnce.merge = forest.merge := by
  match forest with
  | [] => rfl
  | [tree] => rfl
  | lightest :: second :: rest => rw [merge, mergeOnce]

/-- Merging once takes one tree away while two are left. -/
theorem length_mergeOnce (forest : Forest) :
    forest.mergeOnce.length = if forest.length < 2 then forest.length else forest.length - 1 := by
  match forest with
  | [] => rfl
  | [tree] => rfl
  | lightest :: second :: rest => simp [mergeOnce]

/-- The merged tree has the leaves of the forest. -/
theorem leaves_perm_of_merge {forest : Forest} {tree : Tree} (merged : forest.merge = some tree) :
    tree.leaves.Perm (forest.flatMap Tree.leaves) := by
  fun_induction merge forest with
  | case1 => contradiction
  | case2 only =>
    obtain rfl := Option.some.inj merged
    simp
  | case3 lightest second rest ih =>
    have inserted := (insert_perm (.branch second lightest) rest).flatMap_right Tree.leaves
    refine (ih merged).trans (inserted.trans ?_)
    rw [List.flatMap_cons, List.flatMap_cons, List.flatMap_cons, Tree.leaves, ← List.append_assoc]
    exact List.perm_append_comm.append_right _

/-- Merging several times does not change what the whole merge yields. -/
theorem merge_iterate_mergeOnce (forest : Forest) (count : Nat) :
    merge (mergeOnce^[count] forest) = merge forest := by
  induction count generalizing forest with
  | zero => rfl
  | succ count ih => rw [Function.iterate_succ_apply, ih, merge_mergeOnce]

/-- Each merge takes one tree away. -/
theorem length_iterate_mergeOnce {forest : Forest} {count : Nat} (enough : count < forest.length) :
    (mergeOnce^[count] forest).length = forest.length - count := by
  induction count generalizing forest with
  | zero => rfl
  | succ count ih =>
    have next : forest.mergeOnce.length = forest.length - 1 := by
      rw [length_mergeOnce, if_neg (by omega)]
    rw [Function.iterate_succ_apply, ih (by omega), next]
    omega

/-- The weight of all trees together. -/
def weight (forest : Forest) : Nat := (forest.map Tree.weight).sum

/-- Merging once moves weight from tree to tree. -/
@[simp] theorem weight_mergeOnce (forest : Forest) : forest.mergeOnce.weight = forest.weight := by
  match forest with
  | [] => rfl
  | [tree] => rfl
  | lightest :: second :: rest =>
    have inserted := (insert_perm (.branch second lightest) rest).map Tree.weight
    rw [weight, mergeOnce, inserted.sum_eq, weight]
    simp only [List.map_cons, List.sum_cons, Tree.weight]
    omega

/-- Merging several times moves weight from tree to tree. -/
theorem weight_iterate_mergeOnce (forest : Forest) (count : Nat) :
    (mergeOnce^[count] forest).weight = forest.weight := by
  induction count generalizing forest with
  | zero => rfl
  | succ count ih => rw [Function.iterate_succ_apply, ih, weight_mergeOnce]

/-- A forest of leaves weighs as much as they do. -/
theorem weight_map_leaf (leaves : List Leaf) :
    weight (leaves.reverse.map Tree.leaf) = (leaves.map Leaf.weight).sum := by
  rw [weight, List.map_map, List.map_reverse, List.sum_reverse]
  rfl

end Forest

/-- Trees that wait to be merged, heaviest first. -/
abbrev FallingForest := List Tree

namespace FallingForest

/-- Put a tree before the first one that is not heavier. -/
def insert (tree : Tree) : FallingForest → FallingForest
  | [] => [tree]
  | first :: rest =>
    if first.weight ≤ tree.weight then tree :: first :: rest else first :: insert tree rest

/-- Take the two lightest trees from the end and put the tree over them back, the lighter one on its
right. -/
def mergeOnce (forest : FallingForest) : FallingForest :=
  match forest.reverse with
  | lightest :: second :: others => insert (.branch second lightest) others.reverse
  | _ => forest

/-- A tree goes between the heavier trees in front and the first one that is not heavier. -/
theorem insert_append {tree : Tree} {heavy light : List Tree}
    (heavier : ∀ other ∈ heavy, tree.weight < other.weight)
    (lighter : ∀ other ∈ light.head?, other.weight ≤ tree.weight) :
    insert tree (heavy ++ light) = heavy ++ tree :: light := by
  induction heavy with
  | nil =>
    cases light with
    | nil => rfl
    | cons first rest => exact if_pos (lighter first rfl)
  | cons first rest ih =>
    rw [List.forall_mem_cons] at heavier
    rw [List.cons_append, insert, if_neg (Nat.not_le.mpr heavier.1), ih heavier.2, List.cons_append]

/-- A tree that is not heavier stays behind the inserted one. -/
theorem insert_append_of_le {tree last : Tree} (light : last.weight ≤ tree.weight)
    (forest : FallingForest) : insert tree (forest ++ [last]) = insert tree forest ++ [last] := by
  induction forest with
  | nil => exact if_pos light
  | cons first rest ih =>
    rw [List.cons_append, insert, insert, ih]
    split <;> rfl

/-- From the heaviest tree on a tree is put where it is put from the lightest one on. -/
theorem insert_reverse {forest : Forest} (sorted : forest.Sorted) (tree : Tree) :
    insert tree forest.reverse = (forest.insert tree).reverse := by
  induction forest with
  | nil => rfl
  | cons first rest ih =>
    obtain ⟨below, later⟩ := List.pairwise_cons.mp sorted
    rw [Forest.insert, List.reverse_cons]
    split
    · next light => rw [insert_append_of_le light, ih later, List.reverse_cons]
    · next heavy =>
      have heavier : ∀ other ∈ rest.reverse ++ [first], tree.weight < other.weight := by
        intro other member
        rw [← List.reverse_cons, List.mem_reverse, List.mem_cons] at member
        rcases member with rfl | later
        · exact Nat.lt_of_not_le heavy
        · exact Nat.lt_of_lt_of_le (Nat.lt_of_not_le heavy) (below other later)
      have behind := @insert_append tree _ [] heavier (by simp)
      rw [List.append_nil] at behind
      rw [behind, List.reverse_cons, List.reverse_cons]

/-- On a sorted forest the textbook step at the back merges once at the front. -/
theorem mergeOnce_reverse {forest : Forest} (sorted : forest.Sorted) :
    mergeOnce forest.reverse = forest.mergeOnce.reverse := by
  unfold mergeOnce
  rw [List.reverse_reverse]
  match forest, sorted with
  | [], _ => rfl
  | [tree], _ => rfl
  | lightest :: second :: rest, sorted =>
    exact insert_reverse (List.Pairwise.of_cons (List.Pairwise.of_cons sorted)) _

/-- Merging from either end leaves the same trees. -/
theorem iterate_mergeOnce_reverse {forest : Forest} (sorted : forest.Sorted) (count : Nat) :
    mergeOnce^[count] forest.reverse = (Forest.mergeOnce^[count] forest).reverse := by
  induction count generalizing forest with
  | zero => rfl
  | succ count ih =>
    rw [Function.iterate_succ_apply, Function.iterate_succ_apply, mergeOnce_reverse sorted,
      ih sorted.mergeOnce]

/-- In the end the tree is left that the whole merge yields. -/
theorem iterate_mergeOnce_eq {forest : Forest} (sorted : forest.Sorted) {tree : Tree}
    (merged : forest.merge = some tree) :
    mergeOnce^[forest.length - 1] forest.reverse = [tree] := by
  have filled : 0 < forest.length := by
    refine List.length_pos_iff.mpr ?_
    rintro rfl
    rw [Forest.merge] at merged
    contradiction
  have enough : forest.length - 1 < forest.length := by omega
  have single : (Forest.mergeOnce^[forest.length - 1] forest).length = 1 := by
    rw [Forest.length_iterate_mergeOnce enough]
    omega
  obtain ⟨only, shape⟩ := List.length_eq_one_iff.mp single
  rw [← Forest.merge_iterate_mergeOnce forest (forest.length - 1), shape, Forest.merge] at merged
  rw [iterate_mergeOnce_reverse sorted, shape, Option.some.inj merged]
  rfl

variable {forest : FallingForest}

/-- Inserting adds the tree and nothing else. -/
theorem insert_perm (tree : Tree) (forest : FallingForest) :
    (insert tree forest).Perm (tree :: forest) := by
  induction forest with
  | nil => rfl
  | cons first rest ih =>
    rw [insert]
    split
    · rfl
    · exact (ih.cons first).trans (List.Perm.swap tree first rest)

/-- Two trees and more end with two trees. -/
theorem exists_append_pair (many : 2 ≤ forest.length) :
    ∃ others second lightest, forest = others ++ [second, lightest] := by
  have pair : (forest.drop (forest.length - 2)).length = 2 := by
    rw [List.length_drop]
    omega
  obtain ⟨second, lightest, last⟩ := List.length_eq_two.mp pair
  exact ⟨forest.take (forest.length - 2), second, lightest, by rw [← last, List.take_append_drop]⟩

/-- Merging once takes the last two trees and inserts the tree over them. -/
theorem mergeOnce_append (others : List Tree) (second lightest : Tree) :
    mergeOnce (others ++ [second, lightest]) = insert (.branch second lightest) others := by
  simp [mergeOnce]

/-- Merging once takes one tree away while two are left. -/
theorem length_mergeOnce (many : 2 ≤ forest.length) :
    forest.mergeOnce.length + 1 = forest.length := by
  obtain ⟨others, second, lightest, rfl⟩ := exists_append_pair many
  rw [mergeOnce_append, (insert_perm _ others).length_eq]
  simp

/-- Merging once keeps the leaves. -/
theorem leaves_mergeOnce_perm (many : 2 ≤ forest.length) :
    (forest.mergeOnce.flatMap Tree.leaves).Perm (forest.flatMap Tree.leaves) := by
  obtain ⟨others, second, lightest, rfl⟩ := exists_append_pair many
  rw [mergeOnce_append]
  refine ((insert_perm _ others).flatMap_right Tree.leaves).trans ?_
  have pair : [second, lightest].flatMap Tree.leaves = (Tree.branch second lightest).leaves := by
    simp [Tree.leaves]
  rw [List.flatMap_cons, List.flatMap_append, pair]
  exact List.perm_append_comm

/-- Merging as often as the forest allows takes one tree away each time and keeps the leaves. -/
theorem iterate_mergeOnce_perm {count : Nat} (enough : count < forest.length) :
    (mergeOnce^[count] forest).length + count = forest.length ∧
      ((mergeOnce^[count] forest).flatMap Tree.leaves).Perm (forest.flatMap Tree.leaves) := by
  induction count generalizing forest with
  | zero => exact ⟨rfl, List.Perm.refl _⟩
  | succ count ih =>
    have shorter : forest.mergeOnce.length + 1 = forest.length := length_mergeOnce (by omega)
    obtain ⟨length, perm⟩ := @ih forest.mergeOnce (by omega)
    rw [Function.iterate_succ_apply]
    exact ⟨by omega, perm.trans (leaves_mergeOnce_perm (by omega))⟩

end FallingForest

end CanonicalHuffman
