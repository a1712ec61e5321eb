import CanonicalHuffman.Proofs.Fitting
import Mathlib.Algebra.Group.Action.Defs
import Mathlib.Algebra.Order.BigOperators.Group.List
import Mathlib.Algebra.Order.Ring.Nat

/-!
# How long a search takes

The floors of a search are the powers of two. The largest power of two that does not exceed the
largest count is within a factor of two of every count, so the search accepts it if it gets there.
Up to then no floor exceeds the largest count. A merge only moves weight from tree to tree, so no
joined tree weighs more than all leaves together.
-/

namespace CanonicalHuffman

namespace Merge

/-- The weight of the branch that the next step makes. -/
def joinedWeight (merge : Merge) : Except Fault Nat := do
  let lightest ← Slots.fetch merge.frontier (merge.waiting - 1)
  let second ← Slots.fetch merge.frontier (merge.waiting - 2)
  return second.weight + lightest.weight

/-- A joined tree weighs no more than the whole forest. -/
theorem Represents.exists_joinedWeight {merge : Merge} {forest : Forest}
    (represents : merge.Represents forest) (many : 2 ≤ forest.length) :
    ∃ weight, merge.joinedWeight = .ok weight ∧ weight ≤ forest.weight := by
  match forest, many with
  | lightest :: second :: rest, _ =>
    obtain ⟨lightestNode, secondNode, atSecond, atLightest, holdsSecond, holdsLightest, _⟩ :=
      represents.exists_lightest
    have waiting : merge.waiting = rest.length + 2 := represents.waiting_eq
    refine ⟨secondNode.weight + lightestNode.weight, ?_, ?_⟩
    · rw [joinedWeight, waiting, show rest.length + 2 - 1 = rest.length + 1 from rfl, atLightest,
        Nat.add_sub_cancel, atSecond]
      rfl
    · rw [holdsSecond.weight_eq, holdsLightest.weight_eq, Forest.weight, List.map_cons,
        List.map_cons, List.sum_cons, List.sum_cons]
      omega

/-- Every tree that a merge of sorted leaves joins weighs no more than all leaves together. -/
theorem exists_joinedWeight_of_steps {leaves : List Leaf} {pool : Slots Node} {count : Nat}
    (sorted : leaves.Pairwise fun first later => later.weight ≤ first.weight)
    (room : 2 * (leaves.length - 1) ≤ pool.size)
    (light : (leaves.map Leaf.weight).sum < UInt64.size) (unfinished : count + 1 < leaves.length) :
    ∃ merge weight, (initial (leaves.map Node.ofLeaf).toArray pool).steps count = .ok merge ∧
      merge.joinedWeight = .ok weight ∧ weight ≤ (leaves.map Leaf.weight).sum := by
  have length : (leaves.reverse.map Tree.leaf).length = leaves.length := by simp
  have enough : count < (leaves.reverse.map Tree.leaf).length := by omega
  rw [← Forest.weight_map_leaf] at light
  obtain ⟨merge, reached, represents, _⟩ :=
    (initial_represents sorted room).steps_ok light enough
  have left := Forest.length_iterate_mergeOnce enough
  obtain ⟨weight, joined, bound⟩ := represents.exists_joinedWeight (by omega)
  refine ⟨merge, weight, reached, joined, ?_⟩
  rwa [Forest.weight_iterate_mergeOnce, Forest.weight_map_leaf] at bound

end Merge

namespace Histogram

variable {counts : Histogram} {limit : Nat} {previous : List UInt8}

/-- The largest count. -/
def largest (counts : Histogram) : Nat := (counts.map UInt32.toNat).foldr max 0

/-- No count exceeds the largest one. -/
theorem toNat_le_largest {count : UInt32} (member : count ∈ counts) :
    count.toNat ≤ counts.largest := by
  induction counts with
  | nil => contradiction
  | cons first rest ih =>
    rw [largest, List.map_cons, List.foldr_cons]
    rcases List.mem_cons.mp member with rfl | later
    · exact Nat.le_max_left ..
    · exact Nat.le_trans (ih later) (Nat.le_max_right ..)

/-- Counts take 32 bits. -/
theorem largest_lt (counts : Histogram) : counts.largest < 2 ^ 32 := by
  induction counts with
  | nil => exact Nat.two_pow_pos 32
  | cons first rest ih => exact Nat.max_lt.mpr ⟨first.toNat_lt, ih⟩

/-- The floors of the first rounds do not exceed the largest count. -/
theorem two_pow_le_largest {round : Nat} (used : counts.used ≠ 0)
    (early : round ≤ Nat.log2 counts.largest) : 2 ^ round ≤ counts.largest := by
  have positive : counts.largest ≠ 0 := by
    intro zero
    apply used
    rw [used_eq_zero_iff]
    intro count member
    have small := toNat_le_largest member
    exact UInt32.toNat_inj.mp (by rw [UInt32.toNat_zero]; omega)
  exact (Nat.le_log2 positive).mp early

/-- The rounds that a search can come to are few enough for their floors to be powers of two. -/
theorem round_lt {round : Nat} (used : counts.used ≠ 0) (early : round ≤ Nat.log2 counts.largest) :
    round < 32 := by
  have reached := two_pow_le_largest used early
  have small := counts.largest_lt
  exact (Nat.pow_lt_pow_iff_right (by decide : 1 < 2)).mp (Nat.lt_of_le_of_lt reached small)

/-- Two used symbols and more get the depths of the first power of two that fits, which does not
exceed the largest count. -/
theorem fit_of_many (legal : 1 ≤ limit) (short : limit ≤ maxCodeLength)
    (sizes : counts.length = previous.length) (many : 2 ≤ counts.used)
    (fits : counts.used ≤ 2 ^ limit) :
    ∃ round ≤ Nat.log2 counts.largest, counts.heightAt (2 ^ round) ≤ limit ∧
      (∀ earlier < round, limit < counts.heightAt (2 ^ earlier)) ∧
      counts.fit limit previous = .ok ⟨2 ^ round, counts.depthsAt (2 ^ round)⟩ := by
  obtain ⟨round, early, low, before⟩ := @exists_first_round counts limit (Nat.log2 counts.largest)
    fits fun count member => Nat.lt_of_le_of_lt (toNat_le_largest member) Nat.lt_log2_self
  have few : round < 32 := round_lt (by omega) early
  refine ⟨round, early, low, before, ?_⟩
  rw [fit, if_neg (by omega), if_neg (not_not_intro sizes), if_neg (by omega), if_neg (by omega)]
  exact fitUsed_of_many many (used_le_of_fits fits short) few low before

/-- The first power of two whose tree is within the limit is accepted. -/
theorem fit_of_first_round {round : Nat} (legal : 1 ≤ limit) (short : limit ≤ maxCodeLength)
    (sizes : counts.length = previous.length) (many : 2 ≤ counts.used)
    (fits : counts.used ≤ 2 ^ limit) (low : counts.heightAt (2 ^ round) ≤ limit)
    (early : ∀ earlier < round, limit < counts.heightAt (2 ^ earlier)) :
    counts.fit limit previous = .ok ⟨2 ^ round, counts.depthsAt (2 ^ round)⟩ := by
  obtain ⟨first, _, firstLow, before, fitted⟩ := fit_of_many legal short sizes many fits
  suffices same : first = round by rwa [same] at fitted
  rcases Nat.lt_trichotomy first round with sooner | same | later
  · exact absurd firstLow (Nat.not_le_of_lt (early first sooner))
  · exact same
  · exact absurd low (Nat.not_le_of_lt (before round later))

/-- When the tree of the given counts is within the limit, the first floor is accepted. -/
theorem fit_of_heightAt_one_le (legal : 1 ≤ limit) (short : limit ≤ maxCodeLength)
    (sizes : counts.length = previous.length) (many : 2 ≤ counts.used)
    (fits : counts.used ≤ 2 ^ limit) (low : counts.heightAt 1 ≤ limit) :
    counts.fit limit previous = .ok ⟨1, counts.depthsAt 1⟩ :=
  @fit_of_first_round _ _ _ 0 legal short sizes many fits low fun _ below => nomatch below

/-- At most one used symbol gets depth one, without a search. -/
theorem fit_of_few (legal : 1 ≤ limit) (short : limit ≤ maxCodeLength)
    (sizes : counts.length = previous.length) (few : counts.used ≤ 1) :
    counts.fit limit previous = .ok ⟨1, counts.map fun count => if count = 0 then 0 else 1⟩ := by
  have room : 1 ≤ 2 ^ limit := Nat.one_le_two_pow
  rw [fit, if_neg (by omega), if_neg (not_not_intro sizes)]
  by_cases unused : counts.used = 0
  · have zeros := (used_eq_zero_iff counts).mp unused
    rw [if_pos unused, ← List.map_const', List.map_congr_left fun count member => ?_]
    rw [if_pos (zeros count member)]
  · obtain ⟨symbol, inside, only, fitted⟩ := @fitUsed_of_lone counts limit (by omega)
    rw [if_neg unused, if_neg (by omega), fitted]
    congr 2
    apply List.ext_getElem (by simp)
    intro other within bound
    have isUsed := only other (by simpa using within)
    rw [List.getElem?_eq_getElem (by simpa using within), Option.some.injEq] at isUsed
    rw [List.getElem_set, List.getElem_replicate, List.getElem_map]
    by_cases same : symbol = other
    · rw [if_pos same, if_neg (mt isUsed.mp (not_not_intro same.symm))]
    · rw [if_neg same, if_pos (isUsed.mpr (Ne.symm same))]

/-- The state after a number of rounds, where the floor is raised from round to round. -/
def roundsTo (counts : Histogram) : (rounds : Nat) → Except Fault Round
  | 0 => .ok (.initial counts.used counts.length)
  | rounds + 1 => do
    let round ← counts.roundsTo rounds
    round.next (counts.sortedLeaves (raise^[rounds] 1))

/-- As many rounds as a search can need can follow one another. -/
theorem exists_roundsTo {rounds : Nat} (filled : counts.used ≠ 0)
    (crowd : counts.used ≤ 2 ^ maxCodeLength) (few : rounds ≤ 32) :
    ∃ round, counts.roundsTo rounds = .ok round ∧ round.Ready counts := by
  induction rounds with
  | zero => exact ⟨_, rfl, Round.ready_initial counts⟩
  | succ rounds ih =>
    obtain ⟨round, reached, ready⟩ := ih (by omega)
    obtain ⟨next, stepped, nextReady, _⟩ :=
      ready.next_ok filled (raisedTotal_iterate_raise_lt crowd few)
    refine ⟨next, ?_, nextReady⟩
    rw [roundsTo, reached]
    exact stepped

/-- A round leaves the height and the depths of its floor. -/
theorem exists_roundsTo_succ {rounds : Nat} (filled : counts.used ≠ 0)
    (crowd : counts.used ≤ 2 ^ maxCodeLength) (few : rounds < 32) :
    ∃ round, counts.roundsTo (rounds + 1) = .ok round ∧
      round.deepest = counts.heightAt (raise^[rounds] 1) ∧
      round.depths.toList = counts.depthsAt (raise^[rounds] 1) := by
  obtain ⟨round, reached, ready⟩ := exists_roundsTo filled crowd (Nat.le_of_lt few)
  obtain ⟨next, stepped, _, deepest, depths⟩ :=
    ready.next_ok filled (raisedTotal_iterate_raise_lt crowd few)
  refine ⟨next, ?_, deepest, depths⟩
  rw [roundsTo, reached]
  exact stepped

/-- Every tree that is joined in a round weighs less than 64 bits can hold. -/
theorem exists_joinedWeight_lt {floor count : Nat} {pool : Slots Node}
    (light : counts.raisedTotal floor < UInt64.size) (room : pool.size = 2 * counts.used)
    (unfinished : count + 1 < counts.used) :
    ∃ merge weight, (Merge.initial ((counts.sortedLeaves floor).map Node.ofLeaf).toArray pool).steps
        count = .ok merge ∧ merge.joinedWeight = .ok weight ∧ weight < 2 ^ 64 := by
  have length := length_sortedLeaves counts floor
  have enough : 2 * ((counts.sortedLeaves floor).length - 1) ≤ pool.size := by omega
  rw [← sum_weight_sortedLeaves] at light
  obtain ⟨merge, weight, reached, joined, bound⟩ := Merge.exists_joinedWeight_of_steps
    (sortedLeaves_weights counts floor) enough light (unfinished.trans_eq length.symm)
  exact ⟨merge, weight, reached, joined, Nat.lt_of_le_of_lt bound light⟩

/-- A search for two used symbols and more accepts a floor after at most as many rounds as the
largest count has binary digits. The rounds before the last one are rejected. No floor exceeds
`2 ^ 31`, so doubling a rejected one is exact, and every tree that is joined in any round weighs
less than `2 ^ 64`. -/
theorem search_ends_within_digits (counts : Histogram) (limit : Nat) (previous : List UInt8)
    (legal : 1 ≤ limit) (short : limit ≤ 15) (sizes : counts.length = previous.length)
    (many : 2 ≤ counts.used) (fits : counts.used ≤ 2 ^ limit) :
    ∃ last fitting, last ≤ Nat.log2 counts.largest ∧
      counts.fit limit previous = .ok fitting ∧
      counts.search limit (Nat.log2 counts.largest + 1) 1
        (.initial counts.used counts.length) = .ok fitting ∧
      (∀ round < last, ∃ state, counts.roundsTo (round + 1) = .ok state ∧ limit < state.deepest) ∧
      (∃ state, counts.roundsTo (last + 1) = .ok state ∧ state.deepest ≤ limit ∧
        fitting = ⟨raise^[last] 1, state.depths.toList⟩) ∧
      (∀ round ≤ last, raise^[round] 1 ≤ 2 ^ 31) ∧
      (∀ round < last, raise (raise^[round] 1) = 2 * raise^[round] 1) ∧
      ∀ round ≤ last, ∃ before, counts.roundsTo round = .ok before ∧
        ∀ step, step + 1 < counts.used → ∃ merge weight,
          (Merge.initial ((counts.sortedLeaves (raise^[round] 1)).map Node.ofLeaf).toArray
            before.pool).steps step = .ok merge ∧
          merge.joinedWeight = .ok weight ∧ weight < 2 ^ 64 := by
  have filled : counts.used ≠ 0 := by omega
  obtain ⟨last, early, low, before, fitted⟩ := fit_of_many legal short sizes many fits
  have few : last < 32 := round_lt filled early
  have crowd := used_le_of_fits fits short
  have light : ∀ round ≤ last, counts.raisedTotal (raise^[round] 1) < UInt64.size :=
    fun round bound => raisedTotal_iterate_raise_lt crowd (Nat.lt_of_le_of_lt bound few)
  have floors : ∀ round ≤ last, raise^[round] 1 = 2 ^ round := fun round bound =>
    iterate_raise_one (by omega)
  have half : ∀ round ≤ last, 2 ^ round ≤ 2 ^ 31 := fun round bound =>
    Nat.pow_le_pow_right (by decide) (by omega)
  have lastFloor := floors last (Nat.le_refl _)
  refine ⟨last, _, early, fitted, ?_, ?_, ?_, ?_, ?_, ?_⟩
  · rw [← lastFloor]
    apply search_ok (Round.ready_initial counts) filled (by omega) light
    · rw [lastFloor]
      exact low
    · intro round below
      rw [floors round (Nat.le_of_lt below)]
      exact before round below
  · intro round below
    obtain ⟨state, reached, deepest, _⟩ := exists_roundsTo_succ filled crowd (below.trans few)
    refine ⟨state, reached, ?_⟩
    rw [deepest, floors round (Nat.le_of_lt below)]
    exact before round below
  · obtain ⟨state, reached, deepest, depths⟩ := exists_roundsTo_succ filled crowd few
    rw [lastFloor] at deepest depths ⊢
    refine ⟨state, reached, ?_, ?_⟩
    · rw [deepest]
      exact low
    · rw [depths]
  · intro round bound
    rw [floors round bound]
    exact half round bound
  · intro round below
    rw [raise, maxFloor, UInt64.size, floors round (Nat.le_of_lt below)]
    have := half round (Nat.le_of_lt below)
    omega
  · intro round bound
    obtain ⟨state, reached, ready⟩ := exists_roundsTo filled crowd (by omega : round ≤ 32)
    exact ⟨state, reached, fun step unfinished =>
      exists_joinedWeight_lt (light round bound) ready.pool_size unfinished⟩

/-- Six symbols whose tree is two levels too deep, found again with a higher floor. -/
theorem search_ends_within_four_digits :
    ∃ fitting, fit [1, 1, 2, 3, 5, 8] 3 [0, 0, 0, 0, 0, 0] = .ok fitting ∧
      search [1, 1, 2, 3, 5, 8] 3 4 1 (.initial 6 6) = .ok fitting := by
  obtain ⟨_, fitting, _, fitted, searched, _⟩ := search_ends_within_digits [1, 1, 2, 3, 5, 8] 3
    [0, 0, 0, 0, 0, 0] (by decide) (by decide) rfl (by decide) (by decide)
  exact ⟨fitting, fitted, searched⟩

end Histogram

end CanonicalHuffman
