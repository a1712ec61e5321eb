import CanonicalHuffman.Proofs.Flattening
import Mathlib.Data.Nat.Log

/-!
# Nearly even counts

Counts are nearly even when none of them exceeds the two smallest counts of used symbols together.
The first two leaves are then joined to a tree that no leaf outweighs, so the first leaf, which lies
deepest, lies at most one level below any other one. Depths that take two neighbouring values and
fill the space of bit strings are as many of either as their number asks for, and the deeper ones
belong to the symbols that are counted least.
-/

namespace CanonicalHuffman

/-- The depths of `used` leaves in a tree that is as even as their number allows, deepest first. -/
def evenDepths (used : Nat) : List Nat :=
  List.replicate (2 * (used - 2 ^ Nat.log 2 used)) (Nat.log 2 used + 1) ++
    List.replicate (2 ^ (Nat.log 2 used + 1) - used) (Nat.log 2 used)

/-- Depths that do not grow and take two neighbouring values are two rows. -/
theorem exists_rows_of_falling {depths : List Nat} {low : Nat}
    (falling : depths.Pairwise fun depth later => later ≤ depth)
    (near : ∀ depth ∈ depths, low ≤ depth ∧ depth ≤ low + 1) :
    ∃ deep high, depths = List.replicate deep (low + 1) ++ List.replicate high low := by
  induction depths with
  | nil => exact ⟨0, 0, rfl⟩
  | cons first rest ih =>
    obtain ⟨below, later⟩ := List.pairwise_cons.mp falling
    rw [List.forall_mem_cons] at near
    by_cases deepest : first = low + 1
    · obtain ⟨deep, high, rows⟩ := ih later near.2
      exact ⟨deep + 1, high, by rw [deepest, rows]; rfl⟩
    · -- no depth behind the first one is greater, so the row of the deeper ones is empty
      refine ⟨0, (first :: rest).length, List.eq_replicate_of_mem ?_⟩
      intro depth member
      rcases List.mem_cons.mp member with rfl | behind
      · omega
      · have := below depth behind
        have := near.2 depth behind
        omega

/-- Two rows of neighbouring depths that fill the space are those of an even tree, when some leaf
has the greater depth. -/
theorem rows_eq_evenDepths {deep high low : Nat} (taken : 0 < deep)
    (full : deep + 2 * high = 2 ^ (low + 1)) :
    List.replicate deep (low + 1) ++ List.replicate high low = evenDepths (deep + high) := by
  have double : 2 ^ (low + 1) = 2 * 2 ^ low := by rw [Nat.pow_succ, Nat.mul_comm]
  rw [evenDepths]
  by_cases single : high = 0
  · have count : deep + high = 2 ^ (low + 1) := by omega
    have wider : 2 ^ (low + 1 + 1) - 2 ^ (low + 1) = deep := by
      rw [Nat.pow_succ 2 (low + 1)]
      omega
    rw [count, Nat.log_pow (by decide), Nat.sub_self, wider, single]
    simp
  · have log : Nat.log 2 (deep + high) = low := by
      rw [Nat.log_eq_iff (.inr ⟨by decide, by omega⟩)]
      omega
    have deeper : 2 * (deep + high - 2 ^ low) = deep := by omega
    have higher : 2 ^ (low + 1) - (deep + high) = high := by omega
    rw [log, deeper, higher]

/-- The depths of an even tree are the logarithm of the number of leaves, rounded down or up. -/
theorem log_or_clog_of_mem_evenDepths {used depth : Nat} (member : depth ∈ evenDepths used) :
    depth = Nat.log 2 used ∨ depth = Nat.clog 2 used := by
  rcases List.mem_append.mp member with deep | high
  · obtain ⟨positive, rfl⟩ := List.mem_replicate.mp deep
    right
    apply Nat.le_antisymm
    · exact (Nat.lt_clog_iff_pow_lt (by decide)).mpr (by omega)
    · exact Nat.clog_le_of_le_pow (Nat.le_of_lt (Nat.lt_pow_succ_log_self (by decide) used))
  · exact .inl (List.mem_replicate.mp high).2

/-- Every leaf beyond a power of two takes a second one to the deeper level of an even tree. -/
theorem count_evenDepths (used : Nat) :
    (evenDepths used).count (Nat.log 2 used + 1) = 2 * (used - 2 ^ Nat.log 2 used) := by
  simp [evenDepths, List.count_append, List.count_replicate]

example : evenDepths 5 = [3, 3, 2, 2, 2] := by decide

/-- When no tree outweighs the first two together, depths differ by at most one. -/
theorem Profile.Falling.le_succ_of_light {entries rest : List (Nat × Nat)}
    {first second : Nat × Nat}
    (falling : Profile.Falling entries) (split : entries = first :: second :: rest)
    (light : ∀ entry ∈ entries, entry.1 ≤ first.1 + second.1) :
    ∀ entry ∈ entries, ∀ other ∈ entries, entry.2 ≤ other.2 + 1 := by
  intro entry member other isOther
  have near : first.2 ≤ other.2 + 1 :=
    falling.first_le first second rest split other isOther (light other isOther)
  have ordered := falling.ordered
  rw [split] at member ordered
  rcases List.mem_cons.mp member with rfl | behind
  · exact near
  · exact Nat.le_trans ((List.pairwise_cons.mp ordered).1 entry behind) near

/-- The leaves of a tree whose depths differ by at most one lie in two rows, which fill the space
below the root. -/
theorem Tree.exists_rows {tree : Tree} {depths : List Nat} (many : 2 ≤ tree.leaves.length)
    (own : ((tree.leafDepths 0).map Prod.snd).Perm depths)
    (falling : depths.Pairwise fun depth later => later ≤ depth)
    (close : ∀ depth ∈ depths, ∀ other ∈ depths, depth ≤ other + 1) :
    ∃ deep high low, tree.height = low + 1 ∧
      depths = List.replicate deep (low + 1) ++ List.replicate high low ∧ 0 < deep ∧
      deep + 2 * high = 2 ^ (low + 1) := by
  obtain ⟨deepest, isDeepest, deep⟩ := tree.exists_deepest 0
  have below := Tree.one_le_depth many isDeepest
  obtain ⟨low, height⟩ := Nat.exists_eq_add_of_le' (by omega : 1 ≤ tree.height)
  have reached : low + 1 ∈ depths := by
    rw [← height, ← Nat.zero_add tree.height, ← deep]
    exact own.mem_iff.mp (List.mem_map_of_mem isDeepest)
  have near : ∀ depth ∈ depths, low ≤ depth ∧ depth ≤ low + 1 := by
    intro depth member
    obtain ⟨entry, isEntry, rfl⟩ := List.mem_map.mp (own.mem_iff.mpr member)
    have := close (low + 1) reached entry.2 member
    have := (Tree.depth_bounds isEntry).2
    omega
  obtain ⟨deep, high, rows⟩ := exists_rows_of_falling falling near
  refine ⟨deep, high, low, height, rows, ?_, ?_⟩
  · apply Nat.pos_of_ne_zero
    intro empty
    rw [rows, empty, List.replicate_zero, List.nil_append] at reached
    exact absurd (List.mem_replicate.mp reached).2 (by omega)
  · have full := @Tree.sum_leafDepths tree 0 (low + 1) (by omega)
    have shares := (own.map fun depth => 2 ^ (low + 1 - depth)).sum_eq
    rw [List.map_map] at shares
    calc
      deep + 2 * high = (depths.map fun depth => 2 ^ (low + 1 - depth)).sum := by
        simp [rows, Nat.mul_comm]
      _ = 2 ^ (low + 1) := shares.symm.trans full

namespace Histogram

variable {counts : Histogram} {tree : Tree}

/-- Whether a count with its symbol comes before another one: it is smaller, or the same and of no
higher symbol. -/
def countsBefore (entry other : UInt32 × Nat) : Bool :=
  entry.1 < other.1 ∨ (entry.1 = other.1 ∧ entry.2 ≤ other.2)

/-- The counts of the used symbols with their symbols, in increasing order. -/
def byCount (counts : Histogram) : List (UInt32 × Nat) :=
  (counts.usedEntries (List.range counts.length)).mergeSort countsBefore

/-- No count exceeds the two smallest counts of used symbols together. -/
def NearlyEven (counts : Histogram) : Prop :=
  counts.largest ≤ ((counts.byCount.take 2).map fun entry => entry.1.toNat).sum

/-- Counts in increasing order. -/
theorem countsBefore_iff (entry other : UInt32 × Nat) : countsBefore entry other = true ↔
    entry.1.toNat < other.1.toNat ∨ (entry.1.toNat = other.1.toNat ∧ entry.2 ≤ other.2) := by
  rw [countsBefore, decide_eq_true_eq, UInt32.lt_iff_toNat_lt, UInt32.toNat_inj]

/-- Sorted counts stand in order. -/
theorem byCount_pairwise (counts : Histogram) :
    counts.byCount.Pairwise fun entry other => countsBefore entry other = true := by
  apply List.pairwise_mergeSort
  · intro first second third before after
    rw [countsBefore_iff] at before after ⊢
    omega
  · intro first second
    rw [Bool.or_eq_true, countsBefore_iff, countsBefore_iff]
    omega

/-- The leaves in symbol order are the used symbols with their counts. -/
theorem leaves_one (counts : Histogram) : counts.leaves 1 =
    (counts.usedEntries (List.range counts.length)).map fun entry =>
      ⟨entry.1.toNat, entry.2⟩ := by
  rw [leaves_eq_map]
  apply List.map_congr_left
  intro entry member
  rw [max_toNat_one (mem_usedEntries_iff.mp member).1]

/-- The leaves, lightest first, are the used symbols in increasing order of their counts. -/
theorem map_byCount (counts : Histogram) :
    counts.byCount.map (fun entry => (⟨entry.1.toNat, entry.2⟩ : Leaf)) =
      (counts.sortedLeaves 1).reverse := by
  refine List.Perm.eq_of_pairwise (fun tip other _ _ before after =>
    Leaf.precedes_antisymm tip other after before) ?_ (List.pairwise_reverse.mpr
      (sortedLeaves_pairwise counts 1)) ?_
  · refine List.pairwise_map.mpr ((byCount_pairwise counts).imp fun before => ?_)
    rw [countsBefore_iff] at before
    rw [Leaf.precedes_iff]
    exact before.imp id fun tie => ⟨tie.1.symm, tie.2⟩
  · have unsorted : (counts.byCount.map fun entry => (⟨entry.1.toNat, entry.2⟩ : Leaf)).Perm
        (counts.leaves 1) := by
      rw [leaves_one]
      exact (List.mergeSort_perm _ _).map _
    exact unsorted.trans ((List.reverse_perm _).trans (sortedLeaves_perm counts 1)).symm

/-- No leaf of nearly even counts outweighs the first two together. -/
theorem NearlyEven.weight_le (even : counts.NearlyEven) {first second : Leaf} {rest : List Leaf}
    (split : (counts.sortedLeaves 1).reverse = first :: second :: rest) {tip : Leaf}
    (member : tip ∈ counts.leaves 1) : tip.weight ≤ first.weight + second.weight := by
  have pair : ((counts.byCount.take 2).map fun entry => entry.1.toNat).sum =
      first.weight + second.weight := by
    have front := congrArg (fun leaves => ((leaves.take 2).map Leaf.weight).sum) counts.map_byCount
    rw [split] at front
    simpa [← List.map_take, Function.comp_def] using front
  obtain ⟨count, isCount, used, weight⟩ := mem_leaves_iff.mp member
  calc
    tip.weight = count.toNat := weight.trans (max_toNat_one used)
    _ ≤ counts.largest := toNat_le_largest (List.mem_of_getElem? isCount)
    _ ≤ first.weight + second.weight := even.trans_eq pair

/-- The leaves of nearly even counts, lightest first, lie at the depths of an even tree. -/
theorem NearlyEven.exists_leafDepths (even : counts.NearlyEven) (many : 2 ≤ counts.used)
    (found : counts.tree 1 = some tree) :
    ∃ entries : List (Leaf × Nat), entries.map Prod.fst = (counts.sortedLeaves 1).reverse ∧
      (tree.leafDepths 0).Perm entries ∧ entries.map Prod.snd = evenDepths counts.used ∧
      2 ^ tree.height < 2 * counts.used := by
  obtain ⟨entries, own, leaves, profile, rising⟩ := exists_leaf_profile found
  have falling := profile.falling rising
  have size : entries.length = counts.used := by
    rw [← List.length_map Prod.fst, own, List.length_reverse, length_sortedLeaves]
  have close : ∀ entry ∈ entries, ∀ other ∈ entries, entry.2 ≤ other.2 + 1 := by
    match entries, size with
    | first :: second :: rest, _ =>
      have light : ∀ tip ∈ first :: second :: rest,
          tip.1.weight ≤ first.1.weight + second.1.weight := fun tip isTip => by
        apply even.weight_le own.symm
        exact (leaves_perm_of_tree found).mem_iff.mp
          (Tree.mem_leaves_of_mem_leafDepths (leaves.mem_iff.mpr isTip))
      intro entry member other isOther
      exact falling.le_succ_of_light rfl (List.forall_mem_map.mpr light) _
        (List.mem_map_of_mem member) _ (List.mem_map_of_mem isOther)
    | [], size => exact absurd (many.trans_eq size.symm) (by simp)
    | [_], size => exact absurd (many.trans_eq size.symm) (by simp)
  have leafCount : 2 ≤ tree.leaves.length := by rwa [length_leaves_of_tree found]
  obtain ⟨deep, high, low, height, rows, taken, full⟩ := Tree.exists_rows leafCount
    (leaves.map Prod.snd) (List.pairwise_map.mpr (List.pairwise_map.mp falling.ordered))
    (List.forall_mem_map.mpr fun entry member => List.forall_mem_map.mpr (close entry member))
  have count : deep + high = counts.used := by
    rw [← size, ← List.length_map Prod.snd, rows]
    simp
  refine ⟨entries, own, leaves, ?_, ?_⟩
  · rw [rows, rows_eq_evenDepths taken full, count]
  · rw [height, ← full, ← count]
    omega

/-- The tree of nearly even counts is as low as their number allows. -/
theorem NearlyEven.heightAt_one_le {limit : Nat} (even : counts.NearlyEven) (many : 2 ≤ counts.used)
    (fits : counts.used ≤ 2 ^ limit) : counts.heightAt 1 ≤ limit := by
  obtain ⟨tree, found⟩ := exists_tree (by omega : counts.used ≠ 0) 1
  obtain ⟨_, _, _, _, low⟩ := even.exists_leafDepths many found
  rw [heightAt_eq found]
  apply Nat.le_of_lt_succ
  apply (Nat.pow_lt_pow_iff_right (by decide : 1 < 2)).mp
  rw [Nat.pow_succ]
  omega

/-- In the tree of nearly even counts, the depths of the used symbols in increasing order of their
counts are those of an even tree. -/
theorem NearlyEven.depths_eq (even : counts.NearlyEven) (many : 2 ≤ counts.used)
    (fits : counts.used ≤ 2 ^ maxCodeLength) :
    counts.byCount.map (fun entry => ((counts.depthsAt 1).map UInt8.toNat)[entry.2]?) =
      (evenDepths counts.used).map some := by
  obtain ⟨tree, found⟩ := exists_tree (by omega : counts.used ≠ 0) 1
  obtain ⟨entries, own, leaves, depths, _⟩ := even.exists_leafDepths many found
  have low := even.heightAt_one_le many fits
  calc
    _ = (counts.byCount.map fun entry => (⟨entry.1.toNat, entry.2⟩ : Leaf)).map fun tip =>
        ((counts.depthsAt 1).map UInt8.toNat)[tip.symbol]? := by rw [List.map_map]; rfl
    _ = entries.map fun entry => ((counts.depthsAt 1).map UInt8.toNat)[entry.1.symbol]? := by
      rw [map_byCount, ← own, List.map_map]
      rfl
    _ = entries.map fun entry => some entry.2 := by
      apply List.map_congr_left
      intro entry member
      have leaf := leaves.mem_iff.mpr member
      rw [List.getElem?_map, getElem?_depthsAt found leaf, Option.map_some,
        (writtenDepth_bounds many found low (by decide) leaf).2.2]
    _ = (evenDepths counts.used).map some := by rw [← depths, List.map_map]; rfl

/-- The depths of the used symbols of nearly even counts are those of an even tree. -/
theorem NearlyEven.usedEntries_perm (even : counts.NearlyEven) (many : 2 ≤ counts.used)
    (fits : counts.used ≤ 2 ^ maxCodeLength) :
    ((counts.usedEntries (counts.depthsAt 1)).map fun entry => entry.2.toNat).Perm
      (evenDepths counts.used) := by
  obtain ⟨tree, found⟩ := exists_tree (by omega : counts.used ≠ 0) 1
  obtain ⟨entries, _, leaves, depths, _⟩ := even.exists_leafDepths many found
  have low := even.heightAt_one_le many fits
  have same := usedEntries_depthsAt_perm many found low (by decide) fun _ depth => depth
  rw [← depths]
  exact same.trans (leaves.map Prod.snd)

/-- A fit for nearly even counts accepts its first floor. Every used symbol gets the logarithm of
their number as its depth, rounded down or up. Twice as many of them as there are beyond the
greatest power of two within their number get the greater depth, and these come first in increasing
order of count and symbol. -/
theorem fit_of_nearly_even (counts : Histogram) (limit : Nat) (previous : List UInt8)
    (short : limit ≤ 15) (sizes : counts.length = previous.length) (many : 2 ≤ counts.used)
    (fits : counts.used ≤ 2 ^ limit)
    (even : counts.largest ≤ ((counts.byCount.take 2).map fun entry => entry.1.toNat).sum) :
    ∃ fitting, counts.fit limit previous = .ok fitting ∧ fitting.floor = 1 ∧
      (∀ entry ∈ counts.usedEntries fitting.depths,
        entry.2.toNat = Nat.log 2 counts.used ∨ entry.2.toNat = Nat.clog 2 counts.used) ∧
      (counts.usedEntries fitting.depths).countP
          (fun entry => entry.2.toNat = Nat.log 2 counts.used + 1) =
        2 * (counts.used - 2 ^ Nat.log 2 counts.used) ∧
      counts.byCount.map (fun entry => (fitting.depths.map UInt8.toNat)[entry.2]?) =
        List.replicate (2 * (counts.used - 2 ^ Nat.log 2 counts.used))
            (some (Nat.log 2 counts.used + 1)) ++
          List.replicate (2 ^ (Nat.log 2 counts.used + 1) - counts.used)
            (some (Nat.log 2 counts.used)) := by
  have legal : 1 ≤ limit := by
    by_contra zero
    obtain rfl : limit = 0 := by omega
    omega
  have nearly : counts.NearlyEven := even
  have wide : counts.used ≤ 2 ^ maxCodeLength :=
    Nat.le_trans fits (Nat.pow_le_pow_right (by decide) short)
  have fitted :=
    fit_of_heightAt_one_le legal short sizes many fits (nearly.heightAt_one_le many fits)
  have depths := nearly.usedEntries_perm many wide
  refine ⟨_, fitted, rfl, ?_, ?_, ?_⟩
  · intro entry member
    have own := depths.mem_iff.mp (List.mem_map_of_mem member)
    exact log_or_clog_of_mem_evenDepths own
  · rw [← count_evenDepths, ← depths.count_eq, List.count, List.countP_map]
    exact List.countP_congr fun entry _ => by simp
  · rw [nearly.depths_eq many wide, evenDepths, List.map_append, List.map_replicate,
      List.map_replicate]

/-- Five symbols, the last of them counted as often as the two smallest together. Two of them are
one bit deeper. -/
theorem fit_of_nearly_even_of_five_symbols :
    ∃ fitting, fit [2, 1, 0, 1, 2, 2] 3 [0, 0, 0, 0, 0, 0] = .ok fitting ∧ fitting.floor = 1 ∧
      [(1, 1), (1, 3), (2, 0), (2, 4), (2, 5)].map (fun entry : UInt32 × Nat =>
        (fitting.depths.map UInt8.toNat)[entry.2]?) = [some 3, some 3, some 2, some 2, some 2] := by
  have sorted : byCount [2, 1, 0, 1, 2, 2] = [(1, 1), (1, 3), (2, 0), (2, 4), (2, 5)] := by cbv
  obtain ⟨fitting, fitted, floor, _, _, depths⟩ := fit_of_nearly_even [2, 1, 0, 1, 2, 2] 3
    [0, 0, 0, 0, 0, 0] (by decide) rfl (by decide) (by decide) (by rw [sorted]; decide)
  rw [sorted] at depths
  exact ⟨fitting, fitted, floor, depths⟩

end Histogram

end CanonicalHuffman
