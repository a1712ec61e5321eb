import CanonicalHuffman.Proofs.AlikeTrees
import CanonicalHuffman.Proofs.Allotments

/-!
# Symbols have no influence on depths

Two histograms whose used counts are the same, in whatever order and with whatever unused symbols
between them, have leaves of the same weights, so that their trees are alike in every round. Both
searches accept the same floor and find the same depths. When the used counts stand in the same
order as well, sorting breaks ties the same way, and the used symbols that stand in the same place
among the used ones get the same depth.
-/

namespace CanonicalHuffman

/-- The depths that are not zero are those of the used symbols. -/
theorem CodeDepths.filter_ne_zero {counts : Histogram} {limit : Nat} {depths : List UInt8}
    (code : CodeDepths counts limit depths) :
    depths.filter (· ≠ 0) = (counts.usedEntries depths).map Prod.snd := by
  have agree : (counts.zip depths).filter (fun entry => entry.1 ≠ 0) =
      (counts.zip depths).filter fun entry => entry.2 ≠ 0 := by
    refine List.filter_congr fun entry member => ?_
    obtain ⟨symbol, found⟩ := List.mem_iff_getElem?.mp member
    obtain ⟨isCount, isDepth⟩ := List.getElem?_zip_eq_some.mp found
    have zero := code.zero_iff symbol
    rw [isCount, isDepth, Option.some.injEq, Option.some.injEq] at zero
    simp [zero]
  rw [Histogram.usedEntries, agree]
  conv_lhs => rw [← List.map_snd_zip (Nat.le_of_eq code.length_eq), List.filter_map]
  rfl

namespace Histogram

/-- The used symbols in increasing order. -/
def usedSymbols (counts : Histogram) : List Nat :=
  (counts.usedEntries (List.range counts.length)).map Prod.snd

variable {counts other : Histogram} {floor limit : Nat}

/-- The leaves have the used symbols. -/
theorem map_symbol_leaves (counts : Histogram) (floor : Nat) :
    (counts.leaves floor).map Leaf.symbol = counts.usedSymbols := by
  rw [leaves_eq_map, List.map_map]
  rfl

/-- There are as many used symbols as counts that are not zero. -/
theorem used_eq_of_perm (same : (counts.filter (· ≠ 0)).Perm (other.filter (· ≠ 0))) :
    counts.used = other.used := by
  rw [used, used, List.countP_eq_length_filter, List.countP_eq_length_filter]
  exact same.length_eq

/-- Leaves that weigh the same. -/
def SameWeight (tip other : Leaf) : Prop := tip.weight = other.weight

/-- Leaves of the same weight are multiples of each other by one. -/
theorem scales_sameWeight : Scales 1 SameWeight :=
  fun _ _ same => same.symm.trans (Nat.one_mul _).symm

/-- The same used counts in any order have the same weights in the order of sorting. -/
theorem forall₂_sameWeight (same : (counts.filter (· ≠ 0)).Perm (other.filter (· ≠ 0)))
    (floor : Nat) :
    List.Forall₂ SameWeight (counts.sortedLeaves floor) (other.sortedLeaves floor) := by
  have weights : (counts.sortedLeaves floor).map Leaf.weight =
      (other.sortedLeaves floor).map Leaf.weight := by
    refine List.Perm.eq_of_pairwise (fun _ _ _ _ above below => Nat.le_antisymm below above)
      (List.pairwise_map.mpr (sortedLeaves_weights counts floor))
      (List.pairwise_map.mpr (sortedLeaves_weights other floor)) ?_
    calc
      ((counts.sortedLeaves floor).map Leaf.weight).Perm ((counts.leaves floor).map Leaf.weight) :=
        (sortedLeaves_perm counts floor).map _
      _ = (counts.filter (· ≠ 0)).map fun count => max count.toNat floor := map_weight_leaves ..
      List.Perm _ ((other.filter (· ≠ 0)).map fun count => max count.toNat floor) := same.map _
      _ = (other.leaves floor).map Leaf.weight := (map_weight_leaves ..).symm
      List.Perm _ ((other.sortedLeaves floor).map Leaf.weight) :=
        ((sortedLeaves_perm other floor).map _).symm
  rw [← List.forall₂_eq_eq_eq, List.forall₂_map_left_iff, List.forall₂_map_right_iff] at weights
  exact weights

/-- The same used counts in any order have trees of equal height. -/
theorem heightAt_eq_of_perm (same : (counts.filter (· ≠ 0)).Perm (other.filter (· ≠ 0)))
    (filled : counts.used ≠ 0) (floor : Nat) : counts.heightAt floor = other.heightAt floor :=
  heightAt_eq_of_forall₂ scales_sameWeight Nat.one_pos (forall₂_sameWeight same floor) filled

/-- The same used counts in any order get the same depths, in some order. -/
theorem depthsAt_perm (same : (counts.filter (· ≠ 0)).Perm (other.filter (· ≠ 0)))
    (many : 2 ≤ counts.used) (low : counts.heightAt floor ≤ limit) (short : limit ≤ 255) :
    ((counts.depthsAt floor).filter (· ≠ 0)).Perm ((other.depthsAt floor).filter (· ≠ 0)) := by
  have otherMany : 2 ≤ other.used := used_eq_of_perm same ▸ many
  have otherLow : other.heightAt floor ≤ limit := heightAt_eq_of_perm same (by omega) floor ▸ low
  obtain ⟨tree, found⟩ := exists_tree (by omega : counts.used ≠ 0) floor
  obtain ⟨otherTree, otherFound, alike⟩ := exists_alike_tree scales_sameWeight Nat.one_pos
    (forall₂_sameWeight same floor) found
  have depths : (tree.leafDepths 0).map (fun entry => entry.2.toUInt8) =
      (otherTree.leafDepths 0).map fun entry => entry.2.toUInt8 := by
    rw [← List.forall₂_eq_eq_eq, List.forall₂_map_left_iff, List.forall₂_map_right_iff]
    exact (alike.leafDepths 0).imp fun _ _ pair => congrArg Nat.toUInt8 pair.2
  have own := usedEntries_depthsAt_perm many found low short fun _ depth => depth.toUInt8
  have others := usedEntries_depthsAt_perm otherMany otherFound otherLow short
    fun _ depth => depth.toUInt8
  simp only [Nat.toUInt8_eq, UInt8.ofNat_toNat] at own others depths
  rw [(codeDepths_depthsAt many low short).filter_ne_zero,
    (codeDepths_depthsAt otherMany otherLow short).filter_ne_zero]
  exact own.trans (depths ▸ others.symm)

/-- Leaves stand in the order of their symbols, so their places have the order of the symbols. -/
theorem symbol_le_iff {place later : Nat} {first second : Leaf}
    (isFirst : (counts.leaves floor)[place]? = some first)
    (isSecond : (counts.leaves floor)[later]? = some second) :
    first.symbol ≤ second.symbol ↔ place ≤ later := by
  have ordered := List.pairwise_iff_getElem.mp (leaves_pairwise counts floor)
  obtain ⟨inside, rfl⟩ := List.getElem?_eq_some_iff.mp isFirst
  obtain ⟨within, rfl⟩ := List.getElem?_eq_some_iff.mp isSecond
  rcases Nat.lt_trichotomy place later with before | rfl | after
  · exact iff_of_true (Nat.le_of_lt (ordered _ _ inside within before)) (Nat.le_of_lt before)
  · exact iff_of_true (Nat.le_refl _) (Nat.le_refl _)
  · exact iff_of_false (Nat.not_le_of_lt (ordered _ _ within inside after)) (Nat.not_le_of_lt after)

/-- Leaves in the same place among the leaves of two histograms. -/
def SamePlace (counts other : Histogram) (floor : Nat) (tip otherTip : Leaf) : Prop :=
  ∃ place : Nat, (counts.leaves floor)[place]? = some tip ∧
    (other.leaves floor)[place]? = some otherTip

/-- In the same order of used counts, leaves in the same place weigh the same. -/
theorem scales_samePlace (same : counts.filter (· ≠ 0) = other.filter (· ≠ 0)) (floor : Nat) :
    Scales 1 (SamePlace counts other floor) := by
  rintro tip otherTip ⟨place, isTip, isOther⟩
  have weights := map_weight_leaves counts floor
  rw [same, ← map_weight_leaves] at weights
  have atPlace := congrArg (·[place]?) weights
  simp only [List.getElem?_map, isTip, isOther, Option.map_some, Option.some.injEq] at atPlace
  rw [Nat.one_mul, atPlace]

/-- In the same order of used counts, sorting keeps leaves of the same place together. -/
theorem forall₂_samePlace (same : counts.filter (· ≠ 0) = other.filter (· ≠ 0)) (floor : Nat) :
    List.Forall₂ (SamePlace counts other floor) (counts.sortedLeaves floor)
      (other.sortedLeaves floor) := by
  apply forall₂_sortedLeaves
  · rw [List.forall₂_iff_zip, length_leaves, length_leaves]
    refine ⟨used_eq_of_perm (.of_eq same), fun member => ?_⟩
    obtain ⟨place, found⟩ := List.mem_iff_getElem?.mp member
    exact ⟨place, List.getElem?_zip_eq_some.mp found⟩
  · intro first otherFirst second otherSecond isFirst isSecond
    have firstWeight := scales_samePlace same floor _ _ isFirst
    have secondWeight := scales_samePlace same floor _ _ isSecond
    obtain ⟨place, atFirst, atOtherFirst⟩ := isFirst
    obtain ⟨later, atSecond, atOtherSecond⟩ := isSecond
    have symbols : second.symbol ≤ first.symbol ↔ otherSecond.symbol ≤ otherFirst.symbol :=
      (symbol_le_iff atSecond atFirst).trans (symbol_le_iff atOtherSecond atOtherFirst).symm
    rw [Bool.eq_iff_iff, Leaf.precedes_iff, Leaf.precedes_iff, symbols]
    omega

/-- A used symbol is that of the leaf in its place. -/
theorem exists_leaf_of_usedSymbols {place symbol : Nat}
    (isSymbol : counts.usedSymbols[place]? = some symbol) (floor : Nat) :
    ∃ tip, (counts.leaves floor)[place]? = some tip ∧ tip.symbol = symbol := by
  rw [← map_symbol_leaves counts floor, List.getElem?_map] at isSymbol
  exact Option.map_eq_some_iff.mp isSymbol

/-- In the same order of used counts, used symbols in the same place get the same depth. -/
theorem getElem?_depthsAt_of_samePlace (same : counts.filter (· ≠ 0) = other.filter (· ≠ 0))
    (floor : Nat) {place symbol otherSymbol : Nat}
    (isSymbol : counts.usedSymbols[place]? = some symbol)
    (isOther : other.usedSymbols[place]? = some otherSymbol) :
    (counts.depthsAt floor)[symbol]? = (other.depthsAt floor)[otherSymbol]? := by
  obtain ⟨tip, atTip, rfl⟩ := exists_leaf_of_usedSymbols isSymbol floor
  obtain ⟨otherTip, atOther, rfl⟩ := exists_leaf_of_usedSymbols isOther floor
  refine getElem?_depthsAt_eq (scales_samePlace same floor) Nat.one_pos ?_
    (forall₂_samePlace same floor) (List.mem_of_getElem? atTip) ⟨place, atTip, atOther⟩
  -- a leaf stands in one place only
  rintro shared first second ⟨place, atShared, isFirst⟩ ⟨later, atSharedLater, isSecond⟩
  obtain rfl : place = later := Nat.le_antisymm
    ((symbol_le_iff atShared atSharedLater).mp (Nat.le_refl _))
    ((symbol_le_iff atSharedLater atShared).mp (Nat.le_refl _))
  rw [isFirst, Option.some.injEq] at isSecond
  rw [isSecond]

/-- A used symbol is counted. -/
theorem exists_count_of_usedSymbols {place symbol : Nat}
    (isSymbol : counts.usedSymbols[place]? = some symbol) :
    ∃ count, counts[symbol]? = some count ∧ count ≠ 0 := by
  obtain ⟨tip, atTip, rfl⟩ := exists_leaf_of_usedSymbols isSymbol 1
  obtain ⟨count, isCount, used, _⟩ := mem_leaves_iff.mp (List.mem_of_getElem? atTip)
  exact ⟨count, isCount, used⟩

/-- Fittings of two histograms that treat used symbols alike, wherever these stand. -/
structure AgreeingFits (counts other : Histogram) (fitting otherFitting : Fitting) : Prop where
  /-- The floors are the same. -/
  floor_eq : fitting.floor = otherFitting.floor
  /-- The depths that are not zero are the same, in some order. -/
  depths_perm : (fitting.depths.filter (· ≠ 0)).Perm (otherFitting.depths.filter (· ≠ 0))
  /-- In the same order of used counts, used symbols in the same place have the same depth. -/
  samePlace : counts.filter (· ≠ 0) = other.filter (· ≠ 0) → ∀ place symbol otherSymbol : Nat,
    counts.usedSymbols[place]? = some symbol → other.usedSymbols[place]? = some otherSymbol →
      ∃ depth, fitting.depths[symbol]? = some depth ∧ otherFitting.depths[otherSymbol]? = some depth

/-- The fittings of a round agree. -/
theorem agreeingFits_of_round (same : (counts.filter (· ≠ 0)).Perm (other.filter (· ≠ 0)))
    (many : 2 ≤ counts.used) (low : counts.heightAt floor ≤ limit) (short : limit ≤ 255) :
    AgreeingFits counts other ⟨floor, counts.depthsAt floor⟩ ⟨floor, other.depthsAt floor⟩ where
  floor_eq := rfl
  depths_perm := depthsAt_perm same many low short
  samePlace := by
    intro ordered place symbol otherSymbol isSymbol isOther
    obtain ⟨count, isCount, used⟩ := exists_count_of_usedSymbols isSymbol
    obtain ⟨depth, isDepth, _⟩ := exists_depthsAt many low short isCount used
    have counterpart := getElem?_depthsAt_of_samePlace ordered floor isSymbol isOther
    exact ⟨depth, isDepth, counterpart.symm.trans isDepth⟩

/-- Depth one for every used symbol agrees. -/
theorem agreeingFits_of_ones (same : (counts.filter (· ≠ 0)).Perm (other.filter (· ≠ 0))) :
    AgreeingFits counts other ⟨1, counts.map fun count => if count = 0 then 0 else 1⟩
      ⟨1, other.map fun count => if count = 0 then 0 else 1⟩ where
  floor_eq := rfl
  depths_perm := by
    have used : ((fun depth : UInt8 => decide (depth ≠ 0)) ∘ fun count : UInt32 =>
        if count = 0 then 0 else 1) = fun count => decide (count ≠ 0) := by
      funext count
      by_cases zero : count = 0 <;> simp [zero]
    rw [List.filter_map, List.filter_map, used]
    exact same.map _
  samePlace := by
    intro _ place symbol otherSymbol isSymbol isOther
    obtain ⟨count, isCount, used⟩ := exists_count_of_usedSymbols isSymbol
    obtain ⟨otherCount, isOtherCount, otherUsed⟩ := exists_count_of_usedSymbols isOther
    refine ⟨1, ?_, ?_⟩
    · rw [List.getElem?_map, isCount, Option.map_some, if_neg used]
    · rw [List.getElem?_map, isOtherCount, Option.map_some, if_neg otherUsed]

/-- Two histograms with the same used counts, in whatever order and with whatever unused symbols
between them, are fitted with the same floor and the same depths of used symbols. When the used
counts stand in the same order as well, the used symbols in the same place get the same depth. -/
theorem fit_of_same_counts (counts other : Histogram) (limit : Nat) (legal : 1 ≤ limit)
    (short : limit ≤ 15) (fits : counts.used ≤ 2 ^ limit)
    (same : (counts.filter (· ≠ 0)).Perm (other.filter (· ≠ 0))) :
    ∃ fitting otherFitting, counts.fit limit (List.replicate counts.length 0) = .ok fitting ∧
      other.fit limit (List.replicate other.length 0) = .ok otherFitting ∧
      counts.depths limit = .ok fitting.depths ∧ other.depths limit = .ok otherFitting.depths ∧
      AgreeingFits counts other fitting otherFitting := by
  have sizes : ∀ own : Histogram, own.length = (List.replicate own.length (0 : UInt8)).length :=
    fun _ => List.length_replicate.symm
  have used := used_eq_of_perm same
  suffices agree : ∃ fitting otherFitting,
      counts.fit limit (List.replicate counts.length 0) = .ok fitting ∧
      other.fit limit (List.replicate other.length 0) = .ok otherFitting ∧
      AgreeingFits counts other fitting otherFitting by
    obtain ⟨fitting, otherFitting, fitted, otherFitted, agree⟩ := agree
    exact ⟨fitting, otherFitting, fitted, otherFitted, by rw [depths, fitted]; rfl,
      by rw [depths, otherFitted]; rfl, agree⟩
  by_cases few : counts.used ≤ 1
  · exact ⟨_, _, fit_of_few legal short (sizes counts) few,
      fit_of_few legal short (sizes other) (used ▸ few), agreeingFits_of_ones same⟩
  · have many : 2 ≤ counts.used := by omega
    have heights := heightAt_eq_of_perm same (by omega)
    obtain ⟨round, _, low, early, fitted⟩ := fit_of_many legal short (sizes counts) many fits
    have otherFitted := @fit_of_first_round other limit _ round legal short (sizes other)
      (used ▸ many) (used ▸ fits) (heights _ ▸ low) fun earlier before =>
        heights _ ▸ early earlier before
    exact ⟨_, _, fitted, otherFitted, agreeingFits_of_round same many low (by omega)⟩

/-- Six symbols that need a second round, and the same counts with two unused symbols between them.
The third used symbol gets the same depth. -/
theorem fit_of_same_counts_of_six_symbols :
    ∃ fitting otherFitting, fit [1, 1, 2, 3, 5, 8] 3 [0, 0, 0, 0, 0, 0] = .ok fitting ∧
      fit [1, 0, 1, 2, 3, 0, 5, 8] 3 [0, 0, 0, 0, 0, 0, 0, 0] = .ok otherFitting ∧
      fitting.floor = otherFitting.floor ∧
      ∃ depth, fitting.depths[2]? = some depth ∧ otherFitting.depths[3]? = some depth := by
  obtain ⟨fitting, otherFitting, fitted, otherFitted, _, _, agree⟩ :=
    fit_of_same_counts [1, 1, 2, 3, 5, 8] [1, 0, 1, 2, 3, 0, 5, 8] 3 (by decide) (by decide)
      (by decide)
      (by decide)
  exact ⟨fitting, otherFitting, fitted, otherFitted, agree.floor_eq,
    agree.samePlace (by decide) 2 2 3 (by decide) (by decide)⟩

end Histogram

end CanonicalHuffman
