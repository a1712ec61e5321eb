import CanonicalHuffman.Proofs.AlikeTrees

/-!
# Multiplied counts get the same depths

When all counts are multiplied by a power of two, the floors up to that power raise no count, and
every floor behind it raises the counts to the same multiple of what half as many doublings raise
the given counts to. So the rounds up to the power repeat the first round of the given counts, and
the rounds behind it repeat the later ones. The search accepts the same tree, only later.
-/

namespace CanonicalHuffman

/-- A leaf that weighs `factor` times as much. -/
def Leaf.scaled (tip : Leaf) (factor : Nat) : Leaf := ⟨factor * tip.weight, tip.symbol⟩

/-- Scaling keeps the order of leaves. -/
theorem Leaf.precedes_scaled {factor : Nat} (positive : 0 < factor) (first second : Leaf) :
    (first.scaled factor).precedes (second.scaled factor) = first.precedes second := by
  rw [Bool.eq_iff_iff, precedes_iff, precedes_iff]
  simp only [scaled, Nat.mul_lt_mul_left positive, Nat.mul_left_cancel_iff positive]

namespace Histogram

/-- All counts multiplied by a power of two, as far as 32 bits hold them. -/
def scaled (counts : Histogram) (exponent : Nat) : Histogram :=
  counts.map fun count => (2 ^ exponent * count.toNat).toUInt32

variable {counts : Histogram} {exponent : Nat}

/-- Scaling keeps the number of counts. -/
@[simp] theorem length_scaled (counts : Histogram) (exponent : Nat) :
    (counts.scaled exponent).length = counts.length := List.length_map _

/-- Counts that 32 bits hold are multiplied exactly. -/
theorem toNat_scaled_count (room : 2 ^ exponent * counts.largest < 2 ^ 32) {count : UInt32}
    (member : count ∈ counts) :
    (2 ^ exponent * count.toNat).toUInt32.toNat = 2 ^ exponent * count.toNat := by
  have bound : 2 ^ exponent * count.toNat ≤ 2 ^ exponent * counts.largest :=
    Nat.mul_le_mul_left _ (toNat_le_largest member)
  rw [Nat.toUInt32_eq, UInt32.toNat_ofNat', Nat.mod_eq_of_lt (Nat.lt_of_le_of_lt bound room)]

/-- Exactly the counts that are zero become zero. -/
theorem scaled_count_eq_zero_iff (room : 2 ^ exponent * counts.largest < 2 ^ 32) {count : UInt32}
    (member : count ∈ counts) : (2 ^ exponent * count.toNat).toUInt32 = 0 ↔ count = 0 := by
  have positive : 2 ^ exponent ≠ 0 := (Nat.two_pow_pos exponent).ne'
  rw [← UInt32.toNat_inj, ← UInt32.toNat_inj, toNat_scaled_count room member, UInt32.toNat_zero,
    Nat.mul_eq_zero, or_iff_right positive]

/-- Multiplying keeps the number of used symbols. -/
theorem used_scaled (room : 2 ^ exponent * counts.largest < 2 ^ 32) :
    (counts.scaled exponent).used = counts.used := by
  rw [used, scaled, List.countP_map]
  refine List.countP_congr fun count member => ?_
  simp only [Function.comp_apply, ne_eq, decide_eq_true_eq, scaled_count_eq_zero_iff room member]

/-- A floor raises a multiple of a positive number to that multiple of what the floor with as many
doublings less raises the number to. -/
theorem max_two_pow_mul (exponent round : Nat) {value : Nat} (positive : 0 < value) :
    max (2 ^ exponent * value) (2 ^ round) = 2 ^ exponent * max value (2 ^ (round - exponent)) := by
  rw [← Nat.mul_max_mul_left, ← Nat.pow_add]
  rcases Nat.le_total exponent round with late | early
  · rw [Nat.add_sub_cancel' late]
  · have low : 2 ^ exponent ≤ 2 ^ exponent * value := Nat.le_mul_of_pos_right _ positive
    have lower : 2 ^ round ≤ 2 ^ exponent := Nat.pow_le_pow_right (by decide) early
    rw [Nat.sub_eq_zero_of_le early, Nat.add_zero, Nat.max_eq_left low,
      Nat.max_eq_left (Nat.le_trans lower low)]

/-- The leaves of multiplied counts in a round are those of the given counts in the round that many
doublings before, scaled. -/
theorem leaves_scaled (room : 2 ^ exponent * counts.largest < 2 ^ 32) (round : Nat) :
    (counts.scaled exponent).leaves (2 ^ round) =
      (counts.leaves (2 ^ (round - exponent))).map fun tip => tip.scaled (2 ^ exponent) := by
  rw [leaves, leaves, scaled, List.zipIdx_map, List.filterMap_map, List.map_filterMap]
  refine List.filterMap_congr fun entry member => ?_
  have isCount : entry.1 ∈ counts := List.fst_mem_of_mem_zipIdx member
  have zero := scaled_count_eq_zero_iff room isCount
  simp only [Function.comp_apply, Leaf.ofCount?, Prod.map_fst, Prod.map_snd, id_eq]
  by_cases unused : entry.1 = 0
  · rw [if_pos unused, if_pos (zero.mpr unused)]
    rfl
  · have positive : 0 < entry.1.toNat := Nat.pos_of_ne_zero fun zero =>
      unused (UInt32.toNat_inj.mp zero)
    rw [if_neg unused, if_neg (mt zero.mp unused), toNat_scaled_count room isCount,
      max_two_pow_mul _ _ positive]
    rfl

/-- Every leaf corresponds to itself, scaled. -/
def ScaledLeaf (factor : Nat) (tip other : Leaf) : Prop := other = tip.scaled factor

/-- A scaled leaf weighs the multiple of the leaf. -/
theorem scales_scaledLeaf (factor : Nat) : Scales factor (ScaledLeaf factor) := by
  rintro tip other rfl
  rfl

/-- The sorted leaves of multiplied counts are scaled leaves. -/
theorem forall₂_scaledLeaf (room : 2 ^ exponent * counts.largest < 2 ^ 32) (round : Nat) :
    List.Forall₂ (ScaledLeaf (2 ^ exponent)) (counts.sortedLeaves (2 ^ (round - exponent)))
      ((counts.scaled exponent).sortedLeaves (2 ^ round)) := by
  apply forall₂_sortedLeaves
  · rw [leaves_scaled room, List.forall₂_map_right_iff, List.forall₂_same]
    exact fun tip _ => rfl
  · rintro first _ second _ rfl rfl
    exact (Leaf.precedes_scaled (Nat.two_pow_pos exponent) first second).symm

/-- A round of multiplied counts finds the height of the round that many doublings before. -/
theorem heightAt_scaled (room : 2 ^ exponent * counts.largest < 2 ^ 32) (filled : counts.used ≠ 0)
    (round : Nat) :
    (counts.scaled exponent).heightAt (2 ^ round) = counts.heightAt (2 ^ (round - exponent)) :=
  (heightAt_eq_of_forall₂ (scales_scaledLeaf _) (Nat.two_pow_pos exponent)
    (forall₂_scaledLeaf room round) filled).symm

/-- A round of multiplied counts finds the depths of the round that many doublings before. -/
theorem depthsAt_scaled (room : 2 ^ exponent * counts.largest < 2 ^ 32) (round : Nat) :
    (counts.scaled exponent).depthsAt (2 ^ round) = counts.depthsAt (2 ^ (round - exponent)) := by
  apply List.ext_getElem?
  intro symbol
  by_cases inside : symbol < counts.length
  · have isCount : counts[symbol]? = some counts[symbol] := List.getElem?_eq_getElem inside
    by_cases used : counts[symbol] = 0
    · have unused : (counts.scaled exponent)[symbol]? = some 0 := by
        rw [scaled, List.getElem?_map, isCount, used]
        rfl
      rw [used] at isCount
      rw [getElem?_depthsAt_of_unused unused, getElem?_depthsAt_of_unused isCount]
    · have leaf : (⟨max counts[symbol].toNat (2 ^ (round - exponent)), symbol⟩ : Leaf) ∈
          counts.leaves (2 ^ (round - exponent)) := mem_leaves_iff.mpr ⟨_, isCount, used, rfl⟩
      exact (getElem?_depthsAt_eq (scales_scaledLeaf _) (Nat.two_pow_pos exponent)
        (fun _ _ _ first second => by rw [first, second]) (forall₂_scaledLeaf room round) leaf
        rfl).symm
  · rw [List.getElem?_eq_none (by simpa using inside),
      List.getElem?_eq_none (by simpa using inside)]

/-- The round that accepts multiplied counts is the first one, or comes later by the doublings that
the counts were multiplied by. -/
theorem fit_scaled_of_many {round limit : Nat} {previous : List UInt8}
    (room : 2 ^ exponent * counts.largest < 2 ^ 32) (legal : 1 ≤ limit)
    (short : limit ≤ maxCodeLength)
    (sizes : counts.length = previous.length) (many : 2 ≤ counts.used)
    (fits : counts.used ≤ 2 ^ limit)
    (low : counts.heightAt (2 ^ round) ≤ limit)
    (early : ∀ earlier < round, limit < counts.heightAt (2 ^ earlier)) :
    (counts.scaled exponent).fit limit previous =
      .ok ⟨2 ^ if round = 0 then 0 else exponent + round, counts.depthsAt (2 ^ round)⟩ := by
  have filled : counts.used ≠ 0 := by omega
  have heights := heightAt_scaled room filled
  have shifted : (if round = 0 then 0 else exponent + round) - exponent = round := by
    split <;> omega
  rw [← used_scaled room] at many fits
  rw [← length_scaled counts exponent] at sizes
  rw [fit_of_first_round legal short sizes many fits, depthsAt_scaled room, shifted]
  · rw [heights, shifted]
    exact low
  · intro earlier before
    rw [heights]
    apply early
    split at before <;> omega

/-- A fit of multiplied counts finds the depths of the given ones, and multiplies a floor that
raises counts. -/
theorem exists_fit_scaled {limit : Nat} {previous : List UInt8}
    (room : 2 ^ exponent * counts.largest < 2 ^ 32) (legal : 1 ≤ limit)
    (short : limit ≤ maxCodeLength)
    (sizes : counts.length = previous.length) (fits : counts.used ≤ 2 ^ limit) :
    ∃ fitting scaledFitting, counts.fit limit previous = .ok fitting ∧
      (counts.scaled exponent).fit limit previous = .ok scaledFitting ∧
      scaledFitting.depths = fitting.depths ∧
      scaledFitting.floor = if fitting.floor = 1 then 1 else 2 ^ exponent * fitting.floor := by
  by_cases few : counts.used ≤ 1
  · refine ⟨_, _, fit_of_few legal short sizes few, fit_of_few legal short
      ((length_scaled ..).trans sizes) ((used_scaled room).trans_le few), ?_, (if_pos rfl).symm⟩
    rw [scaled, List.map_map]
    refine List.map_congr_left fun count member => ?_
    simp only [Function.comp_apply, scaled_count_eq_zero_iff room member]
  · have many : 2 ≤ counts.used := by omega
    obtain ⟨round, _, low, early, fitted⟩ := fit_of_many legal short sizes many fits
    refine ⟨_, _, fitted, fit_scaled_of_many room legal short sizes many fits low early, rfl, ?_⟩
    show 2 ^ (if round = 0 then 0 else exponent + round) =
      if 2 ^ round = 1 then 1 else 2 ^ exponent * 2 ^ round
    by_cases first : round = 0
    · rw [first, if_pos rfl, Nat.pow_zero, if_pos rfl]
    · rw [if_neg first, if_neg (Nat.one_lt_two_pow first).ne', Nat.pow_add]

/-- Multiplying all counts by a power of two does not change the depths, as long as 32 bits hold the
largest count. A floor that raises counts is multiplied as well. -/
theorem depths_scaled (counts : Histogram) (exponent limit : Nat) (legal : 1 ≤ limit)
    (short : limit ≤ 15) (fits : counts.used ≤ 2 ^ limit)
    (room : 2 ^ exponent * counts.largest < 2 ^ 32) :
    (counts.scaled exponent).map UInt32.toNat =
      counts.map (fun count => 2 ^ exponent * count.toNat) ∧
      (counts.scaled exponent).depths limit = counts.depths limit ∧
      ∃ fitting scaledFitting, counts.fit limit (List.replicate counts.length 0) = .ok fitting ∧
        (counts.scaled exponent).fit limit (List.replicate counts.length 0) = .ok scaledFitting ∧
        scaledFitting.depths = fitting.depths ∧
        scaledFitting.floor = if fitting.floor = 1 then 1 else 2 ^ exponent * fitting.floor := by
  obtain ⟨fitting, scaledFitting, fitted, scaledFitted, same, floors⟩ :=
    exists_fit_scaled room legal short List.length_replicate.symm fits
  refine ⟨?_, ?_, fitting, scaledFitting, fitted, scaledFitted, same, floors⟩
  · rw [scaled, List.map_map]
    exact List.map_congr_left fun count member => toNat_scaled_count room member
  · rw [depths, depths, length_scaled, fitted, scaledFitted]
    exact congrArg Except.ok same

/-- Six symbols whose tree is too deep in the first round, and the same symbols counted four times
as often. -/
theorem depths_scaled_of_six_symbols :
    depths [4, 4, 8, 12, 20, 32] 3 = depths [1, 1, 2, 3, 5, 8] 3 ∧
      ∃ fitting scaledFitting, fit [1, 1, 2, 3, 5, 8] 3 [0, 0, 0, 0, 0, 0] = .ok fitting ∧
        fit [4, 4, 8, 12, 20, 32] 3 [0, 0, 0, 0, 0, 0] = .ok scaledFitting ∧
        scaledFitting.floor = if fitting.floor = 1 then 1 else 4 * fitting.floor := by
  obtain ⟨_, same, fitting, scaledFitting, fitted, scaledFitted, _, floors⟩ :=
    depths_scaled [1, 1, 2, 3, 5, 8] 2 3 (by decide) (by decide) (by decide) (by decide)
  exact ⟨same, fitting, scaledFitting, fitted, scaledFitted, floors⟩

end Histogram

end CanonicalHuffman
