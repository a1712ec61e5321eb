import CanonicalHuffman.CodeTable.Kraft
import CanonicalHuffman.Proofs.Rounds

/-!
# Fitted depths describe a code

The depths of a tree fill the space of bit strings: the shares of its leaves add up to the whole.
So the depths that a fit finds are those of a code for the used symbols, and a fit finds depths
whenever the limit leaves room for the used symbols.
-/

namespace CanonicalHuffman

/-- Writing a length in the place of another one exchanges their shares. -/
theorem kraftSum_set {width position : Nat} {lengths : List UInt8}
    (inside : position < lengths.length)
    (length : UInt8) : kraftSum width (lengths.set position length) +
      kraftShare width lengths[position] = kraftSum width lengths + kraftShare width length := by
  induction lengths generalizing position with
  | nil => contradiction
  | cons first rest ih =>
    cases position with
    | zero =>
      simp only [List.set_cons_zero, kraftSum_cons, List.getElem_cons_zero]
      omega
    | succ position =>
      have later := ih (Nat.lt_of_succ_lt_succ inside)
      simp only [List.set_cons_succ, kraftSum_cons, List.getElem_cons_succ]
      omega

/-- Symbols without a code take no share. -/
theorem kraftSum_replicate_zero (width count : Nat) :
    kraftSum width (List.replicate count 0) = 0 := by
  simp [kraftSum, kraftShare]

/-- Lengths take the same part of a wider space. -/
theorem kraftSum_add {width extra : Nat} {lengths : List UInt8}
    (within : ∀ length ∈ lengths, length.toNat ≤ width) :
    kraftSum (width + extra) lengths = 2 ^ extra * kraftSum width lengths := by
  induction lengths with
  | nil => rfl
  | cons length rest ih =>
    rw [List.forall_mem_cons] at within
    rw [kraftSum_cons, kraftSum_cons, ih within.2, Nat.mul_add]
    congr 1
    unfold kraftShare
    split
    · rfl
    · rw [Nat.sub_add_comm within.1, Nat.pow_add, Nat.mul_comm]

namespace Tree

/-- Leaves lie between the root and the height of the tree. -/
theorem depth_bounds {tree : Tree} {depth : Nat} {entry : Leaf × Nat}
    (member : entry ∈ tree.leafDepths depth) :
    depth ≤ entry.2 ∧ entry.2 ≤ depth + tree.height := by
  induction tree generalizing depth with
  | leaf tip =>
    rw [leafDepths, List.mem_singleton] at member
    simp [member]
  | branch left right ihLeft ihRight =>
    rw [leafDepths, List.mem_append] at member
    rw [height]
    rcases member with member | member
    · have := ihLeft member
      omega
    · have := ihRight member
      omega

/-- Two leaves and more lie below the root. -/
theorem one_le_depth {tree : Tree} (many : 2 ≤ tree.leaves.length) {entry : Leaf × Nat}
    (member : entry ∈ tree.leafDepths 0) : 1 ≤ entry.2 := by
  cases tree with
  | leaf tip => exact absurd many (by simp [leaves])
  | branch left right =>
    rcases List.mem_append.mp member with member | member
    · exact (depth_bounds member).1
    · exact (depth_bounds member).1

/-- The leaves of a tree fill the space below its root. -/
theorem sum_leafDepths {tree : Tree} {depth width : Nat} (fits : depth + tree.height ≤ width) :
    ((tree.leafDepths depth).map fun entry => 2 ^ (width - entry.2)).sum = 2 ^ (width - depth) := by
  induction tree generalizing depth with
  | leaf tip => simp [leafDepths]
  | branch left right ihLeft ihRight =>
    rw [height] at fits
    have below : width - depth = width - (depth + 1) + 1 := by omega
    rw [leafDepths, List.map_append, List.sum_append, ihLeft (by omega), ihRight (by omega), below,
      Nat.pow_succ]
    omega

end Tree

namespace Walk

/-- A depth that fits a byte is written as it is. -/
theorem toNat_writtenDepth {depth : Nat} (small : depth ≤ 255) :
    (writtenDepth depth).toNat = depth := by
  rw [writtenDepth, Nat.min_eq_left small, Nat.toUInt8_eq, UInt8.toNat_ofNat']
  omega

/-- Writing depths into slots that hold zero adds their shares. -/
theorem kraftSum_writeAll {width : Nat} {entries : List (Leaf × Nat)} {depths : Slots UInt8}
    (distinct : (entries.map fun entry => entry.1.symbol).Nodup)
    (free : ∀ entry ∈ entries, depths[entry.1.symbol]? = some 0) :
    kraftSum width (writeAll entries depths).toList = kraftSum width depths.toList +
      (entries.map fun entry => kraftShare width (writtenDepth entry.2)).sum := by
  induction entries generalizing depths with
  | nil => rfl
  | cons entry rest ih =>
    rw [List.map_cons, List.nodup_cons] at distinct
    rw [List.forall_mem_cons] at free
    obtain ⟨inside, zero⟩ := Array.getElem?_eq_some_iff.mp free.1
    have later := @ih (depths.setIfInBounds entry.1.symbol (writtenDepth entry.2)) distinct.2
      fun other member => by
        rw [Array.getElem?_setIfInBounds_ne fun same =>
          distinct.1 (List.mem_map.mpr ⟨other, member, same.symm⟩)]
        exact free.2 other member
    have exchanged := @kraftSum_set width entry.1.symbol depths.toList inside
      (writtenDepth entry.2)
    rw [Array.getElem_toList, zero] at exchanged
    rw [writeAll_cons, later, List.map_cons, List.sum_cons, Array.toList_setIfInBounds]
    simp only [kraftShare, if_true] at exchanged ⊢
    omega

end Walk

/-- The depths of a code for the used symbols of a histogram. -/
structure CodeDepths (counts : Histogram) (limit : Nat) (depths : List UInt8) : Prop where
  /-- There is one depth per symbol. -/
  length_eq : depths.length = counts.length
  /-- Exactly the unused symbols have depth zero. -/
  zero_iff : ∀ symbol : Nat, depths[symbol]? = some 0 ↔ counts[symbol]? = some 0
  /-- No depth exceeds the limit. -/
  within : ∀ depth ∈ depths, depth.toNat ≤ limit
  /-- The depths leave room for one another. -/
  kraft : kraftSum limit depths ≤ 2 ^ limit
  /-- Two used symbols and more leave no room. -/
  complete : 2 ≤ counts.used → kraftSum limit depths = 2 ^ limit
  /-- A lone used symbol has depth one. -/
  lone : counts.used = 1 → ∀ depth ∈ depths, depth ≠ 0 → depth = 1

namespace CodeDepths

variable {counts : Histogram} {limit : Nat} {depths : List UInt8}

/-- A used symbol has a depth that is not zero. -/
theorem exists_depth (code : CodeDepths counts limit depths) {symbol : Nat} {count : UInt32}
    (found : counts[symbol]? = some count) (used : count ≠ 0) :
    ∃ depth, depths[symbol]? = some depth ∧ depth ≠ 0 := by
  obtain ⟨inside, _⟩ := List.getElem?_eq_some_iff.mp found
  have within : symbol < depths.length := by rwa [code.length_eq]
  refine ⟨depths[symbol], List.getElem?_eq_getElem within, fun zero => used ?_⟩
  have isZero : depths[symbol]? = some 0 := by rw [List.getElem?_eq_getElem within, zero]
  rw [code.zero_iff, found] at isZero
  exact Option.some.inj isZero

/-- The depths leave room for one another in the space of the longest codes. -/
theorem kraft_maxCodeLength (code : CodeDepths counts limit depths)
    (short : limit ≤ maxCodeLength) :
    kraftSum maxCodeLength depths ≤ 2 ^ maxCodeLength := by
  obtain ⟨extra, wide⟩ := Nat.exists_eq_add_of_le short
  rw [wide, kraftSum_add code.within, Nat.pow_add, Nat.mul_comm]
  exact Nat.mul_le_mul_right _ code.kraft

end CodeDepths

namespace Histogram

variable {counts : Histogram} {limit floor : Nat}

/-- All symbols of depth zero describe a histogram without used symbols. -/
theorem codeDepths_of_unused (unused : counts.used = 0) :
    CodeDepths counts limit (List.replicate counts.length 0) where
  length_eq := List.length_replicate
  zero_iff := by
    intro symbol
    have zeros := (used_eq_zero_iff counts).mp unused
    by_cases inside : symbol < counts.length
    · simp [inside, zeros counts[symbol] (List.getElem_mem inside)]
    · simp [inside]
  within := by simp +contextual [List.mem_replicate]
  kraft := by simp [kraftSum_replicate_zero]
  complete := by omega
  lone := by omega

/-- Every symbol has a depth. -/
@[simp] theorem length_depthsAt (counts : Histogram) (floor : Nat) :
    (counts.depthsAt floor).length = counts.length := by
  simp [depthsAt]

/-- No two leaves of a tree of the used symbols share a symbol. -/
theorem nodup_leafDepths {tree : Tree} (same : tree.leaves.Perm (counts.leaves floor)) :
    ((tree.leafDepths 0).map fun entry => entry.1.symbol).Nodup := by
  rw [Tree.map_symbol_leafDepths]
  exact (same.map Leaf.symbol).nodup_iff.mpr nodup_leaf_symbols

/-- The symbol of a leaf has the leaf's depth. -/
theorem getElem?_depthsAt {tree : Tree} (found : counts.tree floor = some tree) {entry : Leaf × Nat}
    (member : entry ∈ tree.leafDepths 0) :
    (counts.depthsAt floor)[entry.1.symbol]? = some (Walk.writtenDepth entry.2) := by
  obtain ⟨count, isCount, _⟩ := (exists_leafDepth_iff found).mp ⟨entry, member, rfl⟩
  obtain ⟨inside, _⟩ := List.getElem?_eq_some_iff.mp isCount
  rw [depthsAt, found, Array.getElem?_toList]
  exact Walk.getElem?_writeAll_of_mem (nodup_leafDepths (leaves_perm_of_tree found)) member
    (by simpa using inside)

/-- An unused symbol has depth zero. -/
theorem getElem?_depthsAt_of_unused {symbol : Nat} (unused : counts[symbol]? = some 0) :
    (counts.depthsAt floor)[symbol]? = some 0 := by
  obtain ⟨inside, _⟩ := List.getElem?_eq_some_iff.mp unused
  have blank : (Array.replicate counts.length (0 : UInt8))[symbol]? = some 0 := by simp [inside]
  rw [depthsAt, Array.getElem?_toList]
  refine (Walk.getElem?_writeAll_of_forall_ne ?_).trans blank
  cases found : counts.tree floor with
  | none => simp
  | some tree =>
    intro entry member same
    obtain ⟨count, isCount, used⟩ := (exists_leafDepth_iff found).mp ⟨entry, member, same⟩
    rw [unused, Option.some.injEq] at isCount
    exact used isCount.symm

/-- The leaves of a tree within the limit lie between the root and the limit, and a byte holds their
depths. -/
theorem writtenDepth_bounds {tree : Tree} (many : 2 ≤ counts.used)
    (found : counts.tree floor = some tree) (fits : counts.heightAt floor ≤ limit)
    (short : limit ≤ 255) {entry : Leaf × Nat} (member : entry ∈ tree.leafDepths 0) :
    1 ≤ entry.2 ∧ entry.2 ≤ limit ∧ (Walk.writtenDepth entry.2).toNat = entry.2 := by
  have low : tree.height ≤ limit := heightAt_eq found ▸ fits
  have leaves : 2 ≤ tree.leaves.length := by rwa [length_leaves_of_tree found]
  have above := Tree.one_le_depth leaves member
  have below := (Tree.depth_bounds member).2
  exact ⟨above, by omega, Walk.toNat_writtenDepth (by omega)⟩

/-- The depths of a tree within the limit fill the space of bit strings. -/
theorem kraftSum_depthsAt (many : 2 ≤ counts.used) (fits : counts.heightAt floor ≤ limit)
    (short : limit ≤ 255) : kraftSum limit (counts.depthsAt floor) = 2 ^ limit := by
  obtain ⟨tree, found⟩ := exists_tree (show counts.used ≠ 0 by omega) floor
  have low : tree.height ≤ limit := heightAt_eq found ▸ fits
  have free : ∀ entry ∈ tree.leafDepths 0,
      (Array.replicate counts.length (0 : UInt8))[entry.1.symbol]? = some 0 := by
    intro entry member
    obtain ⟨count, isCount, _⟩ := (exists_leafDepth_iff found).mp ⟨entry, member, rfl⟩
    obtain ⟨inside, _⟩ := List.getElem?_eq_some_iff.mp isCount
    simp [inside]
  have shares :
      (tree.leafDepths 0).map (fun entry => kraftShare limit (Walk.writtenDepth entry.2)) =
        (tree.leafDepths 0).map fun entry => 2 ^ (limit - entry.2) := by
    apply List.map_congr_left
    intro entry member
    obtain ⟨above, _, exact⟩ := writtenDepth_bounds many found fits short member
    rw [kraftShare, if_neg fun zero => by simp [zero] at exact; omega, exact]
  have sum := @Walk.kraftSum_writeAll limit _ _ (nodup_leafDepths (leaves_perm_of_tree found)) free
  rw [shares, Tree.sum_leafDepths (by omega), Array.toList_replicate,
    kraftSum_replicate_zero] at sum
  simpa [depthsAt, found] using sum

/-- A used symbol has a depth between the root and the limit. -/
theorem exists_depthsAt (many : 2 ≤ counts.used) (fits : counts.heightAt floor ≤ limit)
    (short : limit ≤ 255) {symbol : Nat} {count : UInt32} (isCount : counts[symbol]? = some count)
    (filled : count ≠ 0) :
    ∃ depth, (counts.depthsAt floor)[symbol]? = some depth ∧ depth ≠ 0 ∧ depth.toNat ≤ limit := by
  obtain ⟨tree, found⟩ := exists_tree (show counts.used ≠ 0 by omega) floor
  obtain ⟨entry, member, rfl⟩ := (exists_leafDepth_iff found).mpr ⟨count, isCount, filled⟩
  obtain ⟨above, below, exact⟩ := writtenDepth_bounds many found fits short member
  refine ⟨_, getElem?_depthsAt found member, fun zero => ?_, by omega⟩
  simp [zero] at exact
  omega

/-- The depths of the tree of a histogram describe it when they fit the limit. -/
theorem codeDepths_depthsAt (many : 2 ≤ counts.used) (fits : counts.heightAt floor ≤ limit)
    (short : limit ≤ 255) : CodeDepths counts limit (counts.depthsAt floor) := by
  have kraft := kraftSum_depthsAt many fits short
  refine ⟨length_depthsAt counts floor, ?_, ?_, Nat.le_of_eq kraft, fun _ => kraft, by omega⟩
  · intro symbol
    constructor
    · intro zero
      obtain ⟨inside, _⟩ := List.getElem?_eq_some_iff.mp zero
      rw [length_depthsAt] at inside
      rw [List.getElem?_eq_getElem inside, Option.some.injEq]
      by_contra filled
      obtain ⟨depth, isDepth, positive, _⟩ :=
        exists_depthsAt many fits short (List.getElem?_eq_getElem inside) filled
      rw [zero, Option.some.injEq] at isDepth
      exact positive isDepth.symm
    · exact getElem?_depthsAt_of_unused
  · intro depth member
    obtain ⟨symbol, inside, rfl⟩ := List.mem_iff_getElem.mp member
    have within : symbol < counts.length := by simpa using inside
    have isCount := List.getElem?_eq_getElem within
    by_cases zero : counts[symbol] = 0
    · rw [zero] at isCount
      have blank := @getElem?_depthsAt_of_unused counts floor symbol isCount
      rw [List.getElem?_eq_getElem inside, Option.some.injEq] at blank
      rw [blank]
      exact Nat.zero_le _
    · obtain ⟨depth, isDepth, _, small⟩ := exists_depthsAt many fits short isCount zero
      rw [List.getElem?_eq_getElem inside, Option.some.injEq] at isDepth
      rwa [isDepth]

/-- Depth one for a lone used symbol describes the histogram. -/
theorem codeDepths_of_lone {symbol : Nat} (lone : counts.used = 1) (legal : 1 ≤ limit)
    (inside : symbol < counts.length)
    (only : ∀ other : Nat, other < counts.length → (counts[other]? = some 0 ↔ other ≠ symbol)) :
    CodeDepths counts limit ((List.replicate counts.length 0).set symbol 1) := by
  have values : ∀ depth ∈ (List.replicate counts.length (0 : UInt8)).set symbol 1,
      depth = 0 ∨ depth = 1 := by
    intro depth member
    rcases List.mem_or_eq_of_mem_set member with old | new
    · exact .inl (List.eq_of_mem_replicate old)
    · exact .inr new
  have one : kraftShare limit 1 = 2 ^ (limit - 1) := by simp [kraftShare]
  refine ⟨by simp, ?_, ?_, ?_, by omega, ?_⟩
  · intro other
    by_cases within : other < counts.length
    · rw [only other within]
      by_cases same : other = symbol
      · simp [same, inside]
      · rw [List.getElem?_set_ne (Ne.symm same), List.getElem?_replicate_of_lt within]
        simp [same]
    · simp [within]
  · intro depth member
    rcases values depth member with rfl | rfl
    · exact Nat.zero_le _
    · exact legal
  · have exchanged := @kraftSum_set limit symbol (List.replicate counts.length 0) (by simpa) 1
    rw [List.getElem_replicate, kraftSum_replicate_zero, one] at exchanged
    have half : 2 ^ (limit - 1) ≤ 2 ^ limit := Nat.pow_le_pow_right (by decide) (by omega)
    omega
  · intro _ depth member positive
    exact (values depth member).resolve_left positive

/-- A fit depends on the number of previous depths alone. -/
theorem fit_congr {previous other : List UInt8} (sizes : previous.length = other.length) :
    counts.fit limit previous = counts.fit limit other := by
  rw [fit, fit, sizes]

/-- A fit with room for the used symbols finds the depths of a code for them. -/
theorem fit_ok {previous : List UInt8} (legal : 1 ≤ limit) (short : limit ≤ maxCodeLength)
    (sizes : counts.length = previous.length) (fits : counts.used ≤ 2 ^ limit) :
    ∃ fitting, counts.fit limit previous = .ok fitting ∧
      CodeDepths counts limit fitting.depths := by
  have bound : limit ≤ 15 := short
  rw [fit, if_neg (by omega), if_neg (by omega)]
  by_cases unused : counts.used = 0
  · rw [if_pos unused]
    exact ⟨_, rfl, codeDepths_of_unused unused⟩
  · rw [if_neg unused, if_neg (by omega)]
    by_cases lone : counts.used = 1
    · obtain ⟨symbol, inside, only, fitted⟩ := fitUsed_of_lone lone
      exact ⟨_, fitted, codeDepths_of_lone lone legal inside only⟩
    · have many : 2 ≤ counts.used := by omega
      obtain ⟨round, small, low, early⟩ := @exists_first_round counts limit 31 fits
        fun count _ => count.toNat_lt
      exact ⟨_, fitUsed_of_many many (used_le_of_fits fits short) (by omega) low early,
        codeDepths_depthsAt many low (by omega)⟩

end Histogram

end CanonicalHuffman
