import CanonicalHuffman.Proofs.Placement
import CanonicalHuffman.Proofs.Searching
import Mathlib.Algebra.Order.Field.Rat
import Mathlib.Tactic.NormNum
import Mathlib.Tactic.Positivity

/-!
# Lengths for the used symbols

An allotment gives every used symbol of a histogram a positive code length, such that the shares of
all lengths add up to at most one. The code words of a prefix code have such lengths. An allotment
costs its lengths, each as often as the symbol is counted, where counts below a floor can be raised
to it. It hangs the leaves of the histogram at depths that leave room for one another.

The depths that a fit finds are an allotment that uses up the whole space, for two used symbols and
more.
-/

namespace CanonicalHuffman

/-- The depths of a tree leave room for one another. -/
theorem Tree.leaveRoom (tree : Tree) :
    LeaveRoom tree.height ((tree.leafDepths 0).map Prod.snd) where
  within := by
    intro depth member
    obtain ⟨entry, isEntry, rfl⟩ := List.mem_map.mp member
    have bound := (Tree.depth_bounds isEntry).2
    omega
  sum_le := by
    rw [List.map_map]
    exact Nat.le_of_eq (Tree.sum_leafDepths (Nat.le_of_eq (Nat.zero_add _)))

namespace Histogram

/-- The counts of the used symbols, each with the value of its symbol. -/
def usedEntries {α : Type} (counts : Histogram) (values : List α) : List (UInt32 × α) :=
  (counts.zip values).filter fun entry => entry.1 ≠ 0

/-- What lengths cost when counts below `floor` are raised to it. With floor zero the counts are
taken as they are. -/
def cost (counts : Histogram) (floor : Nat) (lengths : List Nat) : Nat :=
  ((counts.usedEntries lengths).map fun entry => max entry.1.toNat floor * entry.2).sum

/-- Positive lengths for the used symbols whose shares add up to at most one. -/
structure Allotment (counts : Histogram) (lengths : List Nat) : Prop where
  /-- There is one length per symbol. Those of unused symbols have no effect. -/
  length_eq : lengths.length = counts.length
  /-- No used symbol has length zero. -/
  positive : ∀ entry ∈ counts.usedEntries lengths, 0 < entry.2
  /-- The Kraft sum is at most one. -/
  kraft : ((counts.usedEntries lengths).map fun entry => (1 / 2 : ℚ) ^ entry.2).sum ≤ 1

variable {α β : Type} {counts : Histogram} {floor width : Nat} {lengths : List Nat}

/-- Values that are replaced are replaced in the entries of the used symbols. -/
theorem usedEntries_map (counts : Histogram) (values : List α) (f : α → β) :
    counts.usedEntries (values.map f) =
      (counts.usedEntries values).map fun entry => (entry.1, f entry.2) := by
  rw [usedEntries, usedEntries, List.zip_map_right, List.filter_map]
  rfl

/-- The entries have the counts of the used symbols. -/
theorem map_fst_usedEntries {values : List α} (sizes : values.length = counts.length) :
    (counts.usedEntries values).map Prod.fst = counts.filter (· ≠ 0) := by
  conv_rhs => rw [← List.map_fst_zip (Nat.le_of_eq sizes.symm), List.filter_map]
  rfl

/-- The used symbols have one entry each. -/
theorem length_usedEntries {values : List α} (sizes : values.length = counts.length) :
    (counts.usedEntries values).length = counts.used := by
  rw [← List.length_map Prod.fst, map_fst_usedEntries sizes, used, List.countP_eq_length_filter]

/-- An entry belongs to a used symbol. -/
theorem mem_usedEntries_iff {values : List α} {entry : UInt32 × α} :
    entry ∈ counts.usedEntries values ↔ entry.1 ≠ 0 ∧
      ∃ symbol : Nat, counts[symbol]? = some entry.1 ∧ values[symbol]? = some entry.2 := by
  rw [usedEntries, List.mem_filter, List.mem_iff_getElem?, and_comm, decide_eq_true_eq]
  simp only [List.getElem?_zip_eq_some]

/-- The leaves of a histogram, with the values of their symbols, are the used entries. -/
theorem map_leaves (counts : Histogram) (floor : Nat) (sizes : lengths.length = counts.length)
    (f : Nat → Nat → β) :
    (counts.leaves floor).map (fun tip => f tip.weight (lengths.getD tip.symbol 0)) =
      (counts.usedEntries lengths).map fun entry => f (max entry.1.toNat floor) entry.2 := by
  have numbered : counts.zip lengths =
      counts.zipIdx.map fun entry => (entry.1, lengths.getD entry.2 0) := by
    apply List.ext_getElem
    · simp [sizes]
    · intro symbol inside within
      have bound : symbol < lengths.length := by
        rw [List.length_zip] at inside
        omega
      simp [List.getElem?_eq_getElem bound]
  rw [usedEntries, numbered, leaves]
  induction counts.zipIdx with
  | nil => rfl
  | cons entry rest ih =>
    by_cases zero : entry.1 = 0
    · simpa [Leaf.ofCount?, zero] using ih
    · simpa [Leaf.ofCount?, zero] using ih

/-- The leaves in symbol order are the used symbols with their raised counts. -/
theorem leaves_eq_map (counts : Histogram) (floor : Nat) : counts.leaves floor =
    (counts.usedEntries (List.range counts.length)).map fun entry =>
      ⟨max entry.1.toNat floor, entry.2⟩ := by
  rw [← counts.map_leaves floor List.length_range Leaf.mk]
  refine (List.map_id (counts.leaves floor)).symm.trans (List.map_congr_left ?_)
  intro tip member
  rw [List.getD_eq_getElem?_getD, List.getElem?_range (symbol_lt_of_mem_leaves member)]
  rfl

/-- Shares are whole numbers of units. -/
theorem sum_half_pow_mul (within : ∀ length ∈ lengths, length ≤ width) :
    (lengths.map fun length => (1 / 2 : ℚ) ^ length).sum * 2 ^ width =
      ((lengths.map fun length => 2 ^ (width - length)).sum : Nat) := by
  induction lengths with
  | nil => simp
  | cons length rest ih =>
    rw [List.forall_mem_cons] at within
    have unit : (1 / 2 : ℚ) ^ length * 2 ^ width = 2 ^ (width - length) := by
      conv_lhs => rw [← Nat.add_sub_cancel' within.1, pow_add, ← mul_assoc, ← mul_pow]
      norm_num
    rw [List.map_cons, List.map_cons, List.sum_cons, List.sum_cons, add_mul, ih within.2, unit]
    push_cast
    rfl

/-- Lengths leave room for one another exactly when their Kraft sum is at most one. -/
theorem leaveRoom_iff (within : ∀ length ∈ lengths, length ≤ width) :
    LeaveRoom width lengths ↔ (lengths.map fun length => (1 / 2 : ℚ) ^ length).sum ≤ 1 := by
  have scaled := sum_half_pow_mul within
  have positive : (0 : ℚ) < 2 ^ width := by positivity
  rw [← mul_le_mul_iff_left₀ positive, scaled, one_mul]
  constructor
  · intro room
    exact_mod_cast room.sum_le
  · intro sum
    exact ⟨within, by exact_mod_cast sum⟩

/-- The leaves of a histogram, hung at the lengths of their symbols. -/
def hang (counts : Histogram) (floor : Nat) (lengths : List Nat) : Placement :=
  (counts.leaves floor).map fun tip => (.leaf tip, lengths.getD tip.symbol 0)

/-- The trees that are hung up are the leaves of the used symbols. -/
theorem map_fst_hang (counts : Histogram) (floor : Nat) (lengths : List Nat) :
    (counts.hang floor lengths).map Prod.fst = (counts.leaves floor).map Tree.leaf := by
  rw [hang, List.map_map]
  rfl

/-- The depths at which leaves are hung up are the lengths of the used symbols. -/
theorem map_snd_hang (sizes : lengths.length = counts.length) :
    (counts.hang floor lengths).map Prod.snd = (counts.usedEntries lengths).map Prod.snd := by
  rw [hang, List.map_map]
  exact counts.map_leaves floor sizes fun _ length => length

/-- Hung leaves cost what the lengths cost. -/
theorem cost_hang (sizes : lengths.length = counts.length) :
    (counts.hang floor lengths).cost = counts.cost floor lengths := by
  rw [Placement.cost, hang, List.map_map, cost, ← counts.map_leaves floor sizes fun weight length =>
    weight * length]
  congr 1
  apply List.map_congr_left
  intro tip _
  simp [Tree.weight]

/-- Hung leaves are no deeper than the lengths. -/
theorem height_hang_le {limit : Nat} (sizes : lengths.length = counts.length)
    (short : ∀ entry ∈ counts.usedEntries lengths, entry.2 ≤ limit) :
    (counts.hang floor lengths).height ≤ limit := by
  apply Placement.height_le
  intro entry member
  have hung := List.mem_map_of_mem (f := Prod.snd) member
  rw [map_snd_hang sizes] at hung
  obtain ⟨used, isUsed, same⟩ := List.mem_map.mp hung
  obtain ⟨tip, _, rfl⟩ := List.mem_map.mp member
  have bound := short used isUsed
  simp only [Tree.height] at same ⊢
  omega

/-- The lengths of an allotment leave room for the leaves. -/
theorem Allotment.exists_leaveRoom (allotment : Allotment counts lengths) (floor : Nat) :
    ∃ width, LeaveRoom width ((counts.hang floor lengths).map Prod.snd) := by
  rw [map_snd_hang allotment.length_eq]
  have kraft := allotment.kraft
  refine ⟨((counts.usedEntries lengths).map Prod.snd).sum, (leaveRoom_iff ?_).mpr ?_⟩
  · exact fun length member => List.le_sum_of_mem member
  · rw [List.map_map]
    exact kraft

/-- Symbols with codes of at most a limit fit the limit. -/
theorem Allotment.used_le {limit : Nat} (allotment : Allotment counts lengths)
    (short : ∀ entry ∈ counts.usedEntries lengths, entry.2 ≤ limit) : counts.used ≤ 2 ^ limit := by
  have within : ∀ length ∈ (counts.usedEntries lengths).map Prod.snd, length ≤ limit :=
    List.forall_mem_map.mpr short
  have room : LeaveRoom limit ((counts.usedEntries lengths).map Prod.snd) := by
    rw [leaveRoom_iff within, List.map_map]
    exact allotment.kraft
  rw [← length_usedEntries allotment.length_eq, ← List.length_map Prod.snd]
  refine Nat.le_trans ?_ room.sum_le
  rw [← List.length_map (fun length => 2 ^ (limit - length))]
  apply List.length_le_sum_of_one_le
  intro share member
  obtain ⟨length, _, rfl⟩ := List.mem_map.mp member
  exact Nat.one_le_two_pow

variable {tree : Tree} {limit : Nat} {previous : List UInt8}

/-- When lengths are the depths of a tree of the used symbols, the used entries are the leaves with
their depths. -/
theorem usedEntries_perm (same : tree.leaves.Perm (counts.leaves floor))
    (sizes : lengths.length = counts.length)
    (agree : ∀ entry ∈ tree.leafDepths 0, lengths.getD entry.1.symbol 0 = entry.2)
    (f : Nat → Nat → β) :
    ((counts.usedEntries lengths).map fun entry => f (max entry.1.toNat floor) entry.2).Perm
      ((tree.leafDepths 0).map fun entry => f entry.1.weight entry.2) := by
  rw [← counts.map_leaves floor sizes f]
  refine (same.symm.map _).trans (List.Perm.of_eq ?_)
  rw [← Tree.map_fst_leafDepths tree 0, List.map_map]
  apply List.map_congr_left
  intro entry member
  exact congrArg (f entry.1.weight) (agree entry member)

/-- The depths of a tree of the used symbols cost what the tree costs. -/
theorem cost_eq_of_agree (same : tree.leaves.Perm (counts.leaves floor))
    (sizes : lengths.length = counts.length)
    (agree : ∀ entry ∈ tree.leafDepths 0, lengths.getD entry.1.symbol 0 = entry.2) :
    counts.cost floor lengths = tree.cost :=
  (usedEntries_perm same sizes agree fun weight length => weight * length).sum_eq

/-- The depths of a tree of the used symbols are an allotment. -/
theorem allotment_of_agree (same : tree.leaves.Perm (counts.leaves floor)) (many : 2 ≤ counts.used)
    (sizes : lengths.length = counts.length)
    (agree : ∀ entry ∈ tree.leafDepths 0, lengths.getD entry.1.symbol 0 = entry.2) :
    Allotment counts lengths where
  length_eq := sizes
  positive := by
    have below : 2 ≤ tree.leaves.length := by rwa [same.length_eq, length_leaves]
    have entries := usedEntries_perm same sizes agree fun _ length => length
    intro used isUsed
    obtain ⟨entry, isEntry, equal⟩ :=
      List.mem_map.mp (entries.mem_iff.mp (List.mem_map_of_mem isUsed))
    rw [← equal]
    exact Tree.one_le_depth below isEntry
  kraft := by
    have room := tree.leaveRoom
    rw [leaveRoom_iff room.within, List.map_map] at room
    rw [(usedEntries_perm same sizes agree fun _ length => (1 / 2 : ℚ) ^ length).sum_eq]
    exact room

/-- The depths that a tree gives to symbols, however deep it is. -/
def lengthsOf (tree : Tree) (symbols : Nat) : List Nat :=
  (List.range symbols).map fun symbol =>
    (((tree.leafDepths 0).find? fun entry => entry.1.symbol = symbol).map Prod.snd).getD 0

/-- Every leaf of a tree of the used symbols has its depth among the lengths of the tree. -/
theorem getD_lengthsOf (same : tree.leaves.Perm (counts.leaves floor)) :
    ∀ entry ∈ tree.leafDepths 0,
      (lengthsOf tree counts.length).getD entry.1.symbol 0 = entry.2 := by
  intro entry member
  have leaf := same.mem_iff.mp (Tree.mem_leaves_of_mem_leafDepths member)
  have inside := symbol_lt_of_mem_leaves leaf
  rw [lengthsOf, List.getD_eq_getElem?_getD, List.getElem?_map, List.getElem?_range inside,
    Option.map_some, Option.getD_some]
  cases search : (tree.leafDepths 0).find? fun other => other.1.symbol = entry.1.symbol with
  | none => simpa using List.find?_eq_none.mp search entry member
  | some first =>
    have equal : first.1.symbol = entry.1.symbol := by simpa using List.find?_some search
    have isLeaf := List.mem_of_find?_eq_some search
    rw [List.inj_on_of_nodup_map (nodup_leafDepths same) isLeaf member equal]
    rfl

/-- There is one length per symbol. -/
@[simp] theorem length_lengthsOf (tree : Tree) (symbols : Nat) :
    (lengthsOf tree symbols).length = symbols := by
  simp [lengthsOf]

/-- The lengths of the tree of a histogram cost what the tree costs. -/
theorem cost_lengthsOf (found : counts.tree floor = some tree) :
    counts.cost floor (lengthsOf tree counts.length) = tree.cost :=
  have same := leaves_perm_of_tree found
  cost_eq_of_agree same (length_lengthsOf ..) (getD_lengthsOf same)

/-- The lengths of the tree of a histogram are an allotment. -/
theorem allotment_lengthsOf (many : 2 ≤ counts.used) (found : counts.tree floor = some tree) :
    Allotment counts (lengthsOf tree counts.length) :=
  have same := leaves_perm_of_tree found
  allotment_of_agree same many (length_lengthsOf ..) (getD_lengthsOf same)

/-- The depths that are written for a tree within the limit are those of its leaves. -/
theorem getD_depthsAt (many : 2 ≤ counts.used) (found : counts.tree floor = some tree)
    (fits : counts.heightAt floor ≤ limit) (short : limit ≤ 255) :
    ∀ entry ∈ tree.leafDepths 0,
      ((counts.depthsAt floor).map UInt8.toNat).getD entry.1.symbol 0 = entry.2 := by
  intro entry member
  obtain ⟨_, _, exact⟩ := writtenDepth_bounds many found fits short member
  rw [List.getD_eq_getElem?_getD, List.getElem?_map, getElem?_depthsAt found member]
  exact exact

/-- The used entries with the depths that are written for a tree are the leaves with their depths.
-/
theorem usedEntries_depthsAt_perm (many : 2 ≤ counts.used) (found : counts.tree floor = some tree)
    (fits : counts.heightAt floor ≤ limit) (short : limit ≤ 255) (f : Nat → Nat → β) :
    ((counts.usedEntries (counts.depthsAt floor)).map fun entry =>
        f (max entry.1.toNat floor) entry.2.toNat).Perm
      ((tree.leafDepths 0).map fun entry => f entry.1.weight entry.2) := by
  have entries := usedEntries_perm (leaves_perm_of_tree found) (by simp)
    (getD_depthsAt many found fits short) f
  rw [usedEntries_map, List.map_map] at entries
  exact entries

/-- A used symbol has a depth between one and the limit. -/
theorem bounds_of_mem_usedEntries {depths : List UInt8} (code : CodeDepths counts limit depths)
    {entry : UInt32 × UInt8} (member : entry ∈ counts.usedEntries depths) :
    entry.2 ≠ 0 ∧ entry.2.toNat ≤ limit := by
  obtain ⟨used, symbol, isCount, isDepth⟩ := mem_usedEntries_iff.mp member
  refine ⟨fun zero => used ?_, code.within _ (List.mem_of_getElem? isDepth)⟩
  rw [zero, code.zero_iff, isCount] at isDepth
  exact Option.some.inj isDepth

/-- A fit with room for the used symbols gives depth zero to the unused symbols only, and depths of
at most the limit to the used ones. Two used symbols and more fill the space of bit strings, and a
lone one has depth one. Neither the previous depths have an effect, nor what earlier rounds wrote:
the accepted floor yields the same depths from any state in which unused symbols have depth zero. -/
theorem fit_fills_code_space (counts : Histogram) (limit : Nat) (previous : List UInt8)
    (legal : 1 ≤ limit) (short : limit ≤ 15) (sizes : counts.length = previous.length)
    (fits : counts.used ≤ 2 ^ limit) :
    ∃ fitting, counts.fit limit previous = .ok fitting ∧
      fitting.depths.length = counts.length ∧
      (∀ symbol : Nat, fitting.depths[symbol]? = some 0 ↔ counts[symbol]? = some 0) ∧
      (∀ entry ∈ counts.usedEntries fitting.depths,
        1 ≤ entry.2.toNat ∧ entry.2.toNat ≤ limit) ∧
      (2 ≤ counts.used → ((counts.usedEntries fitting.depths).map fun entry =>
        2 ^ (limit - entry.2.toNat)).sum = 2 ^ limit) ∧
      (counts.used = 1 → ∀ entry ∈ counts.usedEntries fitting.depths, entry.2 = 1) ∧
      (∀ other : List UInt8, counts.length = other.length →
        counts.fit limit other = .ok fitting) ∧
      (2 ≤ counts.used →
        (∀ rounds ≤ 32, ∃ before, counts.roundsTo rounds = .ok before ∧ before.Ready counts) ∧
        ∀ before : Round, before.Ready counts → ∃ after,
          before.next (counts.sortedLeaves fitting.floor) = .ok after ∧
            after.deepest ≤ limit ∧ after.depths.toList = fitting.depths) := by
  obtain ⟨fitting, fitted, code⟩ := fit_ok legal short sizes fits
  have bounds : ∀ entry ∈ counts.usedEntries fitting.depths,
      entry.2 ≠ 0 ∧ entry.2.toNat ≤ limit := fun _ => bounds_of_mem_usedEntries code
  have crowd := used_le_of_fits fits short
  have accepted : 2 ≤ counts.used → ∃ floor, counts.heightAt floor ≤ limit ∧
      counts.raisedTotal floor < UInt64.size ∧ fitting = ⟨floor, counts.depthsAt floor⟩ := by
    intro many
    obtain ⟨round, early, low, _, again⟩ := fit_of_many legal short sizes many fits
    have light := raisedTotal_two_pow_lt crowd (round_lt (by omega) early)
    exact ⟨2 ^ round, low, light, Except.ok.inj (fitted.symm.trans again)⟩
  refine ⟨fitting, fitted, code.length_eq, code.zero_iff, ?_, ?_, ?_, ?_, ?_⟩
  · intro entry member
    obtain ⟨filled, within⟩ := bounds entry member
    have positive : entry.2.toNat ≠ 0 := fun zero => filled (UInt8.toNat_inj.mp zero)
    exact ⟨by omega, within⟩
  · intro many
    obtain ⟨floor, low, _, rfl⟩ := accepted many
    obtain ⟨tree, found⟩ := exists_tree (by omega : counts.used ≠ 0) floor
    have height : tree.height ≤ limit := heightAt_eq found ▸ low
    have shares := usedEntries_perm (leaves_perm_of_tree found) (by simp)
      (getD_depthsAt many found low (by omega)) fun _ depth => 2 ^ (limit - depth)
    rw [usedEntries_map, List.map_map] at shares
    exact shares.sum_eq.trans (Tree.sum_leafDepths (by omega))
  · intro lone entry member
    obtain ⟨filled, _⟩ := bounds entry member
    obtain ⟨_, symbol, _, isDepth⟩ := mem_usedEntries_iff.mp member
    exact code.lone lone _ (List.mem_of_getElem? isDepth) filled
  · intro other otherSizes
    rw [fit_congr (otherSizes.symm.trans sizes), fitted]
  · intro many
    have filled : counts.used ≠ 0 := by omega
    refine ⟨fun _ few => exists_roundsTo filled crowd few, fun before ready => ?_⟩
    obtain ⟨floor, low, light, rfl⟩ := accepted many
    obtain ⟨after, stepped, _, deepest, depths⟩ := ready.next_ok filled light
    exact ⟨after, stepped, deepest.trans_le low, depths⟩

/-- The depths of three used symbols fill the space below two bits, whatever stood there before. -/
theorem fit_fills_code_space_of_three_symbols :
    ∃ fitting, fit [5, 0, 1, 1] 2 [255, 255, 255, 255] = .ok fitting ∧
      ((usedEntries [5, 0, 1, 1] fitting.depths).map fun entry =>
        2 ^ (2 - entry.2.toNat)).sum = 2 ^ 2 ∧
      fit [5, 0, 1, 1] 2 [7, 0, 9, 1] = .ok fitting := by
  obtain ⟨fitting, fitted, _, _, _, fills, _, congr, _⟩ := fit_fills_code_space [5, 0, 1, 1] 2
    [255, 255, 255, 255] (by decide) (by decide) rfl (by decide)
  exact ⟨fitting, fitted, fills (by decide), congr [7, 0, 9, 1] rfl⟩

end Histogram

end CanonicalHuffman
