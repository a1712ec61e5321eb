import CanonicalHuffman.Proofs.Profiles
import CanonicalHuffman.Proofs.Runs
import CanonicalHuffman.Proofs.Searching
import Mathlib.Data.List.GetD

/-!
# Depths follow the order of the counts

With counts raised to the floor of a fit, a symbol is no deeper than any symbol that is taken before
it, by raised count and then by position, and two symbols of one raised count are at most one level
apart. So a row of equal counts gets two rows of equal depths at most, the deeper one first, and the
depths have at most twice as many runs as the counts: levelling counts shortens the description of
the depths.
-/

namespace CanonicalHuffman

namespace Histogram

/-- Depths that do not grow and lie at most one level apart are two rows of equal depths. -/
theorem exists_rows {depths : List UInt8}
    (falling : depths.Pairwise fun depth later => later ≤ depth)
    (near : ∀ depth ∈ depths, ∀ other ∈ depths, depth.toNat ≤ other.toNat + 1) :
    ∃ longs shorts longer shorter,
      depths = List.replicate longs longer ++ List.replicate shorts shorter ∧ shorter ≤ longer := by
  cases depths with
  | nil => exact ⟨0, 0, 0, 0, rfl, UInt8.le_refl _⟩
  | cons longer rest =>
    obtain ⟨longs, others, split, apart⟩ := Run.exists_first_row longer rest
    cases others with
    | nil => exact ⟨longs, 0, longer, longer, split, UInt8.le_refl _⟩
    | cons shorter later =>
      have within : ∀ depth ∈ shorter :: later, depth ≤ longer ∧
          longer.toNat ≤ depth.toNat + 1 := by
        intro depth isLater
        have member : depth ∈ longer :: rest := by
          rw [split]
          exact List.mem_append_right _ isLater
        refine ⟨?_, near longer List.mem_cons_self depth member⟩
        rcases List.mem_cons.mp member with rfl | after
        · exact UInt8.le_refl _
        · exact (List.pairwise_cons.mp falling).1 depth after
      have order := (within shorter List.mem_cons_self).1
      have differ : shorter.toNat ≠ longer.toNat := fun same =>
        apart shorter rfl (UInt8.toNat_inj.mp same)
      rw [split, List.pairwise_append] at falling
      have row : shorter :: later = List.replicate (later.length + 1) shorter := by
        refine List.eq_replicate_iff.mpr
          ⟨rfl, List.forall_mem_cons.mpr ⟨rfl, fun depth member => ?_⟩⟩
        have below := (List.pairwise_cons.mp falling.2.1).1 depth member
        have close := (within depth (List.mem_cons_of_mem _ member)).2
        rw [UInt8.le_iff_toNat_le] at below order
        exact UInt8.toNat_inj.mp (by omega)
      exact ⟨longs, later.length + 1, longer, shorter, by rw [split, ← row], order⟩

/-- The count of a symbol, raised to a floor. -/
def raisedCount (counts : Histogram) (floor symbol : Nat) : Nat :=
  max (counts.getD symbol 0).toNat floor

/-- Depths that follow the order of the counts of a histogram raised to a floor. -/
structure DepthOrder (counts : Histogram) (floor : Nat) (depths : List UInt8) : Prop where
  /-- There is one depth per symbol. -/
  length_eq : depths.length = counts.length
  /-- Unused symbols have depth zero. -/
  unused : ∀ symbol, counts.getD symbol 0 = 0 → depths.getD symbol 0 = 0
  /-- A used symbol is no deeper than one of a lower raised count, or of the same raised count in a
  lower position. -/
  falling : ∀ symbol other, counts.getD symbol 0 ≠ 0 → counts.getD other 0 ≠ 0 →
    counts.raisedCount floor symbol < counts.raisedCount floor other ∨
      (counts.raisedCount floor symbol = counts.raisedCount floor other ∧ symbol < other) →
    depths.getD other 0 ≤ depths.getD symbol 0
  /-- The depths of used symbols with the same raised count differ by at most one. -/
  near : ∀ symbol other, counts.getD symbol 0 ≠ 0 → counts.getD other 0 ≠ 0 →
    counts.raisedCount floor symbol = counts.raisedCount floor other →
    (depths.getD symbol 0).toNat ≤ (depths.getD other 0).toNat + 1

namespace DepthOrder

variable {counts front back : Histogram} {floor size : Nat} {count : UInt32} {depths : List UInt8}

/-- The counts of a row. -/
theorem getD_of_row (split : counts = front ++ List.replicate size count ++ back) {offset : Nat}
    (inside : offset < size) : counts.getD (front.length + offset) 0 = count := by
  rw [split, List.append_assoc, List.getD_append_right _ _ _ _ (Nat.le_add_right ..),
    Nat.add_sub_cancel_left, List.getD_append _ _ _ _ (by simpa using inside),
    List.getD_replicate _ inside]

/-- The depths in the place of a row. -/
theorem getElem_take_drop {first offset : Nat}
    (inside : offset < ((depths.drop first).take size).length) :
    ((depths.drop first).take size)[offset] = depths.getD (first + offset) 0 := by
  rw [List.length_take, List.length_drop] at inside
  rw [List.getElem_take, List.getElem_drop, List.getD_eq_getElem]

/-- A row of equal counts gets two rows of equal depths at most, the deeper one first. -/
theorem exists_rows_of_row (order : DepthOrder counts floor depths) (used : count ≠ 0)
    (split : counts = front ++ List.replicate size count ++ back) :
    ∃ longs shorts longer shorter, (depths.drop front.length).take size =
      List.replicate longs longer ++ List.replicate shorts shorter ∧ shorter ≤ longer := by
  have isUsed : ∀ offset < size, counts.getD (front.length + offset) 0 ≠ 0 :=
    fun offset inside => by
    rwa [getD_of_row split inside]
  have raised : ∀ offset < size, counts.raisedCount floor (front.length + offset) =
      max count.toNat floor := fun offset inside => by rw [raisedCount, getD_of_row split inside]
  apply exists_rows
  · refine List.pairwise_iff_getElem.mpr fun offset later inside within before => ?_
    rw [getElem_take_drop, getElem_take_drop]
    rw [List.length_take] at inside within
    refine order.falling _ _ (isUsed offset (by omega)) (isUsed later (by omega))
      (.inr ⟨?_, by omega⟩)
    rw [raised offset (by omega), raised later (by omega)]
  · intro depth member other isOther
    obtain ⟨offset, inside, rfl⟩ := List.mem_iff_getElem.mp member
    obtain ⟨later, within, rfl⟩ := List.mem_iff_getElem.mp isOther
    rw [getElem_take_drop, getElem_take_drop]
    rw [List.length_take] at inside within
    apply order.near _ _ (isUsed offset (by omega)) (isUsed later (by omega))
    rw [raised offset (by omega), raised later (by omega)]

/-- The depths have at most twice as many runs as the counts. -/
theorem length_runs_le (order : DepthOrder counts floor depths) :
    (Run.runs depths).length ≤ 2 * (Run.runs counts).length := by
  apply Run.length_runs_le_mul
  · rw [order.length_eq, Run.layout_runs]
  · intro front run back split
    have counted :
        counts = Run.layout front ++ List.replicate run.size run.value ++ Run.layout back := by
      rw [← Run.layout_runs counts, split]
      simp [Run.layout, Run.toList]
    by_cases used : run.value = 0
    · have zeros : (depths.drop (Run.layout front).length).take run.size = List.replicate
          ((depths.drop (Run.layout front).length).take run.size).length 0 := by
        refine List.eq_replicate_iff.mpr ⟨rfl, fun depth member => ?_⟩
        obtain ⟨offset, inside, rfl⟩ := List.mem_iff_getElem.mp member
        rw [getElem_take_drop]
        rw [List.length_take] at inside
        exact order.unused _ ((getD_of_row counted (by omega)).trans used)
      rw [zeros]
      exact Nat.le_succ_of_le (Run.length_runs_replicate_le ..)
    · obtain ⟨longs, shorts, longer, shorter, rows, _⟩ := order.exists_rows_of_row used counted
      rw [rows]
      have joined := Run.length_runs_append_le (List.replicate longs longer)
        (List.replicate shorts shorter)
      have first := Run.length_runs_replicate_le longs longer
      have second := Run.length_runs_replicate_le shorts shorter
      omega

end DepthOrder

variable {counts : Histogram} {floor limit : Nat} {tree : Tree}

/-- In the tree of a histogram a leaf is no deeper than one that is taken before it. -/
theorem leafDepth_le (found : counts.tree floor = some tree) {entry other : Leaf × Nat}
    (member : entry ∈ tree.leafDepths 0) (isOther : other ∈ tree.leafDepths 0)
    (before : entry.1.precedes other.1 = false) : other.2 ≤ entry.2 := by
  obtain ⟨entries, own, same, ordered, _⟩ := exists_ordered_leafDepths found
  have sorted : entries.Pairwise fun entry later => later.1.precedes entry.1 = true := by
    refine List.pairwise_map.mp (?_ : (entries.map Prod.fst).Pairwise fun first later =>
      later.precedes first = true)
    rw [own]
    exact List.pairwise_reverse.mpr (sortedLeaves_pairwise counts floor)
  -- either the other leaf stands behind the first one, or it is the one to be taken before
  refine List.Pairwise.forall_of_forall_of_flip
    (R := fun entry other : Leaf × Nat => entry.1.precedes other.1 = false → other.2 ≤ entry.2)
    (fun _ _ _ => Nat.le_refl _) ?_ ?_ (same.mem_iff.mp member) (same.mem_iff.mp isOther) before
  · refine ordered.imp ?_
    exact fun deeper _ => deeper
  · refine sorted.imp ?_
    exact fun after never => by simp [after] at never

/-- A used symbol has the depth of the leaf that carries its raised count. -/
theorem exists_leafDepth_getD (many : 2 ≤ counts.used) (found : counts.tree floor = some tree)
    (fits : counts.heightAt floor ≤ limit) (short : limit ≤ 255) {symbol : Nat}
    (used : counts.getD symbol 0 ≠ 0) :
    ∃ depth, (⟨counts.raisedCount floor symbol, symbol⟩, depth) ∈ tree.leafDepths 0 ∧
      ((counts.depthsAt floor).getD symbol 0).toNat = depth := by
  have inside : symbol < counts.length := by
    by_contra outside
    exact used (List.getD_eq_default _ _ (Nat.le_of_not_lt outside))
  have isCount : counts[symbol]? = some (counts.getD symbol 0) := by
    rw [List.getD_eq_getElem _ _ inside, List.getElem?_eq_getElem inside]
  obtain ⟨depth, member⟩ := exists_leafDepth found isCount used
  refine ⟨depth, member, ?_⟩
  rw [List.getD_eq_getElem?_getD, getElem?_depthsAt found member]
  exact (writtenDepth_bounds many found fits short member).2.2

/-- The depths of the tree of a histogram follow the order of its counts when they fit a byte. -/
theorem depthOrder_depthsAt (many : 2 ≤ counts.used) (fits : counts.heightAt floor ≤ limit)
    (short : limit ≤ 255) : DepthOrder counts floor (counts.depthsAt floor) := by
  obtain ⟨tree, found⟩ := exists_tree (show counts.used ≠ 0 by omega) floor
  refine ⟨length_depthsAt counts floor, ?_, ?_, ?_⟩
  · intro symbol unused
    by_cases inside : symbol < counts.length
    · rw [List.getD_eq_getElem _ _ inside] at unused
      have zero : counts[symbol]? = some 0 := by rw [List.getElem?_eq_getElem inside, unused]
      rw [List.getD_eq_getElem?_getD, getElem?_depthsAt_of_unused zero, Option.getD_some]
    · exact List.getD_eq_default _ _ (by rw [length_depthsAt]; omega)
  · intro symbol other used otherUsed before
    obtain ⟨_, member, depth⟩ := exists_leafDepth_getD many found fits short used
    obtain ⟨_, isOther, otherDepth⟩ := exists_leafDepth_getD many found fits short otherUsed
    rw [UInt8.le_iff_toNat_le, depth, otherDepth]
    apply leafDepth_le found member isOther
    rw [← Bool.not_eq_true, Leaf.precedes_iff]
    simp only
    omega
  · intro symbol other used otherUsed weight
    obtain ⟨_, member, depth⟩ := exists_leafDepth_getD many found fits short used
    obtain ⟨_, isOther, otherDepth⟩ := exists_leafDepth_getD many found fits short otherUsed
    obtain ⟨entries, _, same, _, near⟩ := exists_ordered_leafDepths found
    rw [depth, otherDepth]
    exact near _ (same.mem_iff.mp member) _ (same.mem_iff.mp isOther) (Nat.le_of_eq weight.symm)

/-- The depths that a fit finds follow the order of the counts raised to its floor. A row of equal
counts gets two rows of equal depths at most, the deeper one first, and the depths have at most
twice as many runs as the counts. -/
theorem fit_orders_depths (counts : Histogram) (limit : Nat) (previous : List UInt8)
    (legal : 1 ≤ limit) (short : limit ≤ 15) (sizes : counts.length = previous.length)
    (many : 2 ≤ counts.used) (fits : counts.used ≤ 2 ^ limit) :
    ∃ fitting, counts.fit limit previous = .ok fitting ∧
      DepthOrder counts fitting.floor fitting.depths ∧
      (∀ front size count back, counts = front ++ List.replicate size count ++ back → count ≠ 0 →
        ∃ longs shorts longer shorter, (fitting.depths.drop front.length).take size =
          List.replicate longs longer ++ List.replicate shorts shorter ∧ shorter ≤ longer) ∧
      (Run.runs fitting.depths).length ≤ 2 * (Run.runs counts).length := by
  obtain ⟨round, _, low, _, fitted⟩ := fit_of_many legal short sizes many fits
  have order : DepthOrder counts (2 ^ round) (counts.depthsAt (2 ^ round)) :=
    depthOrder_depthsAt many low (by omega)
  refine ⟨_, fitted, order, ?_, order.length_runs_le⟩
  intro front size count back split used
  exact order.exists_rows_of_row used split

/-- Three equal counts get two rows of depths at most. -/
theorem fit_orders_depths_of_equal_counts :
    ∃ fitting, fit [5, 5, 5, 0, 2] 3 [0, 0, 0, 0, 0] = .ok fitting ∧
      DepthOrder [5, 5, 5, 0, 2] fitting.floor fitting.depths ∧
      (∃ longs shorts longer shorter, fitting.depths.take 3 =
        List.replicate longs longer ++ List.replicate shorts shorter ∧ shorter ≤ longer) ∧
      (Run.runs fitting.depths).length ≤ 2 * 3 := by
  obtain ⟨fitting, fitted, order, rows, runs⟩ := fit_orders_depths [5, 5, 5, 0, 2] 3 [0, 0, 0, 0, 0]
    (by decide) (by decide) rfl (by decide) (by decide)
  exact ⟨fitting, fitted, order, rows [] 3 5 [0, 2] rfl (by decide), runs⟩

end Histogram

end CanonicalHuffman
