import CanonicalHuffman.Proofs.Levelling
import CanonicalHuffman.Proofs.Runs
import CanonicalHuffman.Proofs.Searching

/-!
# What shaping leaves alone

A row of equal counts that is long enough lies within a cheap run, and a count in a cheap run is a
block of its own, which levelling keeps. Elsewhere a count is replaced by the level of its block,
which is no larger than the largest count and not zero unless the whole block is. No sum that the
sweep forms, and no level that it writes, is too large for its machine word.
-/

namespace CanonicalHuffman

open Histogram

/-- The numbers of a sweep fit their machine words: the sum of its block, with the half of the size
that rounding adds, is below `2 ^ 64`, and cutting the level to 32 bits loses nothing. -/
structure Sweep.FitsWords {n : Nat} (sweep : Sweep n) (passed : Nat) : Prop where
  /-- The sum does not overflow, and neither does rounding. -/
  sum_lt : sweep.sum + (passed - sweep.start) / 2 < 2 ^ 64
  /-- The level is written as it is computed. -/
  level_eq : (levelOf sweep.sum (passed - sweep.start)).toNat =
    if sweep.sum = 0 then 0 else max 1 (roundedMean sweep.sum (passed - sweep.start))

namespace Histogram

/-- The marks of a histogram in an array are as many as its counts. -/
theorem size_cheapMarks (counts : Histogram) : counts.cheapMarks.toArray.size = counts.length :=
  counts.length_cheapMarks

/-- The sweep over a histogram after the first positions. -/
def sweepAfter (counts : Histogram) (passed : Nat) : Sweep counts.length :=
  Sweep.after ⟨counts.cheapMarks.toArray, counts.size_cheapMarks⟩
    ⟨counts.toArray, List.size_toArray⟩ passed

variable {counts : Histogram} {last : Nat}

section Marks

/-- All counts of a run have the mark of the run. -/
theorem getElem?_cheapMarks_of_run {before after : List (Run UInt32)} {run : Run UInt32}
    (cut : Run.runs counts = before ++ run :: after) {offset : Nat} (inside : offset < run.size) :
    counts.cheapMarks[(Run.layout before).length + offset]? = some (isCheap run) := by
  have front : (before.flatMap fun run => List.replicate run.size (isCheap run)).length =
      (Run.layout before).length := by
    simp [Run.layout, Run.toList, List.length_flatMap]
  rw [cheapMarks, cut, List.flatMap_append, List.flatMap_cons,
    List.getElem?_append_right (by omega),
    front, Nat.add_sub_cancel_left, List.getElem?_append_left (by simpa using inside),
    List.getElem?_replicate_of_lt inside]

/-- The counts of a row have one mark, which says that they are cheap if the row is long. -/
theorem exists_mark_of_row {front back : Histogram} {size : Nat} {value : UInt32}
    (split : counts = front ++ List.replicate (size + 1) value ++ back) :
    ∃ mark, (∀ offset ≤ size, counts.cheapMarks[front.length + offset]? = some mark) ∧
      (isCheap ⟨value, size + 1⟩ = true → mark = true) := by
  obtain ⟨before, run, after, cut, same, start, stop⟩ := Run.exists_run_of_row front size value back
  rw [← split] at cut
  refine ⟨isCheap run, fun offset inside => ?_, fun long => ?_⟩
  · obtain ⟨earlier, place⟩ := Nat.exists_eq_add_of_le start
    have mark := getElem?_cheapMarks_of_run cut (show earlier + offset < run.size by omega)
    rwa [← Nat.add_assoc, ← place] at mark
  · have size_le : size + 1 ≤ run.size := by omega
    simp only [isCheap, same] at long ⊢
    split at long <;> simp_all <;> omega

end Marks

section Levels

/-- A levelled block has as many counts as before. -/
@[simp] theorem length_levelBlock (block : Histogram) :
    (levelBlock block).length = block.length := by
  rw [levelBlock]
  split
  · rfl
  · exact List.length_replicate

/-- Levelling keeps the counts of cheap runs. -/
theorem getElem?_flatMap_cutWith {opening offset : Nat} {marked : List Marked} {count : UInt32}
    (cheap : marked[offset]? = some (count, true)) :
    ((cutWith opening marked).flatMap levelBlock)[offset]? = some count := by
  fun_induction cutWith opening marked generalizing offset with
  | case1 => simp at cheap
  | case2 opening first rest ih =>
    have single : levelBlock [first] = [first] := rfl
    rw [List.flatMap_cons, single]
    cases offset with
    | zero => simpa using cheap
    | succ offset => simpa using ih (by simpa using cheap)
  | case3 opening first rest size =>
    rename_i ih
    have length : ((first :: (rest.take size).map Prod.fst) : Histogram).length = size + 1 := by
      rw [List.length_cons, List.length_map, List.length_take,
        Nat.min_eq_left reach_le_length]
    rw [List.flatMap_cons]
    cases offset with
    | zero => simp at cheap
    | succ offset =>
      rw [List.getElem?_cons_succ] at cheap
      have behind : size ≤ offset := by
        refine Nat.le_of_not_lt fun joins => ?_
        obtain ⟨next, found, _⟩ := near_of_lt_reach joins
        rw [found] at cheap
        simp at cheap
      rw [List.getElem?_append_right (by rw [length_levelBlock, length]; omega), length_levelBlock,
        length]
      apply ih
      rw [List.getElem?_drop, ← cheap]
      congr 1
      omega

/-- A count in a cheap run is kept. -/
theorem getElem?_levelled_of_cheap {position : Nat}
    (cheap : counts.cheapMarks[position]? = some true) :
    counts.levelled[position]? = counts[position]? := by
  have inside : position < counts.length := by
    rw [← length_cheapMarks]
    exact (List.getElem?_eq_some_iff.mp cheap).1
  have value := List.getElem?_eq_getElem inside
  have filled : counts ≠ [] := List.length_pos_iff.mp (Nat.zero_lt_of_lt inside)
  rw [value, levelled_eq_flatMap filled, blocks]
  exact getElem?_flatMap_cutWith (List.getElem?_zip_eq_some.mpr ⟨value, cheap⟩)

/-- The level of a block does not exceed a bound of its counts. -/
theorem toNat_le_of_mem_levelBlock {block : Histogram} {bound : Nat}
    (small : ∀ count ∈ block, count.toNat ≤ bound) {level : UInt32}
    (member : level ∈ levelBlock block) :
    level.toNat ≤ bound := by
  rw [levelBlock, ← total] at member
  split at member
  · exact small level member
  · next long =>
    rw [List.eq_of_mem_replicate member,
      toNat_levelOf_total (fun empty => long (by rw [empty]; decide))]
    have whole := total_le_mul small
    split
    · exact Nat.zero_le _
    · next positive =>
      have least : 1 ≤ bound := by
        refine Nat.one_le_iff_ne_zero.mpr fun zero => positive ?_
        rw [zero, Nat.mul_zero] at whole
        exact Nat.le_zero.mp whole
      have mean : (total block + block.length / 2) / block.length ≤ bound := by
        rw [← Nat.lt_succ_iff, Nat.div_lt_iff_lt_mul (by omega), Nat.succ_mul, Nat.mul_comm bound]
        omega
      exact Nat.max_le.mpr ⟨least, mean⟩

/-- No level exceeds the largest count. -/
theorem toNat_le_largest_of_mem_shape {level : UInt32} (member : level ∈ counts.shape.counts) :
    level.toNat ≤ counts.largest := by
  by_cases used : ∃ count ∈ counts, count ≠ 0
  · obtain ⟨last, lastUsed⟩ := exists_lastUsed used
    rw [lastUsed.shape_eq, levelled_eq_flatMap lastUsed.upTo_ne_nil, List.mem_append] at member
    rcases member with front | behind
    · obtain ⟨block, isBlock, inside⟩ := List.mem_flatMap.mp front
      refine toNat_le_of_mem_levelBlock (fun count isCount => ?_) inside
      apply toNat_le_largest
      apply List.mem_of_mem_take (i := last + 1)
      rw [← upTo, ← flatten_blocks (counts.upTo last)]
      exact List.mem_flatten.mpr ⟨block, isBlock, isCount⟩
    · exact toNat_le_largest (List.mem_of_mem_drop behind)
  · have zeros : ∀ count ∈ counts, count = 0 := by simpa using used
    rw [shape, if_pos ((trimmed_eq_nil_iff counts).mpr zeros)] at member
    exact toNat_le_largest member

/-- Levelling changes nothing where every run is cheap. -/
theorem levelled_eq_self (cheap : ∀ run ∈ Run.runs counts, isCheap run = true) :
    counts.levelled = counts := by
  apply List.ext_getElem?
  intro position
  by_cases inside : position < counts.length
  · apply getElem?_levelled_of_cheap
    have marked : position < counts.cheapMarks.length := by rwa [length_cheapMarks]
    have member := List.getElem_mem marked
    obtain ⟨run, isRun, mark⟩ := List.mem_flatMap.mp member
    rw [List.getElem?_eq_getElem marked, List.eq_of_mem_replicate mark, cheap run isRun]
  · rw [List.getElem?_eq_none (by rw [length_levelled]; omega), List.getElem?_eq_none (by omega)]

end Levels

section Words

/-- The numbers of a sweep over fewer than `2 ^ 32` counts fit their machine words. -/
theorem fitsWords_sweepAfter {passed : Nat} (few : counts.length < 2 ^ 32)
    (inside : passed ≤ counts.length) : (counts.sweepAfter passed).FitsWords passed := by
  have sound : Sweep.Sound ⟨counts.toArray, rfl⟩ passed (counts.sweepAfter passed) :=
    Sweep.sound_after (Nat.le_succ_of_le inside)
  have start := sound.start_le
  have small : (counts.sweepAfter passed).sum ≤
      (passed - (counts.sweepAfter passed).start) * (2 ^ 32 - 1) := by
    rw [sound.sum_eq]
    exact Sweep.blockSum_le start inside
  constructor
  · omega
  · split
    · next zero => rw [zero, levelOf, if_pos rfl, UInt32.toNat_zero]
    · next positive => exact toNat_levelOf positive (by omega) small

end Words

/-- A count in a long row up to the last used symbol is kept. -/
theorem LastUsed.getElem?_shape_of_row (lastUsed : counts.LastUsed last) {front back : Histogram}
    {size offset : Nat} {value : UInt32}
    (split : counts.upTo last = front ++ List.replicate size value ++ back)
    (long : isCheap ⟨value, size⟩ = true) (inside : offset < size) :
    counts.shape.counts[front.length + offset]? = some value := by
  obtain ⟨more, rfl⟩ := Nat.exists_eq_succ_of_ne_zero (Nat.ne_of_gt (Nat.zero_lt_of_lt inside))
  obtain ⟨mark, marks, cheap⟩ := exists_mark_of_row split
  have isCheap := marks offset (Nat.le_of_lt_succ inside)
  rw [cheap long] at isCheap
  have found : (counts.upTo last)[front.length + offset]? = some value := by
    rw [split, List.append_assoc, List.getElem?_append_right (Nat.le_add_right ..),
      Nat.add_sub_cancel_left, List.getElem?_append_left (by simpa using inside),
      List.getElem?_replicate_of_lt inside]
  have within : front.length + offset < (counts.upTo last).levelled.length := by
    rw [length_levelled]
    exact (List.getElem?_eq_some_iff.mp found).1
  rw [lastUsed.shape_eq, List.getElem?_append_left within, getElem?_levelled_of_cheap isCheap,
    found]

/-- Shaping keeps the number of counts and finds no used symbol exactly when every count is zero, in
which case nothing changes. No used symbol is lost and no count grows past the largest one. Up to
the last used symbol the counts are those of the sweep, and every count in a row of five zeros or
seven equal counts stays as it is, so a histogram of such runs alone does not change. Behind the
last used symbol all counts stay zero. The numbers of the sweep fit their machine words when there
are fewer than `2 ^ 32` counts, and so does the sum of four counts that a block opens with. -/
theorem shape_keeps_cheap_rows (counts : Histogram) :
    counts.shape.counts.length = counts.length ∧
    (counts.shape.outcome = .allZero ↔ ∀ count ∈ counts, count = 0) ∧
    (counts.shape.outcome = .allZero → counts.shape.counts = counts) ∧
    (∀ (position : Nat) (count : UInt32), counts[position]? = some count → count ≠ 0 →
      ∃ level, counts.shape.counts[position]? = some level ∧ level ≠ 0) ∧
    (∀ level ∈ counts.shape.counts, level.toNat ≤ counts.largest) ∧
    ∀ last, counts.LastUsed last →
      counts.shape.counts = ((counts.upTo last).sweepAfter (last + 2)).counts.toList ++
        List.replicate (counts.length - (last + 1)) 0 ∧
      (∀ front size value back, counts.upTo last = front ++ List.replicate size value ++ back →
        (if value = 0 then 5 ≤ size else 7 ≤ size) →
        ∀ offset < size, counts.shape.counts[front.length + offset]? = some value) ∧
      ((∀ run ∈ Run.runs (counts.upTo last), if run.value = 0 then 5 ≤ run.size else 7 ≤ run.size) →
        counts.shape.counts = counts) ∧
      (counts.length < 2 ^ 32 → ∀ passed ≤ last + 1,
        ((counts.upTo last).sweepAfter passed).FitsWords passed ∧
        total (((counts.upTo last).drop passed).take 4) + 2 < 2 ^ 64) := by
  refine ⟨length_shape counts, ?_, ?_, fun _ _ => shape_ne_zero,
    fun _ => toNat_le_largest_of_mem_shape, fun last lastUsed => ⟨?_, ?_, ?_, ?_⟩⟩
  · rw [← trimmed_eq_nil_iff, shape]
    split <;> simp_all
  · intro zeros
    rw [shape] at zeros ⊢
    split at zeros
    · next blank => rw [if_pos blank]
    · contradiction
  · have swept : (counts.upTo last).levelled =
        ((counts.upTo last).sweepAfter (last + 2)).counts.toList :=
      congrArg (fun passed => ((counts.upTo last).sweepAfter passed).counts.toList)
        (congrArg Nat.succ lastUsed.length_upTo)
    rw [lastUsed.shape_eq, ← lastUsed.drop_eq, swept]
  · intro front size value back split long offset inside
    refine lastUsed.getElem?_shape_of_row split ?_ inside
    simpa [isCheap] using long
  · intro cheap
    rw [lastUsed.shape_eq, levelled_eq_self]
    · exact List.take_append_drop (last + 1) counts
    · intro run member
      simpa [isCheap] using cheap run member
  · intro few passed inside
    have size := lastUsed.length_upTo
    have within := lastUsed.inside
    refine ⟨fitsWords_sweepAfter (by omega) (by omega), ?_⟩
    have four := total_le (((counts.upTo last).drop passed).take 4)
    have few := List.length_take_le 4 ((counts.upTo last).drop passed)
    omega

/-- Four near counts are levelled, but not the row of five zeros before them. -/
theorem shape_keeps_cheap_rows_of_ten_symbols :
    LastUsed [0, 0, 0, 0, 0, 4, 5, 4, 6, 0] 8 ∧ ∀ offset < 5,
      (shape [0, 0, 0, 0, 0, 4, 5, 4, 6, 0]).counts[0 + offset]? = some 0 := by
  have lastUsed : LastUsed [0, 0, 0, 0, 0, 4, 5, 4, 6, 0] 8 := by
    refine ⟨by decide, fun symbol after => ?_⟩
    rcases Nat.lt_or_eq_of_le after with beyond | rfl
    · exact List.getD_eq_default _ _ beyond
    · rfl
  obtain ⟨_, _, _, _, _, rows⟩ := shape_keeps_cheap_rows [0, 0, 0, 0, 0, 4, 5, 4, 6, 0]
  obtain ⟨_, row, _⟩ := rows 8 lastUsed
  exact ⟨lastUsed, row [] 5 0 [4, 5, 4, 6] rfl (by decide)⟩

end Histogram

end CanonicalHuffman
