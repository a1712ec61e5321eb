import CanonicalHuffman.CodeTable.Build
import Mathlib.Algebra.Ring.Nat
import Mathlib.Data.Nat.Init

/-!
# Shaping keeps used symbols

A sweep reads only counts that it has not levelled yet, and what it writes at a position is either
the count that stood there or the level of a block of given counts around it. The level of a block
with a count that is not zero is not zero, so no used symbol is lost. Shaping can only add used
symbols, and therefore the shaped counts are kept only where the given counts fit as well.
-/

namespace CanonicalHuffman

open Histogram

namespace Histogram

/-- The mean of counts of one word fits a word. -/
theorem roundedMean_lt {sum size : Nat} (filled : 0 < size) (small : sum ≤ size * (2 ^ 32 - 1)) :
    roundedMean sum size < 2 ^ 32 := by
  rw [roundedMean, Nat.div_lt_iff_lt_mul filled, Nat.mul_comm]
  have : size / 2 < size := Nat.div_lt_self filled (by decide)
  omega

/-- The level of a block that is not all zeros is its rounded mean, and at least one. -/
theorem toNat_levelOf {sum size : Nat} (positive : sum ≠ 0) (filled : 0 < size)
    (small : sum ≤ size * (2 ^ 32 - 1)) :
    (levelOf sum size).toNat = max 1 (roundedMean sum size) := by
  have fits := roundedMean_lt filled small
  rw [levelOf, if_neg positive, Nat.toUInt32_eq, UInt32.toNat_ofNat', Nat.mod_eq_of_lt (by omega)]

end Histogram

namespace Sweep

variable {n : Nat} {counts : Vector UInt32 n} {cheap : Vector Bool n} {start stop position : Nat}

/-- The sum of the counts from `start` up to but not including `stop`. -/
def blockSum (counts : Vector UInt32 n) (start stop : Nat) : Nat :=
  (((counts.toList.take stop).drop start).map UInt32.toNat).sum

/-- An empty block has sum zero. -/
@[simp] theorem blockSum_self (counts : Vector UInt32 n) (start : Nat) :
    blockSum counts start start = 0 := by
  rw [blockSum, List.drop_eq_nil_of_le (List.length_take_le ..)]
  rfl

/-- A block grows by the count at its end. -/
theorem blockSum_succ (ordered : start ≤ stop) (inside : stop < n) :
    blockSum counts start (stop + 1) = blockSum counts start stop + counts[stop].toNat := by
  have grown : counts.toList.take (stop + 1) = counts.toList.take stop ++ [counts[stop]] := by
    rw [List.take_succ_eq_append_getElem (by simpa using inside), Vector.getElem_toList]
  rw [blockSum, grown, List.drop_append_of_le_length (by simp; omega)]
  simp [blockSum]

/-- Past the end of the counts a block does not grow. -/
theorem blockSum_of_le (beyond : n ≤ stop) :
    blockSum counts start stop = blockSum counts start n := by
  rw [blockSum, blockSum, List.take_of_length_le (by simpa using beyond),
    List.take_of_length_le (by simp)]

/-- A block is no heavier than its size allows. -/
theorem blockSum_le (ordered : start ≤ stop) (inside : stop ≤ n) :
    blockSum counts start stop ≤ (stop - start) * (2 ^ 32 - 1) := by
  induction stop, ordered using Nat.le_induction with
  | base => simp
  | succ stop ordered ih =>
    have next := counts[stop].toNat_lt
    rw [blockSum_succ ordered inside, Nat.sub_add_comm ordered, Nat.succ_mul]
    have := ih (by omega)
    omega

/-- A block is no lighter than any of its counts. -/
theorem le_blockSum (inside : position < n) (after : start ≤ position) (before : position < stop)
    (bounded : stop ≤ n) : counts[position].toNat ≤ blockSum counts start stop := by
  induction stop, before using Nat.le_induction with
  | base =>
    rw [blockSum_succ after inside]
    omega
  | succ stop before ih =>
    rw [blockSum_succ (by omega) bounded]
    have := ih (by omega)
    omega

/-- What a sweep may leave at a position: the count that stood there, or the level of a block of
given counts that holds the position. -/
inductive Levelled (counts : Vector UInt32 n) (position : Nat) (inside : position < n) :
    UInt32 → Prop where
  /-- The count is kept. -/
  | kept : Levelled counts position inside counts[position]
  /-- The count is replaced by the level of a block. -/
  | level {start stop : Nat} (after : start ≤ position) (before : position < stop)
      (bounded : stop ≤ n) :
      Levelled counts position inside (levelOf (blockSum counts start stop) (stop - start))

/-- A used symbol is not levelled to zero. -/
theorem Levelled.ne_zero {inside : position < n} {value : UInt32}
    (levelled : Levelled counts position inside value) (used : counts[position] ≠ 0) :
    value ≠ 0 := by
  cases levelled with
  | kept => exact used
  | @level start stop after before bounded =>
    have positive : counts[position].toNat ≠ 0 := fun zero => used (UInt32.toNat_inj.mp zero)
    have heavy : counts[position].toNat ≤ blockSum counts start stop :=
      le_blockSum inside after before bounded
    intro zero
    have small : blockSum counts start stop ≤ (stop - start) * (2 ^ 32 - 1) :=
      blockSum_le (by omega) bounded
    have exact := toNat_levelOf (by omega) (by omega) small
    rw [zero, UInt32.toNat_zero] at exact
    omega

/-- What holds of a sweep after the first positions. -/
structure Sound (counts : Vector UInt32 n) (passed : Nat) (sweep : Sweep n) : Prop where
  /-- The present block starts among the positions passed. -/
  start_le : sweep.start ≤ passed
  /-- From the present block on the counts are as given. -/
  ahead : ∀ (position : Nat) (inside : position < n), sweep.start ≤ position →
    sweep.counts[position] = counts[position]
  /-- The sum is that of the present block. -/
  sum_eq : sweep.sum = blockSum counts sweep.start passed
  /-- Every count is as given or levelled. -/
  levelled : ∀ (position : Nat) (inside : position < n),
    Levelled counts position inside sweep.counts[position]

/-- A sweep starts with the counts as given. -/
theorem sound_initial (counts : Vector UInt32 n) : Sound counts 0 (initial counts) where
  start_le := Nat.le_refl 0
  ahead _ _ _ := rfl
  sum_eq := (blockSum_self counts 0).symm
  levelled _ _ := .kept

/-- Closing a block levels it or keeps it. -/
theorem Sound.close {sweep : Sweep n} (sound : Sound counts position sweep)
    (inside : position ≤ n) :
    Sound counts position (sweep.close position) where
  start_le := Nat.le_refl _
  ahead := by
    intro later within (after : position ≤ later)
    have old := sound.ahead later within (Nat.le_trans sound.start_le after)
    simp only [Sweep.close]
    split
    · rw [getElem_fillRange, if_neg (by omega), old]
    · exact old
  sum_eq := (blockSum_self counts position).symm
  levelled := by
    intro other within
    simp only [Sweep.close]
    split
    · rw [getElem_fillRange]
      split
      · next block =>
        rw [sound.sum_eq]
        exact .level block.1 block.2 inside
      · exact sound.levelled other within
    · exact sound.levelled other within

/-- Taking a count into the block adds it to the sum. -/
theorem Sound.extend {sweep : Sweep n} (sound : Sound counts position sweep) :
    Sound counts (position + 1) (sweep.extend position) := by
  have start := sound.start_le
  rw [Sweep.extend]
  split
  · next inside =>
    have next := sound.ahead position inside start
    exact {
      start_le := Nat.le_succ_of_le start
      ahead := sound.ahead
      sum_eq := by
        change sweep.sum + sweep.counts[position].toNat = _
        rw [blockSum_succ start inside, next, sound.sum_eq]
      levelled := sound.levelled }
  · next beyond =>
    exact {
      start_le := Nat.le_succ_of_le start
      ahead := sound.ahead
      sum_eq := by
        rw [sound.sum_eq, blockSum_of_le (by omega), blockSum_of_le (by omega : n ≤ position + 1)]
      levelled := sound.levelled }

/-- One step passes one position. -/
theorem Sound.step {sweep : Sweep n} (sound : Sound counts position sweep) (inside : position ≤ n) :
    Sound counts (position + 1) (sweep.step cheap position) := by
  rw [Sweep.step]
  split
  · exact (sound.close inside).extend
  · exact sound.extend

/-- A sweep stays sound up to one position past the end. -/
theorem sound_after {passed : Nat} (inside : passed ≤ n + 1) :
    Sound counts passed (after cheap counts passed) := by
  induction passed with
  | zero => exact sound_initial counts
  | succ passed ih =>
    rw [after_succ]
    exact (ih (by omega)).step (by omega)

end Sweep

namespace Histogram

/-- Levelling keeps every used symbol. -/
theorem levelled_ne_zero {counts : Histogram} {symbol : Nat} {count : UInt32}
    (found : counts[symbol]? = some count) (used : count ≠ 0) :
    ∃ level, counts.levelled[symbol]? = some level ∧ level ≠ 0 := by
  obtain ⟨inside, rfl⟩ := List.getElem?_eq_some_iff.mp found
  let marks : Vector Bool counts.length := ⟨counts.cheapMarks.toArray, by simp⟩
  let given : Vector UInt32 counts.length := ⟨counts.toArray, rfl⟩
  have sound :
      Sweep.Sound given (counts.length + 1) (Sweep.after marks given (counts.length + 1)) :=
    Sweep.sound_after (Nat.le_refl _)
  have swept := (sound.levelled symbol inside).ne_zero used
  refine ⟨_, ?_, swept⟩
  rw [levelled, Vector.getElem?_toList, Vector.getElem?_eq_getElem inside]

/-- Shaping keeps the number of counts. -/
@[simp] theorem length_shape (counts : Histogram) : counts.shape.counts.length = counts.length := by
  rw [shape]
  split
  · rfl
  · have whole := congrArg List.length counts.trimmed_append_zeros
    simpa using whole.symm

/-- Shaping keeps every used symbol. -/
theorem shape_ne_zero {counts : Histogram} {symbol : Nat} {count : UInt32}
    (found : counts[symbol]? = some count) (used : count ≠ 0) :
    ∃ shaped, counts.shape.counts[symbol]? = some shaped ∧ shaped ≠ 0 := by
  rw [shape]
  split
  · exact ⟨count, found, used⟩
  · rw [counts.trimmed_append_zeros] at found
    by_cases front : symbol < counts.trimmed.length
    · rw [List.getElem?_append_left front] at found
      obtain ⟨level, isLevel, positive⟩ := levelled_ne_zero found used
      refine ⟨level, ?_, positive⟩
      rwa [List.getElem?_append_left (by simpa using front)]
    · rw [List.getElem?_append_right (by omega)] at found
      have zero := List.eq_of_mem_replicate (List.mem_of_getElem? found)
      exact absurd zero used

/-- Keeping every used symbol keeps their number or makes it larger. -/
theorem used_le_used {counts other : Histogram} (size : counts.length = other.length)
    (keeps : ∀ (symbol : Nat) (count : UInt32), counts[symbol]? = some count → count ≠ 0 →
      ∃ kept, other[symbol]? = some kept ∧ kept ≠ 0) : counts.used ≤ other.used := by
  induction counts generalizing other with
  | nil => exact Nat.zero_le _
  | cons count rest ih =>
    cases other with
    | nil => contradiction
    | cons first later =>
      have tail := ih (Nat.succ.inj size) fun symbol => keeps (symbol + 1)
      rw [used_cons, used_cons]
      by_cases zero : count = 0
      · rw [if_pos zero]
        omega
      · obtain ⟨kept, isKept, positive⟩ := keeps 0 count rfl zero
        obtain rfl : first = kept := by simpa using isKept
        rw [if_neg zero, if_neg positive]
        omega

/-- Shaping uses no fewer symbols. -/
theorem used_le_used_shape (counts : Histogram) : counts.used ≤ counts.shape.counts.used :=
  used_le_used (length_shape counts).symm fun _ _ => shape_ne_zero

/-- The shaped counts are kept exactly when they fit the limit. -/
theorem shapedWithin_eq (counts : Histogram) (limit : Nat) : counts.shapedWithin limit =
    if counts.shape.counts.fits limit then counts.shape.counts else counts := by
  rw [shapedWithin]
  split
  · next zeros found =>
    have same : counts.shape.counts = counts := by
      rw [shape] at found ⊢
      split at found
      · next blank => rw [if_pos blank]
      · simp at found
    simp [same]
  · next shaped found => rw [found]

end Histogram

end CanonicalHuffman
