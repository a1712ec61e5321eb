import CanonicalHuffman.Proofs.Cutting
import CanonicalHuffman.Proofs.Shaping
import CanonicalHuffman.Proofs.Trimming

/-!
# Levelling block by block

The sweep over a histogram writes while it still reads. It nevertheless does what cutting the given
counts into blocks and levelling each block does: the block it is in is the block that the cut
makes, up to the present position, and everything before the block is levelled already.
-/

namespace CanonicalHuffman

open Histogram

namespace Histogram

variable {opening size sum : Nat} {count : UInt32} {cheap : Bool} {rest : List Marked}

/-- The cut of marked counts behind a block that is not closed yet. A block in a cheap run takes no
further count. -/
def cutFrom (opening : Nat) (block : Histogram) (cheap : Bool) (rest : List Marked) :
    List Histogram :=
  let size := if cheap then 0 else reach opening block.length (total block) rest
  (block ++ (rest.take size).map Prod.fst) ::
    cutWith (openingLimit (rest.drop size)) (rest.drop size)

/-- The first count opens a block. -/
theorem cutWith_cons (opening : Nat) (count : UInt32) (cheap : Bool) (rest : List Marked) :
    cutWith opening ((count, cheap) :: rest) = cutFrom opening [count] cheap rest := by
  cases cheap <;> simp [cutWith, cutFrom, total]

/-- A block closes where no count joins it. -/
theorem cutFrom_of_ends {block : Histogram}
    (ends : cheap = true ∨ reach opening block.length (total block) rest = 0) :
    cutFrom opening block cheap rest = block :: cutWith (openingLimit rest) rest := by
  have closed : (if cheap then 0 else reach opening block.length (total block) rest) = 0 := by
    rcases ends with rfl | apart
    · rfl
    · rw [apart, ite_self]
  rw [cutFrom, closed]
  simp

/-- A count that joins a block stands at its end. -/
theorem cutFrom_of_near {block : Histogram}
    (near : isNear count (limitAt opening block.length (total block)) = true) :
    cutFrom opening block false ((count, false) :: rest) =
      cutFrom opening (block ++ [count]) false rest := by
  have joins : reach opening block.length (total block) ((count, false) :: rest) =
      reach opening (block ++ [count]).length (total (block ++ [count])) rest + 1 := by
    rw [reach, ← limitAt, near]
    simp [total]
  simp [cutFrom, joins]

/-- Blocks of fewer than four counts stay, also where zeros are written over three zeros. -/
theorem levelBlock_eq (block : Histogram) : levelBlock block =
    if 4 ≤ block.length ∨ (3 ≤ block.length ∧ total block = 0) then
      List.replicate block.length (levelOf (total block) block.length)
    else block := by
  rw [levelBlock, ← total]
  by_cases short : block.length < 4
  · rw [if_pos short]
    split
    · next zeros =>
      have empty : total block = 0 := by omega
      rw [levelOf, if_pos empty]
      refine List.eq_replicate_iff.mpr ⟨rfl, fun count member => ?_⟩
      exact UInt32.toNat_inj.mp
        (List.sum_eq_zero_iff_forall_eq_nat.mp empty _ (List.mem_map_of_mem member))
    · rfl
  · rw [if_neg short, if_pos (.inl (by omega))]

end Histogram

namespace Sweep

variable {n : Nat} {counts : Vector UInt32 n} {cheap : Vector Bool n}
  {start stop position passed first opening : Nat} {closed : List Histogram} {mark : Bool}

/-- The counts with their marks. -/
def marked (counts : Vector UInt32 n) (cheap : Vector Bool n) : List Marked :=
  counts.toList.zip cheap.toList

/-- Every count of a sweep is marked. -/
@[simp] theorem length_marked : (marked counts cheap).length = n := by simp [marked]

/-- The marked counts from a position on begin with the one there. -/
theorem drop_marked (inside : position < n) : (marked counts cheap).drop position =
    (counts[position], cheap[position]) :: (marked counts cheap).drop (position + 1) := by
  rw [List.drop_eq_getElem_cons (by simpa)]
  simp [marked]

/-- No marked count lies behind the last one. -/
theorem drop_marked_of_le (beyond : n ≤ position) : (marked counts cheap).drop position = [] :=
  List.drop_eq_nil_of_le (by simpa)

/-- A sweep and a cut open a block with the same limit. -/
theorem startLimit_eq : startLimit counts position =
    openingLimit ((marked counts cheap).drop position) := by
  unfold startLimit
  split
  · next ahead =>
    rw [drop_marked (by omega), drop_marked (by omega), drop_marked (by omega),
      drop_marked (by omega)]
    rfl
  · split
    · next few inside =>
      rw [drop_marked inside, openingLimit_of_lt]
      rw [List.length_drop, length_marked]
      omega
    · rw [drop_marked_of_le (by omega)]
      rfl

/-- The counts from `start` up to but not including `stop`. -/
def block (counts : Vector UInt32 n) (start stop : Nat) : Histogram :=
  (counts.toList.take stop).drop start

/-- A block is as long as the positions it covers. -/
theorem length_block (inside : stop ≤ n) : (block counts start stop).length = stop - start := by
  rw [block, List.length_drop, List.length_take, Vector.length_toList, Nat.min_eq_left inside]

/-- A block grows by the count at its end. -/
theorem block_succ (ordered : start ≤ stop) (inside : stop < n) :
    block counts start (stop + 1) = block counts start stop ++ [counts[stop]] := by
  rw [block, List.take_succ_eq_append_getElem (by simpa using inside), Vector.getElem_toList,
    List.drop_append_of_le_length (by simp; omega)]
  rfl

/-- A block and the counts behind it. -/
theorem block_append_drop (ordered : start ≤ stop) :
    block counts start stop ++ counts.toList.drop stop = counts.toList.drop start := by
  obtain ⟨size, rfl⟩ := Nat.exists_eq_add_of_le ordered
  rw [block, List.drop_take, Nat.add_sub_cancel_left, ← List.drop_drop, List.take_append_drop]

/-- Filling a range replaces the values in it. -/
theorem toList_fillRange {value : UInt32} (ordered : start ≤ stop) (inside : stop ≤ n) :
    (fillRange counts start stop value).toList = counts.toList.take start ++
      List.replicate (stop - start) value ++ counts.toList.drop stop := by
  apply List.ext_getElem
  · simp
    omega
  · intro position _ _
    rw [Vector.getElem_toList, getElem_fillRange]
    simp only [List.append_assoc, List.getElem_append, List.length_take, Vector.length_toList,
      List.length_replicate, List.getElem_take, Vector.getElem_toList, List.getElem_replicate,
      List.getElem_drop]
    split
    · next within => rw [dif_neg (by omega), dif_pos (by omega)]
    · next outside =>
      by_cases before : position < start
      · rw [dif_pos (by omega)]
      · rw [dif_neg (by omega), dif_neg (by omega)]
        congr 1
        omega

/-- What holds of a sweep within a cut: `closed` are the blocks before the present one, and
`opening` and `mark` are the limit that the present one opened with and its mark. -/
structure Tracks (counts : Vector UInt32 n) (cheap : Vector Bool n) (first passed : Nat)
    (sweep : Sweep n) (closed : List Histogram) (opening : Nat) (mark : Bool) : Prop where
  /-- The sum is that of the present block, which is as given. -/
  sound : Sound counts passed sweep
  /-- The present block holds the position passed last. -/
  start_lt : sweep.start < passed
  /-- Blocks before the present one are levelled. -/
  written : sweep.counts.toList = closed.flatMap levelBlock ++ counts.toList.drop sweep.start
  /-- The cut makes the same blocks, of which the present one is not closed yet. -/
  cut : cutWith first (marked counts cheap) =
    closed ++ cutFrom opening (block counts sweep.start passed) mark
      ((marked counts cheap).drop passed)
  /-- The mark is that of the position passed last. -/
  last : ∀ inside : passed - 1 < n, cheap[passed - 1] = mark
  /-- The limit is that of the present block. -/
  limit_eq : mark = false → sweep.limit = limitAt opening (passed - sweep.start) sweep.sum

variable {sweep : Sweep n}

/-- The sum of a sweep is that of its present block. -/
theorem Tracks.sum_eq (tracks : Tracks counts cheap first passed sweep closed opening mark) :
    sweep.sum = total (block counts sweep.start passed) := tracks.sound.sum_eq

/-- A closed block is levelled. -/
theorem Tracks.written_close (tracks : Tracks counts cheap first passed sweep closed opening mark)
    (inside : passed ≤ n) : (sweep.close passed).counts.toList =
      (closed ++ [block counts sweep.start passed]).flatMap levelBlock ++
        counts.toList.drop passed := by
  have start := tracks.start_lt
  have size : (block counts sweep.start passed).length = passed - sweep.start := length_block inside
  have front : (closed.flatMap levelBlock).length = sweep.start := by
    have whole := congrArg List.length tracks.written
    rw [List.length_append, List.length_drop, Vector.length_toList, Vector.length_toList] at whole
    omega
  have behind : sweep.counts.toList.drop passed = counts.toList.drop passed := by
    rw [tracks.written, List.drop_append, front, List.drop_drop, List.drop_eq_nil_of_le (by omega),
      List.nil_append]
    congr 1
    omega
  rw [List.flatMap_append, List.flatMap_singleton, levelBlock_eq, size, ← tracks.sum_eq]
  simp only [Sweep.close]
  split
  · rw [toList_fillRange (by omega) inside, behind]
    congr 2
    rw [tracks.written, List.take_append_of_le_length (by omega), List.take_of_length_le (by omega)]
  · rw [List.append_assoc, block_append_drop (by omega), tracks.written]

/-- A block that the sweep ends is closed in the cut as well. -/
theorem Tracks.cut_of_ends (tracks : Tracks counts cheap first passed sweep closed opening mark)
    (inside : passed ≤ n) (ends : sweep.endsAt cheap passed = true) :
    cutWith first (marked counts cheap) = closed ++ [block counts sweep.start passed] ++
      cutWith (openingLimit ((marked counts cheap).drop passed))
        ((marked counts cheap).drop passed) := by
  have start := tracks.start_lt
  rw [tracks.cut, List.append_assoc, List.singleton_append, cutFrom_of_ends]
  by_cases alone : mark = true
  · exact .inl alone
  · right
    rw [Bool.not_eq_true] at alone
    have limit := tracks.limit_eq alone
    have last := tracks.last (by omega)
    rw [alone] at last
    rcases Nat.lt_or_eq_of_le inside with more | done
    · have next := tracks.sound.ahead passed more (by omega)
      rw [drop_marked more, reach, ← limitAt, ← tracks.sum_eq, length_block inside, ← limit, ← next]
      simp only [endsAt, more, last, ↓reduceDIte] at ends
      grind
    · rw [drop_marked_of_le (by omega), reach]

/-- A sweep that does not end its block takes the next count into it, and so does the cut. -/
theorem Tracks.cut_of_near (tracks : Tracks counts cheap first passed sweep closed opening mark)
    (inside : passed < n) (near : sweep.endsAt cheap passed = false) :
    mark = false ∧ cheap[passed] = false ∧
      cutWith first (marked counts cheap) = closed ++ cutFrom opening
        (block counts sweep.start (passed + 1)) false
          ((marked counts cheap).drop (passed + 1)) := by
  have start := tracks.start_lt
  have last := tracks.last (by omega)
  have next := tracks.sound.ahead passed inside (by omega)
  simp only [endsAt, inside, ↓reduceDIte, last, Bool.or_eq_false_iff, Bool.not_eq_false',
    next] at near
  obtain ⟨⟨ordinary, before⟩, close⟩ := near
  have open_ : mark = false := by
    have positive : decide (passed ≠ 0) = true := by simp; omega
    rwa [positive, Bool.true_and] at before
  refine ⟨open_, ordinary, ?_⟩
  rw [tracks.cut, open_, drop_marked inside, ordinary, block_succ (by omega) inside,
    cutFrom_of_near]
  rwa [length_block (by omega), ← tracks.sum_eq, ← tracks.limit_eq open_]

/-- The limit that a block opens with depends only on the counts from its start on. -/
theorem startLimit_congr {other : Vector UInt32 n}
    (same : ∀ (later : Nat) (inside : later < n), position ≤ later → counts[later] = other[later]) :
    startLimit counts position = startLimit other position := by
  unfold startLimit
  split
  · rw [same _ _ (by omega), same _ _ (by omega), same _ _ (by omega), same _ _ (by omega)]
  · split
    · rw [same _ _ (by omega)]
    · rfl

/-- One step keeps the sweep within the cut. -/
theorem Tracks.step (tracks : Tracks counts cheap first passed sweep closed opening mark)
    (inside : passed < n) : ∃ closed opening mark,
      Tracks counts cheap first (passed + 1) (sweep.step cheap passed) closed opening mark := by
  have sound : Sound counts (passed + 1) (sweep.step cheap passed) :=
    tracks.sound.step (Nat.le_of_lt inside)
  cases ends : sweep.endsAt cheap passed with
  | false =>
    obtain ⟨ordinary, mark_eq, cut⟩ := tracks.cut_of_near inside ends
    have extended : sweep.step cheap passed = sweep.extend passed := by rw [Sweep.step, ends]; rfl
    rw [extended, extend, dif_pos inside] at sound ⊢
    exact ⟨closed, opening, false, {
      sound
      start_lt := Nat.lt_succ_of_lt tracks.start_lt
      written := tracks.written
      cut
      last := fun _ => mark_eq
      limit_eq := by
        intro _
        have before := tracks.limit_eq ordinary
        have start := tracks.start_lt
        simp only [limitAt] at before ⊢
        grind }⟩
  | true =>
    have cut := tracks.cut_of_ends (Nat.le_of_lt inside) ends
    have ahead := (tracks.sound.close (Nat.le_of_lt inside)).ahead
    have limit : startLimit (sweep.close passed).counts passed = startLimit counts passed :=
      startLimit_congr fun later within after => ahead later within after
    have closing : sweep.step cheap passed = (sweep.close passed).extend passed := by
      rw [Sweep.step, if_pos ends]
    rw [closing, extend, dif_pos inside] at sound ⊢
    exact ⟨closed ++ [block counts sweep.start passed], startLimit counts passed, cheap[passed], {
      sound
      start_lt := Nat.lt_succ_self passed
      written := tracks.written_close (Nat.le_of_lt inside)
      cut := by
        rw [cut, drop_marked inside, cutWith_cons, ← drop_marked inside, ← startLimit_eq]
        have single : block counts passed (passed + 1) = [counts[passed]] := by
          rw [block_succ (Nat.le_refl _) inside, block, List.drop_take_self, List.nil_append]
        rw [← single]
        rfl
      last := fun _ => rfl
      limit_eq := by
        intro _
        have one : passed + 1 - passed = 1 := Nat.add_sub_cancel_left ..
        simp only [Sweep.close, limitAt, one]
        exact limit }⟩

/-- The first position opens the first block. -/
theorem exists_tracks_one (inside : 0 < n) : ∃ closed opening mark,
    Tracks counts cheap (counts[0].toNat) 1 (after cheap counts 1) closed opening mark := by
  have sound : Sound counts 1 (after cheap counts 1) := sound_after (by omega)
  have own : isNear counts[0] counts[0].toNat = true := by simp [isNear]
  have ends : (initial counts).endsAt cheap 0 = cheap[0] := by
    simp [endsAt, initial, inside, own]
  have extended : (after cheap counts 1).start = 0 ∧ (after cheap counts 1).counts = counts ∧
      (cheap[0] = false → (after cheap counts 1).limit = counts[0].toNat) := by
    rw [after_succ, after_zero, Sweep.step, ends]
    cases cheap[0] <;> simp [extend, initial, Sweep.close, inside]
  obtain ⟨start, same, limit⟩ := extended
  refine ⟨[], counts[0].toNat, cheap[0], sound, by omega, by rw [start, same]; rfl, ?_,
    fun _ => rfl, ?_⟩
  · have single : block counts 0 1 = [counts[0]] := by
      rw [block_succ (Nat.le_refl _) inside]
      simp [block]
    rw [start, single, List.nil_append, ← cutWith_cons, ← drop_marked inside, List.drop_zero]
  · intro ordinary
    rw [limit ordinary, start]
    rfl

/-- A sweep leaves the blocks of the cut, each of them levelled. -/
theorem toList_after (inside : 0 < n) : (after cheap counts (n + 1)).counts.toList =
    (cutWith (counts[0].toNat) (marked counts cheap)).flatMap levelBlock := by
  have tracked : ∀ passed, 1 ≤ passed → passed ≤ n → ∃ closed opening mark,
      Tracks counts cheap (counts[0].toNat) passed
        (after cheap counts passed) closed opening mark := by
    intro passed positive
    induction passed, positive using Nat.le_induction with
    | base => exact fun _ => exists_tracks_one inside
    | succ passed _ ih =>
      intro within
      obtain ⟨closed, opening, mark, tracks⟩ := ih (by omega)
      rw [after_succ]
      exact tracks.step within
  obtain ⟨closed, opening, mark, tracks⟩ := tracked n inside (Nat.le_refl n)
  have ends : (after cheap counts n).endsAt cheap n = true := by simp [endsAt]
  have closing : (after cheap counts n).step cheap n = ((after cheap counts n).close n) := by
    rw [Sweep.step, if_pos ends, extend, dif_neg (Nat.lt_irrefl n)]
  rw [after_succ, closing, tracks.written_close (Nat.le_refl n),
    tracks.cut_of_ends (Nat.le_refl n) ends,
    drop_marked_of_le (Nat.le_refl n), cutWith, List.append_nil, List.drop_eq_nil_of_le (by simp),
    List.append_nil]

end Sweep

namespace Histogram

variable {counts : Histogram}

/-- Levelling a histogram levels the blocks of its cut. -/
theorem levelled_eq_flatMap (filled : counts ≠ []) :
    counts.levelled = counts.blocks.flatMap levelBlock := by
  have inside : 0 < counts.length := List.length_pos_iff.mpr filled
  rw [levelled, Sweep.toList_after inside]
  cases counts with
  | nil => contradiction
  | cons first rest => rfl

/-- A block is no heavier than its size times a bound of its counts. -/
theorem total_le_mul {block : Histogram} {bound : Nat}
    (small : ∀ count ∈ block, count.toNat ≤ bound) :
    total block ≤ block.length * bound := by
  induction block with
  | nil => exact Nat.zero_le _
  | cons count rest ih =>
    rw [List.forall_mem_cons] at small
    have rest_le := ih small.2
    rw [total_cons, List.length_cons, Nat.succ_mul]
    omega

/-- A block has room for the largest count in each place. -/
theorem total_le (block : Histogram) : total block ≤ block.length * (2 ^ 32 - 1) :=
  total_le_mul fun count _ => Nat.le_of_lt_succ count.toNat_lt

/-- The level of a block as a number. -/
theorem toNat_levelOf_total {block : Histogram} (filled : block ≠ []) :
    (levelOf (total block) block.length).toNat =
      if total block = 0 then 0 else max 1 ((total block + block.length / 2) / block.length) := by
  split
  · next zero => rw [levelOf, if_pos zero, UInt32.toNat_zero]
  · next positive =>
    rw [toNat_levelOf positive (List.length_pos_iff.mpr filled) (total_le block), roundedMean]

/-- Shaping cuts the counts as given, up to the last used symbol, into blocks and levels each of
them; the cut is the only one into blocks by place. Four counts and more are all replaced by the
rounded mean of their block, at least one, or by zero where the block holds only zeros, and fewer
counts stay. -/
theorem shape_levels_blocks (counts : Histogram) (used : ∃ count ∈ counts, count ≠ 0) :
    ∃ last, counts.LastUsed last ∧ (counts.upTo last).IsCut 0 (counts.upTo last).blocks ∧
      (∀ cut, (counts.upTo last).IsCut 0 cut → cut = (counts.upTo last).blocks) ∧
      counts.shape.counts =
        (counts.upTo last).blocks.flatMap levelBlock ++ counts.drop (last + 1) ∧
      (∀ block, block.length < 4 → levelBlock block = block) ∧
      ∀ block, 4 ≤ block.length → ∃ level, levelBlock block = List.replicate block.length level ∧
        level.toNat = if total block = 0 then 0
          else max 1 ((total block + block.length / 2) / block.length) := by
  obtain ⟨last, lastUsed⟩ := exists_lastUsed used
  refine ⟨last, lastUsed, isCut_blocks _, fun cut isCut => isCut.unique (isCut_blocks _), ?_, ?_,
    ?_⟩
  · rw [lastUsed.shape_eq, levelled_eq_flatMap lastUsed.upTo_ne_nil]
  · intro block short
    rw [levelBlock, if_pos short]
  · intro block long
    refine ⟨_, by rw [levelBlock, if_neg (Nat.not_lt.mpr long), ← total], toNat_levelOf_total ?_⟩
    exact List.length_pos_iff.mp (by omega)

/-- A block of four near counts, one count that is not near, and a used symbol behind a zero. -/
theorem shape_levels_blocks_of_eight_symbols :
    (∃ count ∈ ([10, 11, 9, 11, 50, 0, 3, 0] : Histogram), count ≠ 0) ∧
      ∃ last, LastUsed [10, 11, 9, 11, 50, 0, 3, 0] last ∧
        IsCut (upTo [10, 11, 9, 11, 50, 0, 3, 0] last) 0
          (upTo [10, 11, 9, 11, 50, 0, 3, 0] last).blocks ∧
        (shape [10, 11, 9, 11, 50, 0, 3, 0]).counts =
          (upTo [10, 11, 9, 11, 50, 0, 3, 0] last).blocks.flatMap levelBlock ++
            List.drop (last + 1) [10, 11, 9, 11, 50, 0, 3, 0] := by
  have used : ∃ count ∈ ([10, 11, 9, 11, 50, 0, 3, 0] : Histogram), count ≠ 0 := ⟨10, by simp⟩
  obtain ⟨last, lastUsed, isCut, _, levelled, _⟩ :=
    shape_levels_blocks [10, 11, 9, 11, 50, 0, 3, 0] used
  exact ⟨used, last, lastUsed, isCut, levelled⟩

/-- A block of four near counts is levelled, and so is nothing else. -/
example : shape [10, 11, 9, 11, 50, 0, 3, 0] = ⟨.shaped, [10, 10, 10, 10, 50, 0, 3, 0]⟩ := by decide

end Histogram

end CanonicalHuffman
