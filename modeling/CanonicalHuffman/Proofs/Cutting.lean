import CanonicalHuffman.Histogram.Blocks
import Mathlib.Algebra.Ring.Nat
import Mathlib.Data.List.GetD

/-!
# The cut into blocks, by positions

The cut of a histogram is made from the left, block by block. Here each block is described by its
place in the histogram alone: where it opens, which counts join it, and which count does not. The
description mentions no other block, so it says that nothing but the given counts decides on a
block.
-/

namespace CanonicalHuffman

namespace Histogram

/-- The sum of a block. -/
def total (block : Histogram) : Nat := (block.map UInt32.toNat).sum

/-- No counts sum up to zero. -/
@[simp] theorem total_nil : total [] = 0 := rfl

/-- A count in front is added to the sum. -/
@[simp] theorem total_cons (count : UInt32) (rest : Histogram) :
    total (count :: rest) = count.toNat + total rest := by simp [total]

/-- The sum of two histograms is the sum of both. -/
@[simp] theorem total_append (front back : Histogram) :
    total (front ++ back) = total front + total back := by simp [total]

/-- The limit of a block that holds `size` counts with the given sum. -/
def limitAt (opening size sum : Nat) : Nat := if size < 4 then opening else roundedMean sum size

section Reach

variable {opening size sum : Nat} {count : UInt32} {cheap : Bool} {rest : List Marked}

/-- With fewer than four counts left a block opens with its first count as the limit. -/
theorem openingLimit_of_lt (few : rest.length < 3) :
    openingLimit ((count, cheap) :: rest) = count.toNat := by
  match rest, few with
  | [], _ => rfl
  | [_], _ => rfl
  | [_, _], _ => rfl

/-- With four counts left and more a block opens with their rounded mean as the limit. -/
theorem openingLimit_of_le {marked : List Marked} (many : 4 ≤ marked.length) :
    openingLimit marked = roundedMean (total ((marked.take 4).map Prod.fst)) 4 := by
  match marked, many with
  | first :: second :: third :: fourth :: rest, _ =>
    simp [openingLimit, Nat.add_assoc]

/-- Only counts that follow can join. -/
theorem reach_le_length : reach opening size sum rest ≤ rest.length := by
  induction rest generalizing size sum with
  | nil => exact Nat.le_refl _
  | cons marked rest ih =>
    rw [reach, ← limitAt]
    split
    · exact Nat.succ_le_succ ih
    · exact Nat.zero_le _

/-- A count that joins lies in no cheap run and is near the limit of the block before it. -/
theorem near_of_lt_reach {offset : Nat} (before : offset < reach opening size sum rest) :
    ∃ count, rest[offset]? = some (count, false) ∧ isNear count (limitAt opening (size + offset)
      (sum + total ((rest.take offset).map Prod.fst))) = true := by
  induction rest generalizing size sum offset with
  | nil => exact absurd before (Nat.not_lt_zero _)
  | cons marked rest ih =>
    obtain ⟨count, cheap⟩ := marked
    rw [reach, ← limitAt] at before
    split at before
    · next joins =>
      rw [Bool.and_eq_true, Bool.not_eq_true'] at joins
      cases offset with
      | zero => exact ⟨count, by rw [joins.1]; rfl, joins.2⟩
      | succ offset =>
        obtain ⟨next, found, near⟩ := ih (Nat.lt_of_succ_lt_succ before)
        refine ⟨next, found, ?_⟩
        rw [Nat.add_assoc, Nat.add_comm 1, Nat.add_assoc] at near
        simpa using near
    · exact absurd before (Nat.not_lt_zero _)

/-- The count behind the ones that join is not near the limit of the block. -/
theorem not_near_reach (next : rest[reach opening size sum rest]? = some (count, false)) :
    isNear count (limitAt opening (size + reach opening size sum rest)
      (sum + total ((rest.take (reach opening size sum rest)).map Prod.fst))) = false := by
  induction rest generalizing size sum with
  | nil => simp at next
  | cons marked rest ih =>
    obtain ⟨first, cheap⟩ := marked
    rw [reach, ← limitAt] at next ⊢
    split at next
    · next joins =>
      rw [if_pos joins]
      have later := ih next
      rw [Nat.add_assoc, Nat.add_comm 1, Nat.add_assoc] at later
      simpa using later
    · next apart =>
      rw [if_neg apart]
      obtain ⟨rfl, rfl⟩ : first = count ∧ cheap = false := by simpa using next
      simpa using apart

end Reach

/-- The limit that a block opens with at a position: its first count at the front of the histogram
and where fewer than four counts are left, and otherwise the rounded mean of its first four. -/
def openingAt (counts : Histogram) (start : Nat) : Nat :=
  if start ≠ 0 ∧ start + 3 < counts.length then
    roundedMean (total ((counts.drop start).take 4)) 4
  else (counts.getD start 0).toNat

/-- The count that follows `size` counts from `start` on joins them in one block: it lies in no
cheap run and is near the limit, which is the opening limit below four counts and their rounded mean
from four counts on. -/
def Joins (counts : Histogram) (start size : Nat) : Prop :=
  ∃ count, counts[start + size]? = some count ∧ counts.cheapMarks[start + size]? = some false ∧
    isNear count
      (limitAt (counts.openingAt start) size (total ((counts.drop start).take size))) = true

/-- A block of a cut, by its place. -/
structure IsBlock (counts : Histogram) (start size : Nat) : Prop where
  /-- No block is empty. -/
  positive : 0 < size
  /-- A count in a cheap run is a block of its own. -/
  alone : counts.cheapMarks[start]? = some true → size = 1
  /-- Every count of the block but the first joins the ones before it. -/
  joins : ∀ offset, 1 ≤ offset → offset < size → counts.Joins start offset
  /-- The count behind the block does not join. -/
  ends : counts.cheapMarks[start]? = some false → ¬ counts.Joins start size

/-- Consecutive blocks that hold the counts from a position to the end. -/
def IsCut (counts : Histogram) : (start : Nat) → List Histogram → Prop
  | start, [] => counts.length ≤ start
  | start, block :: rest => block = (counts.drop start).take block.length ∧
      counts.IsBlock start block.length ∧ IsCut counts (start + block.length) rest

section Cut

variable {counts : Histogram} {start opening : Nat} {count : UInt32} {cheap : Bool}
    {rest : List Marked}

/-- The counts with their marks. -/
def marked (counts : Histogram) : List Marked := counts.zip counts.cheapMarks

/-- Every count is marked. -/
@[simp] theorem length_marked (counts : Histogram) : counts.marked.length = counts.length := by
  simp [marked]

/-- Marking leaves the counts as they are. -/
@[simp] theorem map_fst_marked (counts : Histogram) : counts.marked.map Prod.fst = counts := by
  rw [marked, List.map_fst_zip]
  simp

/-- A marked count is the count at its position with the mark there. -/
theorem getElem?_marked_eq_some {position : Nat} :
    counts.marked[position]? = some (count, cheap) ↔
      counts[position]? = some count ∧ counts.cheapMarks[position]? = some cheap :=
  List.getElem?_zip_eq_some

/-- A cut opens a block behind the first with the limit of its place. -/
theorem openingLimit_drop (behind : start ≠ 0) :
    openingLimit (counts.marked.drop start) = counts.openingAt start := by
  rw [openingAt]
  by_cases many : start + 3 < counts.length
  · rw [if_pos ⟨behind, many⟩, openingLimit_of_le, List.map_take, List.map_drop, map_fst_marked]
    rw [List.length_drop, length_marked]
    omega
  · rw [if_neg (by omega)]
    by_cases inside : start < counts.length
    · have first : start < counts.marked.length := by rwa [length_marked]
      rw [List.drop_eq_getElem_cons first, List.getD_eq_getElem _ _ inside]
      have value : counts.marked[start].1 = counts[start] := by simp [marked]
      rw [← value]
      apply openingLimit_of_lt
      rw [List.length_drop, length_marked]
      omega
    · rw [List.drop_eq_nil_of_le (by rw [length_marked]; omega),
        List.getD_eq_default _ _ (by omega)]
      rfl

/-- A count in a cheap run is a block. -/
theorem isBlock_one (cheap : counts.cheapMarks[start]? = some true) : counts.IsBlock start 1 where
  positive := Nat.one_pos
  alone _ := rfl
  joins _ positive before := absurd (Nat.lt_of_le_of_lt positive before) (Nat.lt_irrefl 1)
  ends ordinary := by
    rw [cheap] at ordinary
    contradiction

/-- The counts that join a first count, as far as the cut takes them, form a block. -/
theorem isBlock_reach (split : counts.marked.drop start = (count, false) :: rest)
    (opens : opening = counts.openingAt start) :
    counts.IsBlock start (reach opening 1 count.toNat rest + 1) ∧
      count :: (rest.take (reach opening 1 count.toNat rest)).map Prod.fst =
        (counts.drop start).take (reach opening 1 count.toNat rest + 1) := by
  have values : counts.drop start = count :: rest.map Prod.fst := by
    rw [← counts.map_fst_marked, ← List.map_drop, split, List.map_cons]
  have found : ∀ offset next cheap, rest[offset]? = some (next, cheap) ↔
      counts[start + (offset + 1)]? = some next ∧
        counts.cheapMarks[start + (offset + 1)]? = some cheap := by
    intro offset next cheap
    rw [← getElem?_marked_eq_some, ← List.getElem?_drop, split, List.getElem?_cons_succ]
  have sum : ∀ offset, total ((counts.drop start).take (offset + 1)) =
      count.toNat + total ((rest.take offset).map Prod.fst) := by
    intro offset
    rw [values, List.take_succ_cons, total_cons, List.map_take]
  have first : counts.cheapMarks[start]? = some false := by
    have head : counts.marked[start]? = some (count, false) := by
      rw [← Nat.add_zero start, ← List.getElem?_drop, split, List.getElem?_cons_zero]
    exact (getElem?_marked_eq_some.mp head).2
  refine ⟨⟨Nat.succ_pos _, fun alone => ?_, fun offset positive before => ?_, fun _ joins => ?_⟩,
    ?_⟩
  · rw [first] at alone
    contradiction
  · obtain ⟨offset, rfl⟩ := Nat.exists_eq_succ_of_ne_zero (Nat.ne_of_gt positive)
    obtain ⟨next, isNext, near⟩ := near_of_lt_reach (Nat.lt_of_succ_lt_succ before)
    obtain ⟨value, mark⟩ := (found offset next false).mp isNext
    refine ⟨next, value, mark, ?_⟩
    rw [Nat.succ_eq_add_one, sum, ← opens, Nat.add_comm offset]
    exact near
  · obtain ⟨next, value, mark, near⟩ := joins
    have apart := not_near_reach ((found _ next false).mpr ⟨value, mark⟩)
    rw [sum, ← opens, Nat.add_comm _ 1] at near
    rw [near] at apart
    contradiction
  · rw [values, List.take_succ_cons, List.map_take]

/-- The blocks of a cut follow each other, and each of them is the block of its place. -/
theorem isCut_cutWith (start opening : Nat)
    (opens : counts.cheapMarks[start]? = some false → opening = counts.openingAt start) :
    counts.IsCut start (cutWith opening (counts.marked.drop start)) := by
  induction left : counts.length - start using Nat.strongRecOn generalizing start opening with
  | ind size ih =>
    by_cases inside : start < counts.length
    · have first : start < counts.marked.length := by rwa [length_marked]
      obtain ⟨⟨count, cheap⟩, isFirst⟩ : ∃ marked, counts.marked[start]? = some marked :=
        ⟨_, List.getElem?_eq_getElem first⟩
      have split : counts.marked.drop start = (count, cheap) :: counts.marked.drop (start + 1) := by
        rw [List.drop_eq_getElem_cons first, (List.getElem?_eq_some_iff.mp isFirst).2]
      obtain ⟨value, mark⟩ := getElem?_marked_eq_some.mp isFirst
      rw [split]
      cases cheap with
      | true =>
        rw [cutWith]
        refine ⟨?_, isBlock_one mark, ?_⟩
        · rw [← counts.map_fst_marked, ← List.map_drop, split]
          rfl
        · exact ih _ (by omega) (start + 1) _ (fun _ => openingLimit_drop (Nat.succ_ne_zero start))
            rfl
      | false =>
        obtain ⟨isBlock, values⟩ := isBlock_reach split (opens mark)
        rw [cutWith]
        have size : (count :: ((counts.marked.drop (start + 1)).take
            (reach opening 1 count.toNat (counts.marked.drop (start + 1)))).map Prod.fst).length =
              reach opening 1 count.toNat (counts.marked.drop (start + 1)) + 1 := by
          rw [List.length_cons, List.length_map, List.length_take, Nat.min_eq_left reach_le_length]
        refine ⟨by rw [size]; exact values, by rw [size]; exact isBlock, ?_⟩
        rw [size, List.drop_drop, Nat.add_right_comm]
        exact ih _ (by omega) _ _ (fun _ => openingLimit_drop (by omega)) rfl
    · rw [List.drop_eq_nil_of_le (by rw [length_marked]; omega), cutWith]
      exact Nat.le_of_not_lt inside

/-- The blocks of a histogram are the cut that starts at its front. -/
theorem isCut_blocks (counts : Histogram) : counts.IsCut 0 counts.blocks := by
  refine counts.isCut_cutWith 0 _ fun _ => ?_
  rw [openingAt, if_neg (by simp)]
  cases counts <;> rfl

/-- A block ends at one place only. -/
theorem IsBlock.unique {size other : Nat} (block : counts.IsBlock start size)
    (same : counts.IsBlock start other) (inside : start < counts.length) : size = other := by
  have mark : start < counts.cheapMarks.length := by rwa [length_cheapMarks]
  have isMark := List.getElem?_eq_getElem mark
  cases cheap : counts.cheapMarks[start] with
  | true =>
    rw [cheap] at isMark
    rw [block.alone isMark, same.alone isMark]
  | false =>
    rw [cheap] at isMark
    rcases Nat.lt_trichotomy size other with shorter | equal | longer
    · exact absurd (same.joins size block.positive shorter) (block.ends isMark)
    · exact equal
    · exact absurd (block.joins other same.positive longer) (same.ends isMark)

/-- There is only one cut from a position to the end. -/
theorem IsCut.unique {cut other : List Histogram} (isCut : counts.IsCut start cut)
    (isOther : counts.IsCut start other) : cut = other := by
  induction cut generalizing start other with
  | nil =>
    cases other with
    | nil => rfl
    | cons block later =>
      have size := congrArg List.length isOther.1
      have positive := isOther.2.1.positive
      have past : counts.length ≤ start := isCut
      rw [List.length_take, List.length_drop] at size
      omega
  | cons block later ih =>
    have size := congrArg List.length isCut.1
    have positive := isCut.2.1.positive
    rw [List.length_take, List.length_drop] at size
    cases other with
    | nil =>
      have past : counts.length ≤ start := isOther
      omega
    | cons first others =>
      have sizes := isCut.2.1.unique isOther.2.1 (by omega)
      have same : block = first := by rw [isCut.1, isOther.1, sizes]
      rw [same, ih isCut.2.2 (by rw [sizes]; exact isOther.2.2)]

end Cut

end Histogram

end CanonicalHuffman
