import CanonicalHuffman.Proofs.CheapRows

/-!
# Shaping removes borders

A border is a pair of neighbours with different counts. A block that is levelled loses all borders
inside it, and it has one unless its counts are equal already. It can gain a border at its left end,
where the count before it used to be the same. It gains none at its right end, unless it is the
first block: the count behind a block is not near its limit, and a count that was near the limit
stays near when it is taken into the mean. So every border gained is paid for by one lost inside the
same block.
-/

namespace CanonicalHuffman

namespace Run

variable {α : Type} [DecidableEq α]

/-- The number of neighbours that differ. -/
def borders : List α → Nat
  | [] => 0
  | [_] => 0
  | value :: next :: rest => (if next = value then 0 else 1) + borders (next :: rest)

/-- Whether there is a border between the end of a list and the front of the next. -/
def seam : Option α → Option α → Nat
  | some last, some next => if next = last then 0 else 1
  | _, _ => 0

/-- A value in front adds a border when the next one is different. -/
theorem borders_cons (value : α) (rest : List α) :
    borders (value :: rest) = seam (some value) rest.head? + borders rest := by
  cases rest <;> rfl

/-- The borders of two lists side by side. -/
theorem borders_append (front back : List α) :
    borders (front ++ back) = borders front + seam front.getLast? back.head? + borders back := by
  induction front with
  | nil => simp [borders, seam]
  | cons value rest ih =>
    cases rest with
    | nil => simp [borders_cons, borders, seam]
    | cons next rest =>
      rw [List.cons_append, List.cons_append, borders, borders, List.getLast?_cons_cons,
        ← List.cons_append, ih]
      omega

/-- A list has one run more than it has borders. -/
theorem length_runs_cons (value : α) (rest : List α) :
    (runs (value :: rest)).length = borders (value :: rest) + 1 := by
  induction rest generalizing value with
  | nil => rfl
  | cons next rest ih =>
    rw [length_runs_cons_cons, ih, borders]
    omega

/-- Of two lists of one length the one with no more borders has no more runs. -/
theorem length_runs_le_of_borders {values others : List α} (sizes : values.length = others.length)
    (fewer : borders values ≤ borders others) : (runs values).length ≤ (runs others).length := by
  cases values with
  | nil => exact Nat.zero_le _
  | cons value rest =>
    cases others with
    | nil => contradiction
    | cons other later =>
      rw [length_runs_cons, length_runs_cons]
      exact Nat.succ_le_succ fewer

/-- Equal values have no borders. -/
theorem borders_replicate (size : Nat) (value : α) : borders (List.replicate size value) = 0 := by
  cases size with
  | zero => rfl
  | succ size =>
    have few := length_runs_replicate_le (size + 1) value
    rw [List.replicate_succ, length_runs_cons] at few
    rw [List.replicate_succ]
    omega

/-- Values without borders are equal. -/
theorem eq_replicate_of_borders {value : α} {rest : List α} (level : borders (value :: rest) = 0) :
    value :: rest = List.replicate (rest.length + 1) value := by
  induction rest generalizing value with
  | nil => rfl
  | cons next rest ih =>
    rw [borders] at level
    by_cases same : next = value
    · subst same
      rw [if_pos rfl, Nat.zero_add] at level
      rw [List.length_cons, List.replicate_succ, ← ih level]
    · rw [if_neg same] at level
      omega

/-- There is at most one border between two values. -/
theorem seam_le_one (last next : Option α) : seam last next ≤ 1 := by
  unfold seam
  split
  · split <;> omega
  · exact Nat.zero_le _

/-- There is a border between two different values. -/
theorem seam_of_ne {last next : α} (differ : next ≠ last) : seam (some last) (some next) = 1 :=
  if_neg differ

/-- There is no border behind the last value. -/
theorem seam_none (last : Option α) : seam last none = 0 := by
  cases last <;> rfl

/-- Another front of the next list makes at most one border more. -/
theorem seam_le_add (last next other : Option α) :
    seam last next ≤ seam last other + if next = other then 0 else 1 := by
  by_cases same : next = other
  · rw [same, if_pos rfl]
    exact Nat.le_refl _
  · rw [if_neg same]
    exact Nat.le_trans (seam_le_one last next) (Nat.le_add_left 1 _)

end Run

namespace Histogram

open Run

variable {opening size sum : Nat} {count : UInt32} {rest : List Marked}
    {counts levels values : Histogram}
  {last : Nat}

/-- The rounded mean moves towards a count that is taken into it. -/
theorem roundedMean_succ_between (filled : 0 < size) (sum value : Nat) :
    min value (roundedMean sum size) ≤ roundedMean (sum + value) (size + 1) ∧
      roundedMean (sum + value) (size + 1) ≤ max value (roundedMean sum size) := by
  have low : roundedMean sum size * size ≤ sum + size / 2 := Nat.div_mul_le_self ..
  have high : sum + size / 2 < (roundedMean sum size + 1) * size :=
    (Nat.div_lt_iff_lt_mul filled).mp (Nat.lt_succ_self _)
  have half : size / 2 ≤ (size + 1) / 2 ∧ (size + 1) / 2 ≤ size / 2 + 1 := by omega
  generalize roundedMean sum size = mean at low high ⊢
  constructor
  · rw [roundedMean, Nat.le_div_iff_mul_le (Nat.succ_pos size)]
    rcases Nat.le_total value mean with below | above
    · have scaled : value * size ≤ mean * size := Nat.mul_le_mul_right size below
      rw [Nat.min_eq_left below, Nat.mul_succ]
      omega
    · rw [Nat.min_eq_right above, Nat.mul_succ]
      omega
  · rw [← Nat.lt_succ_iff, Nat.succ_eq_add_one, roundedMean,
      Nat.div_lt_iff_lt_mul (Nat.succ_pos size)]
    rcases Nat.le_total value mean with below | above
    · rw [Nat.max_eq_right below, Nat.mul_succ]
      omega
    · have scaled : (mean + 1) * size ≤ (value + 1) * size :=
        Nat.mul_le_mul_right size (Nat.succ_le_succ above)
      rw [Nat.max_eq_left above, Nat.mul_succ]
      omega

/-- A count that is near the limit of a block is near the limit of the block that holds it as well:
the mean of the block moves towards the count. -/
theorem isNear_limitAt_succ (near : isNear count (limitAt opening size sum) = true)
    (many : 3 ≤ size)
    (opens : size = 3 → opening = roundedMean (sum + count.toNat) 4) :
    isNear count (limitAt opening (size + 1) (sum + count.toNat)) = true := by
  have later : ¬ size + 1 < 4 := by omega
  rw [limitAt, if_neg later]
  rcases Nat.lt_or_eq_of_le many with more | three
  · rw [limitAt, if_neg (Nat.not_lt.mpr more)] at near
    obtain ⟨low, high⟩ := roundedMean_succ_between (Nat.zero_lt_of_lt more) sum count.toNat
    simp only [isNear, decide_eq_true_eq] at near ⊢
    omega
  · subst three
    rwa [limitAt, if_pos (by decide), opens rfl] at near

/-- Neighbours with equal counts have the same mark. -/
def MarksAgree (marked : List Marked) : Prop :=
  ∀ (position : Nat) (first second : Marked), marked[position]? = some first →
    marked[position + 1]? = some second → first.1 = second.1 → first.2 = second.2

/-- Marks agree behind any place where they agree from the front. -/
theorem MarksAgree.drop {marked : List Marked} (agree : MarksAgree marked) (start : Nat) :
    MarksAgree (marked.drop start) := by
  intro position first second isFirst isSecond same
  rw [List.getElem?_drop] at isFirst isSecond
  exact agree (start + position) first second isFirst (by rwa [Nat.add_assoc]) same

/-- The marks of a histogram agree. -/
theorem marksAgree_marked (counts : Histogram) : MarksAgree counts.marked := by
  intro position ⟨first, mark⟩ ⟨second, other⟩ isFirst isSecond same
  obtain rfl : first = second := same
  obtain ⟨value, isMark⟩ := getElem?_marked_eq_some.mp isFirst
  obtain ⟨next, isOther⟩ := getElem?_marked_eq_some.mp isSecond
  obtain ⟨inside, found⟩ := List.getElem?_eq_some_iff.mp value
  obtain ⟨within, followed⟩ := List.getElem?_eq_some_iff.mp next
  have split : counts = counts.take position ++ List.replicate (1 + 1) first ++
      counts.drop (position + 2) := by
    have pair : counts.drop position = first :: first :: counts.drop (position + 2) := by
      rw [List.drop_eq_getElem_cons inside, List.drop_eq_getElem_cons within, found, followed]
    rw [List.append_assoc]
    exact ((List.take_append_drop position counts).symm.trans (congrArg _ pair))
  obtain ⟨shared, marks, _⟩ := exists_mark_of_row split
  have front : (counts.take position).length = position := by
    rw [List.length_take, Nat.min_eq_left (Nat.le_of_lt inside)]
  rw [front] at marks
  have here := (marks 0 (Nat.zero_le 1)).symm.trans isMark
  have there := (marks 1 (Nat.le_refl 1)).symm.trans isOther
  exact (Option.some.inj here).symm.trans (Option.some.inj there)

/-- The count behind a long block that opened with the mean of its first counts differs from the
last count of the block. -/
theorem ne_of_reach (agree : MarksAgree ((count, false) :: rest))
    (opens : opening = openingLimit ((count, false) :: rest))
    (long : 3 ≤ reach opening 1 count.toNat rest) {last next : Marked}
    (isLast : rest[reach opening 1 count.toNat rest - 1]? = some last)
    (isNext : rest[reach opening 1 count.toNat rest]? = some next) : last.1 ≠ next.1 := by
  intro same
  obtain ⟨before, reached⟩ := Nat.exists_eq_succ_of_ne_zero (Nat.ne_of_gt (Nat.zero_lt_of_lt long))
  obtain ⟨value, found, near⟩ :=
    near_of_lt_reach (show before < reach opening 1 count.toNat rest by omega)
  have stop := @not_near_reach opening 1 count.toNat value rest
  rw [reached] at long isLast isNext stop
  rw [Nat.succ_sub_one, found] at isLast
  obtain rfl := Option.some.inj isLast
  have mark : next.2 = false := (agree (before + 1) _ _ found isNext same).symm
  have isValue : next = (value, false) := Prod.ext same.symm mark
  have grown : total ((rest.take (before + 1)).map Prod.fst) =
      total ((rest.take before).map Prod.fst) + value.toNat := by
    rw [List.take_add_one, found]
    simp
  have stays : isNear value (limitAt opening (1 + before + 1)
      (count.toNat + total ((rest.take before).map Prod.fst) + value.toNat)) = true := by
    refine isNear_limitAt_succ near (by omega) fun three => ?_
    obtain rfl : before = 2 := by omega
    have many : 4 ≤ ((count, false) :: rest).length := by
      have inside := (List.getElem?_eq_some_iff.mp isNext).1
      rw [List.length_cons]
      omega
    rw [opens, openingLimit_of_le many, List.take_succ_cons, List.map_cons, total_cons, grown,
      Nat.add_assoc]
  rw [Nat.add_assoc, Nat.add_assoc, ← grown, stop (by rw [isNext, isValue])] at stays
  contradiction

/-- Levelling keeps equal counts. -/
theorem levelBlock_replicate (size : Nat) (count : UInt32) :
    levelBlock (List.replicate size count) = List.replicate size count := by
  have sum : total (List.replicate size count) = size * count.toNat := by simp [total]
  rw [levelBlock, ← total, List.length_replicate]
  split
  · rfl
  · next long =>
    have filled : List.replicate size count ≠ [] := by
      rw [← List.length_pos_iff, List.length_replicate]
      omega
    have level := toNat_levelOf_total filled
    rw [List.length_replicate, sum, Nat.mul_add_div (by omega),
      Nat.div_eq_of_lt (Nat.div_lt_self (by omega) (by decide))] at level
    congr 1
    apply UInt32.toNat_inj.mp
    rw [sum, level]
    split
    · next zero =>
      rcases Nat.mul_eq_zero.mp zero with empty | unused
      · omega
      · exact unused.symm
    · next positive =>
      have used : count.toNat ≠ 0 := fun unused => positive (by rw [unused, Nat.mul_zero])
      omega

/-- A block stays, or it is long, has a border and loses all of them. -/
theorem levelBlock_eq_self_or (block : Histogram) : levelBlock block = block ∨
    (4 ≤ block.length ∧ 1 ≤ borders block ∧ borders (levelBlock block) = 0) := by
  by_cases short : block.length < 4
  · exact .inl (by rw [levelBlock, if_pos short])
  · have level :
        levelBlock block = List.replicate block.length (levelOf (total block) block.length) := by
      rw [levelBlock, if_neg short, total]
    by_cases even : borders block = 0
    · left
      cases block with
      | nil => rfl
      | cons count rest =>
        have equal := eq_replicate_of_borders even
        rw [equal]
        exact levelBlock_replicate (rest.length + 1) count
    · exact .inr ⟨by omega, by omega, by rw [level, borders_replicate]⟩

/-- Levelling a block makes no border more when it makes none behind the block that the front of the
other blocks is not charged with. -/
theorem borders_levelBlock_append_le (block : Histogram)
    (later : borders levels + (if levels.head? = values.head? then 0 else 1) ≤ borders values) :
    borders (levelBlock block ++ levels) ≤ borders (block ++ values) := by
  rw [borders_append, borders_append]
  rcases levelBlock_eq_self_or block with same | ⟨_, uneven, levelled⟩
  · have moved := seam_le_add block.getLast? levels.head? values.head?
    rw [same]
    omega
  · have one := seam_le_one (levelBlock block).getLast? levels.head?
    omega

/-- Levelling a block with another count behind it than at its end makes one border less when it
changes the front of the block. -/
theorem borders_levelBlock_append_add_le (block : Histogram) (sizes : levels.length = values.length)
    (later : borders levels + (if levels.head? = values.head? then 0 else 1) ≤ borders values)
    (apart : 4 ≤ block.length → ∀ last next, block.getLast? = some last →
      values.head? = some next → last ≠ next) :
    borders (levelBlock block ++ levels) +
      (if (levelBlock block ++ levels).head? = (block ++ values).head? then 0 else 1) ≤
        borders (block ++ values) := by
  rcases levelBlock_eq_self_or block with same | ⟨long, uneven, levelled⟩
  · have step := borders_levelBlock_append_le block later
    rw [same] at step ⊢
    cases block with
    | nil => simpa using later
    | cons count rest => simpa using step
  · rw [borders_append, borders_append]
    have charged :
        (if (levelBlock block ++ levels).head? = (block ++ values).head? then 0 else 1) ≤ 1 := by
      split <;> omega
    have behind : seam (levelBlock block).getLast? levels.head? ≤
        seam block.getLast? values.head? := by
      cases front : values.head? with
      | none =>
        obtain rfl := List.head?_eq_none_iff.mp front
        obtain rfl := List.length_eq_zero_iff.mp sizes
        rw [List.head?_nil, seam_none]
        exact Nat.zero_le _
      | some next =>
        have filled : block ≠ [] := List.length_pos_iff.mp (by omega)
        have isLast := List.getLast?_eq_some_getLast filled
        have differ := apart long _ next isLast front
        rw [isLast, seam_of_ne (Ne.symm differ)]
        exact seam_le_one _ _
    omega

/-- Levelling the blocks of a cut keeps the number of counts. -/
theorem length_flatMap_cutWith (opening : Nat) (marked : List Marked) :
    ((cutWith opening marked).flatMap levelBlock).length = (marked.map Prod.fst).length := by
  have sizes : ∀ cut : List Histogram, (cut.flatMap levelBlock).length = cut.flatten.length := by
    intro cut
    simp [List.length_flatMap, List.length_flatten]
  rw [sizes, flatten_cutWith]

/-- Levelling the blocks of a cut makes no border more, and one less when it changes the first
count, provided that the cut opens with the mean of its first counts. -/
theorem borders_flatMap_cutWith_le {marked : List Marked} (agree : MarksAgree marked)
    (opening : Nat) :
    borders ((cutWith opening marked).flatMap levelBlock) ≤ borders (marked.map Prod.fst) ∧
      (opening = openingLimit marked → borders ((cutWith opening marked).flatMap levelBlock) +
        (if ((cutWith opening marked).flatMap levelBlock).head? = (marked.map Prod.fst).head?
          then 0 else 1) ≤ borders (marked.map Prod.fst)) := by
  fun_induction cutWith opening marked with
  | case1 => exact ⟨Nat.zero_le _, fun _ => Nat.zero_le _⟩
  | case2 opening count rest ih =>
    have later := (ih (agree.drop 1)).2 rfl
    have sizes := length_flatMap_cutWith (openingLimit rest) rest
    refine ⟨borders_levelBlock_append_le [count] later, fun _ => ?_⟩
    exact borders_levelBlock_append_add_le [count] sizes later fun long => by simp at long
  | case3 opening count rest size ih =>
    have later := (ih (agree.drop (size + 1))).2 rfl
    have sizes := length_flatMap_cutWith (openingLimit (rest.drop size)) (rest.drop size)
    have values : ((count, false) :: rest).map Prod.fst =
        (count :: (rest.take size).map Prod.fst) ++ (rest.drop size).map Prod.fst := by
      rw [List.cons_append, ← List.map_append, List.take_append_drop, List.map_cons]
    rw [List.flatMap_cons, values]
    refine ⟨borders_levelBlock_append_le _ later, fun opens => ?_⟩
    refine borders_levelBlock_append_add_le _ sizes later fun long last next isLast isNext => ?_
    have length : (count :: (rest.take size).map Prod.fst).length = size + 1 := by
      rw [List.length_cons, List.length_map, List.length_take, Nat.min_eq_left reach_le_length]
    rw [length] at long
    have beforeLast : size = size - 1 + 1 := by omega
    rw [List.getLast?_eq_getElem?, length, Nat.add_sub_cancel, beforeLast, List.getElem?_cons_succ,
      List.getElem?_map, List.getElem?_take_of_lt (by omega)] at isLast
    rw [List.head?_map, List.head?_drop] at isNext
    obtain ⟨lastMarked, foundLast, rfl⟩ := Option.map_eq_some_iff.mp isLast
    obtain ⟨nextMarked, foundNext, rfl⟩ := Option.map_eq_some_iff.mp isNext
    exact ne_of_reach agree opens (Nat.le_of_succ_le_succ long) foundLast foundNext

/-- Levelling a histogram makes no border more. -/
theorem borders_levelled_le {counts : Histogram} (filled : counts ≠ []) :
    borders counts.levelled ≤ borders counts := by
  have cut := (borders_flatMap_cutWith_le (marksAgree_marked counts) (counts.head?.getD 0).toNat).1
  rw [map_fst_marked] at cut
  rw [levelled_eq_flatMap filled]
  exact cut

/-- Shaping makes no border more up to the last used symbol, and none behind it: the last used
symbol has a border behind it before shaping unless it is the last symbol of all. -/
theorem LastUsed.borders_shape_le (lastUsed : counts.LastUsed last) :
    borders counts.shape.counts ≤ borders counts := by
  have front := borders_levelled_le lastUsed.upTo_ne_nil
  have behind : seam (counts.upTo last).levelled.getLast? (counts.drop (last + 1)).head? ≤
      seam (counts.upTo last).getLast? (counts.drop (last + 1)).head? := by
    rw [lastUsed.getLast?_upTo, lastUsed.drop_eq]
    cases counts.length - (last + 1) with
    | zero =>
      rw [List.replicate_zero, List.head?_nil, seam_none]
      exact Nat.zero_le _
    | succ more =>
      rw [List.replicate_succ, List.head?_cons, seam_of_ne (Ne.symm lastUsed.used)]
      exact seam_le_one _ _
  have whole : counts = counts.upTo last ++ counts.drop (last + 1) :=
    (List.take_append_drop (last + 1) counts).symm
  have split := congrArg borders whole
  rw [borders_append] at split
  rw [lastUsed.shape_eq, borders_append]
  omega

/-- Shaping makes no border more: the number of neighbours with different counts does not grow, and
neither does the number of runs. -/
theorem shape_never_adds_borders (counts : Histogram) :
    borders counts.shape.counts ≤ borders counts ∧
      (runs counts.shape.counts).length ≤ (runs counts).length := by
  have fewer : borders counts.shape.counts ≤ borders counts := by
    by_cases used : ∃ count ∈ counts, count ≠ 0
    · obtain ⟨last, lastUsed⟩ := exists_lastUsed used
      exact lastUsed.borders_shape_le
    · have zeros : ∀ count ∈ counts, count = 0 := by simpa using used
      rw [shape, if_pos ((trimmed_eq_nil_iff counts).mpr zeros)]
  exact ⟨fewer, length_runs_le_of_borders (length_shape counts) fewer⟩

end Histogram

end CanonicalHuffman
