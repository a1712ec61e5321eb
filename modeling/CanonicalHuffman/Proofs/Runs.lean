import CanonicalHuffman.Run

/-!
# Rows and runs

What a value, a list or a row of equal values in front does to the runs of a list, and how many runs
there are. A row of equal values lies within one run, whatever stands around it.
-/

namespace CanonicalHuffman

namespace Run

variable {α : Type} [DecidableEq α]

/-- A value in front of runs makes at most one run more. -/
theorem length_prepend_le (value : α) (cut : List (Run α)) :
    (prepend value cut).length ≤ cut.length + 1 := by
  cases cut with
  | nil => exact Nat.le_refl _
  | cons run rest =>
    rw [prepend]
    split <;> simp

/-- The first run holds the value in front. -/
theorem exists_prepend (value : α) (cut : List (Run α)) :
    ∃ size rest, prepend value cut = ⟨value, size⟩ :: rest := by
  cases cut with
  | nil => exact ⟨1, [], rfl⟩
  | cons run rest =>
    rw [prepend]
    split
    · exact ⟨_, _, rfl⟩
    · exact ⟨_, _, rfl⟩

/-- A value begins a run of its own unless it is followed by the same value. -/
theorem length_runs_cons_cons (value next : α) (rest : List α) :
    (runs (value :: next :: rest)).length =
      (runs (next :: rest)).length + if next = value then 0 else 1 := by
  obtain ⟨size, later, first⟩ := exists_prepend next (runs rest)
  have split : runs (next :: rest) = ⟨next, size⟩ :: later := first
  rw [runs, split, prepend]
  split <;> rfl

/-- A value that does not stand in front of it begins a run of its own, so the runs in front stay.
-/
theorem runs_append_cons {front : List α} {value : α} (fresh : value ∉ front) (back : List α) :
    runs (front ++ value :: back) = runs front ++ runs (value :: back) := by
  induction front with
  | nil => rfl
  | cons next rest ih =>
    rw [List.mem_cons, not_or] at fresh
    show prepend next (runs (rest ++ value :: back)) = prepend next (runs rest) ++ _
    rw [ih fresh.2]
    cases runs rest with
    | nil =>
      obtain ⟨size, later, first⟩ := exists_prepend value (runs back)
      have split : runs (value :: back) = ⟨value, size⟩ :: later := first
      show prepend next (runs (value :: back)) = ⟨next, 1⟩ :: runs (value :: back)
      rw [split, prepend, if_neg fresh.1]
    | cons run later =>
      rw [List.cons_append, prepend, prepend]
      split <;> rfl

/-- Two lists side by side have no more runs than the two lists by themselves. -/
theorem length_runs_append_le (front back : List α) :
    (runs (front ++ back)).length ≤ (runs front).length + (runs back).length := by
  induction front with
  | nil => exact Nat.le_add_left _ _
  | cons value rest ih =>
    cases rest with
    | nil =>
      have one : (runs [value]).length = 1 := rfl
      have more := length_prepend_le value (runs back)
      rw [List.cons_append, List.nil_append, runs]
      omega
    | cons next rest =>
      rw [List.cons_append, List.cons_append, length_runs_cons_cons, length_runs_cons_cons,
        ← List.cons_append]
      omega

/-- Equal values have one run at most. -/
theorem length_runs_replicate_le (size : Nat) (value : α) :
    (runs (List.replicate size value)).length ≤ 1 := by
  induction size with
  | zero => exact Nat.zero_le _
  | succ size ih =>
    cases size with
    | zero => exact Nat.le_refl _
    | succ size =>
      rw [List.replicate_succ, List.replicate_succ, length_runs_cons_cons, if_pos rfl,
        ← List.replicate_succ]
      exact ih

/-- The first value of a list is repeated up to a value that differs from it. -/
theorem exists_first_row (first : α) (rest : List α) :
    ∃ size others, first :: rest = List.replicate size first ++ others ∧
      ∀ value ∈ others.head?, value ≠ first := by
  induction rest with
  | nil => exact ⟨1, [], rfl, by simp⟩
  | cons next rest ih =>
    by_cases same : next = first
    · subst same
      obtain ⟨size, others, split, apart⟩ := ih
      exact ⟨size + 1, others, by rw [split, List.replicate_succ, List.cons_append], apart⟩
    · exact ⟨1, next :: rest, rfl, by simpa using same⟩

/-- When the values in the place of each run have few runs, so have all values. -/
theorem length_runs_le_mul {β : Type} {cut : List (Run β)} {values : List α} {most : Nat}
    (sizes : values.length = (layout cut).length)
    (few : ∀ front run back, cut = front ++ run :: back →
      (runs ((values.drop (layout front).length).take run.size)).length ≤ most) :
    (runs values).length ≤ most * cut.length := by
  induction cut generalizing values with
  | nil =>
    obtain rfl := List.length_eq_zero_iff.mp sizes
    exact Nat.zero_le _
  | cons run rest ih =>
    have first : (runs (values.take run.size)).length ≤ most := few [] run rest rfl
    have others : (runs (values.drop run.size)).length ≤ most * rest.length := by
      apply ih
      · simp [sizes, toList]
      · intro front next back split
        have later := few (run :: front) next back (by rw [split]; rfl)
        simpa [toList, Nat.add_comm] using later
    have whole := length_runs_append_le (values.take run.size) (values.drop run.size)
    rw [List.take_append_drop] at whole
    rw [List.length_cons, Nat.mul_succ]
    omega

/-- Equal values in front are part of the first run when that holds the same value, and a run of
their own otherwise. -/
theorem runs_replicate_append (size : Nat) (value : α) (rest : List α) :
    runs (List.replicate (size + 1) value ++ rest) = match runs rest with
      | [] => [⟨value, size + 1⟩]
      | run :: later =>
        if run.value = value then ⟨value, run.size + (size + 1)⟩ :: later
        else ⟨value, size + 1⟩ :: run :: later := by
  induction size with
  | zero =>
    rw [List.replicate_one, List.singleton_append, runs]
    rfl
  | succ size ih =>
    rw [List.replicate_succ, List.cons_append, runs, ih]
    cases runs rest with
    | nil => simp [prepend]
    | cons run later =>
      by_cases same : run.value = value
      · simp [prepend, same, Nat.add_assoc]
      · simp [prepend, same]

/-- A value in front makes the first run longer or is a run of its own; the runs behind stay. -/
theorem exists_prepend_append (value : α) (before : List (Run α)) (run : Run α)
    (after : List (Run α)) :
    ∃ front first, prepend value (before ++ run :: after) = front ++ first :: after ∧
      first.value = run.value ∧ (layout front).length ≤ (layout before).length + 1 ∧
      (layout front).length + first.size = (layout before).length + run.size + 1 := by
  cases before with
  | nil =>
    by_cases same : run.value = value
    · exact ⟨[], ⟨value, run.size + 1⟩, by simp [prepend, same], same.symm, by simp, by simp⟩
    · exact ⟨[⟨value, 1⟩], run, by simp [prepend, same], rfl, by simp [toList], by
        simp [toList, Nat.add_comm]⟩
  | cons next before =>
    by_cases same : next.value = value
    · refine ⟨⟨value, next.size + 1⟩ :: before, run, by simp [prepend, same], rfl, ?_, ?_⟩
      · simp [toList]
        omega
      · simp [toList]
        omega
    · refine ⟨⟨value, 1⟩ :: next :: before, run, by simp [prepend, same], rfl, ?_, ?_⟩
      · simp [toList]
      · simp [toList]
        omega

/-- A row of equal values lies within one run. -/
theorem exists_run_of_row (front : List α) (size : Nat) (value : α) (back : List α) :
    ∃ before run after, runs (front ++ List.replicate (size + 1) value ++ back) =
        before ++ run :: after ∧ run.value = value ∧ (layout before).length ≤ front.length ∧
      front.length + (size + 1) ≤ (layout before).length + run.size := by
  induction front with
  | nil =>
    rw [List.nil_append, runs_replicate_append]
    cases runs back with
    | nil => exact ⟨[], ⟨value, size + 1⟩, [], rfl, rfl, Nat.le_refl _, by simp⟩
    | cons run later =>
      by_cases same : run.value = value
      · exact ⟨[], ⟨value, run.size + (size + 1)⟩, later, by simp [same], rfl,
          Nat.le_refl _, by simp⟩
      · exact ⟨[], ⟨value, size + 1⟩, run :: later, by simp [same], rfl, Nat.le_refl _, by simp⟩
  | cons first front ih =>
    obtain ⟨before, run, after, cut, same, start, stop⟩ := ih
    obtain ⟨earlier, grown, split, value_eq, near, sizes⟩ :=
      exists_prepend_append first before run after
    refine ⟨earlier, grown, after, ?_, value_eq.trans same, ?_, ?_⟩
    · rw [List.cons_append, List.cons_append, runs, cut, split]
    · rw [List.length_cons]
      omega
    · rw [List.length_cons]
      omega

end Run

end CanonicalHuffman
