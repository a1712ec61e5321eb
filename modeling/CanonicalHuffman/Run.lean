/-!
# Maximal runs of equal values

A list is cut into its maximal runs of equal values. Laying the runs out again gives the list
back (`Run.layout_runs`), no run is empty, and neighbouring runs hold different values
(`Run.runs_separate`), so the cut is the only one of its kind.
-/

namespace CanonicalHuffman

/-- A value and how often it stands in a row. -/
structure Run (α : Type) where
  /-- The value repeated. -/
  value : α
  /-- The number of repetitions. -/
  size : Nat
deriving DecidableEq, Repr

namespace Run

variable {α : Type}

/-- The values a run stands for. -/
def toList (run : Run α) : List α := List.replicate run.size run.value

/-- The values a list of runs stands for. -/
def layout (runs : List (Run α)) : List α := runs.flatMap toList

/-- No runs stand for no values. -/
@[simp] theorem layout_nil : layout ([] : List (Run α)) = [] := rfl

/-- A run in front puts its values in front. -/
@[simp] theorem layout_cons (run : Run α) (rest : List (Run α)) :
    layout (run :: rest) = run.toList ++ layout rest := rfl

variable [DecidableEq α]

/-- Put one value in front of a list of runs, as part of the first run if that holds the same
value. -/
def prepend (value : α) : List (Run α) → List (Run α)
  | [] => [⟨value, 1⟩]
  | run :: rest =>
    if run.value = value then ⟨value, run.size + 1⟩ :: rest else ⟨value, 1⟩ :: run :: rest

/-- The maximal runs of a list, in order. -/
def runs : List α → List (Run α)
  | [] => []
  | value :: rest => prepend value (runs rest)

/-- Putting a value in front of runs puts it in front of the values they stand for. -/
@[simp] theorem layout_prepend (value : α) (rest : List (Run α)) :
    layout (prepend value rest) = value :: layout rest := by
  cases rest with
  | nil => rfl
  | cons run rest =>
    by_cases same : run.value = value
    · subst same
      simp [prepend, toList, List.replicate_succ]
    · simp [prepend, same, toList]

/-- The runs of a list stand for the list. -/
@[simp] theorem layout_runs (values : List α) : layout (runs values) = values := by
  induction values with
  | nil => rfl
  | cons value rest ih => simp [runs, ih]

/-- No run is empty and neighbouring runs hold different values. -/
def Separate : List (Run α) → Prop
  | [] => True
  | [run] => 0 < run.size
  | run :: next :: rest => 0 < run.size ∧ run.value ≠ next.value ∧ Separate (next :: rest)

/-- Putting a value in front keeps runs separate. -/
theorem separate_prepend (value : α) {rest : List (Run α)} (separate : Separate rest) :
    Separate (prepend value rest) := by
  match rest, separate with
  | [], _ => exact Nat.one_pos
  | [run], filled =>
    by_cases same : run.value = value
    · simp [prepend, same, Separate]
    · simpa [prepend, same, Separate] using ⟨Ne.symm same, filled⟩
  | run :: next :: rest, ⟨filled, differ, later⟩ =>
    by_cases same : run.value = value
    · subst same
      simpa [prepend, Separate] using ⟨differ, later⟩
    · simpa [prepend, same, Separate] using ⟨Ne.symm same, filled, differ, later⟩

/-- The runs of a list are separate. -/
theorem runs_separate (values : List α) : Separate (runs values) := by
  induction values with
  | nil => trivial
  | cons value rest ih => exact separate_prepend value ih

end Run

end CanonicalHuffman
