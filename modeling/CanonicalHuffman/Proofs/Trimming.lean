import CanonicalHuffman.Histogram.Shaping
import Mathlib.Data.List.GetD

/-!
# The last used symbol

A histogram with a used symbol has a last one. Trimming keeps the counts up to it, and shaping
levels these counts and nothing behind them.
-/

namespace CanonicalHuffman

namespace Histogram

variable {counts : Histogram} {last : Nat}

/-- The place of the last used symbol. -/
structure LastUsed (counts : Histogram) (last : Nat) : Prop where
  /-- The symbol is used. -/
  used : counts.getD last 0 ≠ 0
  /-- No later symbol is used. -/
  later : ∀ symbol, last < symbol → counts.getD symbol 0 = 0

/-- The counts up to a place. -/
def upTo (counts : Histogram) (last : Nat) : Histogram := counts.take (last + 1)

/-- Counts are all zero exactly when every place holds zero. -/
theorem forall_eq_zero_iff : (∀ count ∈ counts, count = 0) ↔
    ∀ symbol, counts.getD symbol 0 = 0 := by
  constructor
  · intro zeros symbol
    by_cases inside : symbol < counts.length
    · rw [List.getD_eq_getElem _ _ inside]
      exact zeros _ (List.getElem_mem inside)
    · exact List.getD_eq_default _ _ (Nat.le_of_not_lt inside)
  · intro zeros count member
    obtain ⟨symbol, inside, rfl⟩ := List.mem_iff_getElem.mp member
    rw [← List.getD_eq_getElem _ 0 inside]
    exact zeros symbol

/-- The last used symbol behind a first count. -/
theorem lastUsed_cons_succ_iff {first : UInt32} {rest : Histogram} :
    LastUsed (first :: rest) (last + 1) ↔ LastUsed rest last := by
  constructor
  · intro lastUsed
    exact ⟨lastUsed.used, fun symbol after => lastUsed.later (symbol + 1) (Nat.succ_lt_succ after)⟩
  · intro lastUsed
    refine ⟨lastUsed.used, fun symbol after => ?_⟩
    cases symbol with
    | zero => exact absurd after (Nat.not_lt_zero _)
    | succ symbol => exact lastUsed.later symbol (Nat.lt_of_succ_lt_succ after)

/-- The first symbol is the last used one when all others are unused. -/
theorem lastUsed_cons_zero_iff {first : UInt32} {rest : Histogram} :
    LastUsed (first :: rest) 0 ↔ first ≠ 0 ∧ ∀ count ∈ rest, count = 0 := by
  rw [forall_eq_zero_iff]
  constructor
  · intro lastUsed
    exact ⟨lastUsed.used, fun symbol => lastUsed.later (symbol + 1) (Nat.succ_pos symbol)⟩
  · intro ⟨used, zeros⟩
    refine ⟨used, fun symbol after => ?_⟩
    obtain ⟨before, rfl⟩ := Nat.exists_eq_succ_of_ne_zero (Nat.ne_of_gt after)
    exact zeros before

/-- A histogram that uses some symbol has a last one. -/
theorem exists_lastUsed (used : ∃ count ∈ counts, count ≠ 0) : ∃ last, counts.LastUsed last := by
  induction counts with
  | nil => simp at used
  | cons first rest ih =>
    by_cases later : ∃ count ∈ rest, count ≠ 0
    · obtain ⟨last, lastUsed⟩ := ih later
      exact ⟨last + 1, lastUsed_cons_succ_iff.mpr lastUsed⟩
    · have zeros : ∀ count ∈ rest, count = 0 := by simpa using later
      exact ⟨0, lastUsed_cons_zero_iff.mpr ⟨by simpa [later] using used, zeros⟩⟩

/-- The trimmed part ends with the last used symbol. -/
theorem LastUsed.trimmed_eq (lastUsed : counts.LastUsed last) :
    counts.trimmed = counts.upTo last := by
  induction counts generalizing last with
  | nil => exact absurd rfl lastUsed.used
  | cons first rest ih =>
    rw [trimmed_cons]
    cases last with
    | zero =>
      obtain ⟨used, zeros⟩ := lastUsed_cons_zero_iff.mp lastUsed
      rw [(trimmed_eq_nil_iff rest).mpr zeros, if_neg (fun blank => used blank.1)]
      rfl
    | succ last =>
      have tail := lastUsed_cons_succ_iff.mp lastUsed
      have filled : trimmed rest ≠ [] := fun empty =>
        tail.used (forall_eq_zero_iff.mp ((trimmed_eq_nil_iff rest).mp empty) last)
      rw [if_neg (fun blank => filled blank.2), ih tail]
      rfl

/-- Some count stands up to the last used symbol. -/
theorem LastUsed.upTo_ne_nil (lastUsed : counts.LastUsed last) : counts.upTo last ≠ [] := by
  rw [← lastUsed.trimmed_eq, Ne, trimmed_eq_nil_iff, forall_eq_zero_iff]
  exact fun zeros => lastUsed.used (zeros last)

/-- The last used symbol is one of the symbols. -/
theorem LastUsed.inside (lastUsed : counts.LastUsed last) : last < counts.length := by
  refine Nat.lt_of_not_le fun outside => ?_
  exact lastUsed.used (List.getD_eq_default _ _ outside)

/-- Up to the last used symbol there are that many counts and one. -/
theorem LastUsed.length_upTo (lastUsed : counts.LastUsed last) :
    (counts.upTo last).length = last + 1 := by
  rw [upTo, List.length_take, Nat.min_eq_left lastUsed.inside]

/-- The counts up to the last used symbol end with its count. -/
theorem LastUsed.getLast?_upTo (lastUsed : counts.LastUsed last) :
    (counts.upTo last).getLast? = some (counts.getD last 0) := by
  rw [List.getLast?_eq_getElem?, lastUsed.length_upTo, Nat.add_sub_cancel, upTo,
    List.getElem?_take_of_lt (Nat.lt_succ_self last), List.getD_eq_getElem _ _ lastUsed.inside,
    List.getElem?_eq_getElem lastUsed.inside]

/-- Behind the last used symbol there are only zeros. -/
theorem LastUsed.drop_eq (lastUsed : counts.LastUsed last) :
    counts.drop (last + 1) = List.replicate (counts.length - (last + 1)) 0 := by
  have whole := counts.trimmed_append_zeros
  rw [lastUsed.trimmed_eq, lastUsed.length_upTo, upTo] at whole
  exact List.append_cancel_left ((List.take_append_drop (last + 1) counts).trans whole)

/-- The counts up to the last used symbol are levelled, and the zeros behind it stay. -/
theorem LastUsed.shape_eq (lastUsed : counts.LastUsed last) :
    counts.shape = ⟨.shaped, (counts.upTo last).levelled ++ counts.drop (last + 1)⟩ := by
  rw [shape, lastUsed.trimmed_eq, if_neg lastUsed.upTo_ne_nil, lastUsed.length_upTo,
    lastUsed.drop_eq]

end Histogram

end CanonicalHuffman
