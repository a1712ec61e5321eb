import CanonicalHuffman.Limits

/-!
# Histograms

A histogram holds one count per symbol of an alphabet, in symbol order. A symbol is used when
its count is not zero. Codes of `limit` bits tell `2 ^ limit` symbols apart, so a histogram with
more used symbols has no code of that length.
-/

namespace CanonicalHuffman

attribute [local instance (20000)] instPowNat

/-- How often each symbol occurs, in symbol order. -/
abbrev Histogram := List UInt32

namespace Histogram

/-- The number of used symbols. -/
def used (counts : Histogram) : Nat := counts.countP (· ≠ 0)

/-- Whether codes of at most `limit` bits can tell the used symbols apart. Codes never grow
past the longest length, whatever the limit allows. -/
def fits (counts : Histogram) (limit : Nat) : Bool := counts.used ≤ 2 ^ min limit maxCodeLength

/-- The counts up to the last one that is not zero. -/
def trimmed (counts : Histogram) : Histogram :=
  counts.foldr (fun count kept => if count = 0 ∧ kept = [] then [] else count :: kept) []

/-- An empty histogram uses no symbol. -/
@[simp] theorem used_nil : used [] = 0 := rfl

/-- A count in front uses one symbol more unless it is zero. -/
theorem used_cons (count : UInt32) (rest : Histogram) :
    used (count :: rest) = used rest + if count = 0 then 0 else 1 := by
  by_cases zero : count = 0 <;> simp [used, zero]

/-- No symbol is used exactly when every count is zero. -/
theorem used_eq_zero_iff (counts : Histogram) : counts.used = 0 ↔ ∀ count ∈ counts, count = 0 := by
  simp [used, List.countP_eq_zero]

/-- A count in front is kept unless it is zero and nothing is kept behind it. -/
theorem trimmed_cons (count : UInt32) (rest : Histogram) :
    trimmed (count :: rest) =
      if count = 0 ∧ trimmed rest = [] then [] else count :: trimmed rest := rfl

/-- A histogram is its trimmed part followed by zeros. -/
theorem trimmed_append_zeros (counts : Histogram) :
    counts = counts.trimmed ++ List.replicate (counts.length - counts.trimmed.length) 0 := by
  induction counts with
  | nil => rfl
  | cons count rest ih =>
    rw [trimmed_cons]
    split
    · next blank =>
      obtain ⟨rfl, nothing⟩ := blank
      rw [nothing] at ih
      simpa [List.replicate_succ] using ih
    · simpa using ih

/-- Nothing is left after trimming exactly when every count is zero. -/
theorem trimmed_eq_nil_iff (counts : Histogram) :
    counts.trimmed = [] ↔ ∀ count ∈ counts, count = 0 := by
  induction counts with
  | nil => simp [trimmed]
  | cons count rest ih =>
    rw [trimmed_cons]
    split
    · next blank => simpa [blank.1] using ih.1 blank.2
    · next filled => simpa [ih] using filled

end Histogram

end CanonicalHuffman
