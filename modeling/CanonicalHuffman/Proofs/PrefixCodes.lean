import CanonicalHuffman.Proofs.Allotments
import Mathlib.InformationTheory.Coding.KraftMcMillan

/-!
# Prefix codes have lengths that can be allotted

Code words of which none begins with another one can be told apart in any sequence, so the
Kraft-McMillan inequality holds for their lengths. The lengths of a prefix code for the used symbols
of a histogram are therefore an allotment.
-/

namespace CanonicalHuffman

/-- Neither of two words begins with the other one. -/
def Apart (word other : List Bool) : Prop := ¬ word <+: other ∧ ¬ other <+: word

instance : Std.Symm Apart := ⟨fun _ _ => And.symm⟩

/-- Code words for the used symbols, none of which begins with the word of another symbol. -/
structure Histogram.PrefixCode (counts : Histogram) (words : List (List Bool)) : Prop where
  /-- There is one word per symbol. Those of unused symbols have no effect. -/
  length_eq : words.length = counts.length
  /-- No word begins with the word of another symbol. -/
  apart : (counts.usedEntries words).Pairwise fun entry other => Apart entry.2 other.2

/-- Words, none of which begins with another one, can be told apart in any sequence. -/
theorem uniquelyDecodable_of_prefix_free {words : Set (List Bool)} (filled : [] ∉ words)
    (apart : ∀ word ∈ words, ∀ other ∈ words, word <+: other → word = other) :
    InformationTheory.UniquelyDecodable words := by
  intro message
  induction message with
  | nil =>
    intro other _ inside same
    cases other with
    | nil => rfl
    | cons word rest =>
      have empty : word = [] := by simp_all
      exact absurd (empty ▸ inside word List.mem_cons_self) filled
  | cons word rest ih =>
    intro other inside otherInside same
    cases other with
    | nil =>
      have empty : word = [] := by simp_all
      exact absurd (empty ▸ inside word List.mem_cons_self) filled
    | cons otherWord otherRest =>
      rw [List.forall_mem_cons] at inside otherInside
      rw [List.flatten_cons, List.flatten_cons] at same
      have equal : word = otherWord := by
        rcases List.prefix_or_prefix_of_prefix ⟨_, same⟩ ⟨_, rfl⟩ with begins | begins
        · exact apart word inside.1 otherWord otherInside.1 begins
        · exact (apart otherWord otherInside.1 word inside.1 begins).symm
      subst equal
      rw [ih otherRest inside.2 otherInside.2 (List.append_cancel_left same)]

/-- The shares of words that are apart add up to at most one. -/
theorem sum_half_pow_length_le {words : List (List Bool)} (filled : [] ∉ words)
    (apart : words.Pairwise Apart) :
    (words.map fun word => (1 / 2 : ℚ) ^ word.length).sum ≤ 1 := by
  have distinct : words.Nodup := apart.imp fun {word other} separate same => by
    apply separate.1
    rw [same]
  have decodable : InformationTheory.UniquelyDecodable (words.toFinset : Set (List Bool)) := by
    apply uniquelyDecodable_of_prefix_free
    · exact fun member => filled (List.mem_toFinset.mp member)
    · intro word member other otherMember begins
      by_contra different
      have separate := apart.forall (List.mem_toFinset.mp member)
        (List.mem_toFinset.mp otherMember) different
      exact separate.1 begins
  have bound := InformationTheory.kraft_mcmillan_inequality decodable
  rw [List.sum_toFinset _ distinct, Fintype.card_bool] at bound
  -- the inequality is about real numbers, which the shares are cast to
  have cast : (((words.map fun word => (1 / 2 : ℚ) ^ word.length).sum : ℚ) : ℝ) ≤ 1 := by
    rw [Rat.cast_list_sum, List.map_map]
    refine le_trans (le_of_eq ?_) bound
    congr 1
    apply List.map_congr_left
    intro word _
    simp
  exact_mod_cast cast

namespace Histogram

variable {counts : Histogram} {words : List (List Bool)}

/-- The words of a prefix code are not empty when there are two and more. -/
theorem PrefixCode.ne_nil (code : PrefixCode counts words) (many : 2 ≤ counts.used)
    {entry : UInt32 × List Bool} (member : entry ∈ counts.usedEntries words) : entry.2 ≠ [] := by
  intro empty
  have count := length_usedEntries code.length_eq
  obtain ⟨position, inside, rfl⟩ := List.mem_iff_getElem.mp member
  have apart := List.pairwise_iff_getElem.mp code.apart
  by_cases first : position = 0
  · subst first
    apply (apart 0 1 inside (by omega) (by omega)).1
    rw [empty]
    exact List.nil_prefix
  · apply (apart 0 position (by omega) inside (by omega)).2
    rw [empty]
    exact List.nil_prefix

/-- The words of a prefix code have lengths that can be allotted. -/
theorem PrefixCode.allotment (code : PrefixCode counts words) (many : 2 ≤ counts.used) :
    Allotment counts (words.map List.length) where
  length_eq := (List.length_map _).trans code.length_eq
  positive := by
    intro entry member
    rw [usedEntries_map] at member
    obtain ⟨own, isOwn, rfl⟩ := List.mem_map.mp member
    exact List.length_pos_iff.mpr (code.ne_nil many isOwn)
  kraft := by
    have filled : [] ∉ (counts.usedEntries words).map Prod.snd := by
      intro member
      obtain ⟨entry, isEntry, empty⟩ := List.mem_map.mp member
      exact code.ne_nil many isEntry empty
    have bound := sum_half_pow_length_le filled (List.pairwise_map.mpr code.apart)
    rw [List.map_map] at bound
    rw [usedEntries_map, List.map_map]
    exact bound

end Histogram

end CanonicalHuffman
