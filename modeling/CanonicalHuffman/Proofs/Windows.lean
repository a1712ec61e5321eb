import CanonicalHuffman.Proofs.ClosedForm
import Mathlib.Algebra.BigOperators.Fin
import Mathlib.Data.Int.CardIntervalMod

/-!
# Prefix codes and the windows of a reader

A reader that looks at the next fifteen bits sees one of `2 ^ 15` windows. A code begins the windows
that hold it in their lowest bits, which are as many as its share. No code begins another one
exactly when no window begins with two codes, so the windows bound the Kraft sum, whatever the codes
are. Canonical codes meet this bound: they are prefix-free when the Kraft sum leaves room for them,
and a full Kraft sum uses up every window.
-/

namespace CanonicalHuffman

open Finset

/-- Among the numbers of `wider` bits, those with the same lowest bits are as many as there are
values of the other bits. -/
theorem card_filter_mod_two_pow {width wider low : Nat} (narrow : width ≤ wider)
    (small : low < 2 ^ width) :
    {number ∈ range (2 ^ wider) | number % 2 ^ width = low}.card = 2 ^ (wider - width) := by
  have space : 2 ^ wider = 2 ^ (wider - width) * 2 ^ width := by
    rw [← Nat.pow_add]
    congr 1
    omega
  have counted := Nat.count_modEq_card (2 ^ wider) (Nat.two_pow_pos width) low
  rw [Nat.count_eq_card_filter_range, space, Nat.mul_mod_left, if_neg (Nat.not_lt_zero _),
    Nat.mul_div_cancel _ (Nat.two_pow_pos width), Nat.add_zero, ← space] at counted
  simpa only [Nat.ModEq, Nat.mod_eq_of_lt small] using counted

/-- The bits above a code have no effect on its reversal, so the code can be counted in words of
32 bits. -/
theorem reverseBits_mod_word {width : Nat} (short : width ≤ maxCodeLength) (bits : Nat) :
    reverseBits width (bits % 2 ^ 32) = reverseBits width bits := by
  have narrow : width ≤ 32 := Nat.le_trans short (by decide)
  exact reverseBits_congr short (Nat.mod_mod_of_dvd bits (Nat.pow_dvd_pow 2 narrow))

namespace CodeTable

variable {table assigned : CodeTable}

/-- No code begins the code of another symbol, where codes are read from their least significant bit
on. -/
def PrefixFree (table : CodeTable) : Prop :=
  ∀ ⦃symbol other : Nat⦄ ⦃code otherCode : UInt16⦄ ⦃length otherLength : UInt8⦄, symbol ≠ other →
    table.code? symbol = .ok (some (code, length)) →
    table.code? other = .ok (some (otherCode, otherLength)) →
    length.toNat ≤ otherLength.toNat → otherCode.toNat % 2 ^ length.toNat ≠ code.toNat

/-- A table whose codes fit their lengths, and whose lengths fit a window. -/
structure FitsWindow (table : CodeTable) : Prop where
  /-- There is one code per length. -/
  consistent : table.Consistent
  /-- No length is too long. -/
  short : ∀ length ∈ table.lengths, length.toNat ≤ maxCodeLength
  /-- Every code fits its length, that of a symbol without a code included. -/
  code_lt : ∀ (symbol : Nat) (code : UInt16) (length : UInt8),
    table.lengths[symbol]? = some length → table.codes[symbol]? = some code →
      code.toNat < 2 ^ length.toNat

/-- Whether a window holds the code of a symbol in its lowest bits. -/
def begins (table : CodeTable) (symbol window : Nat) : Bool :=
  match table.code? symbol with
  | .ok (some (code, length)) => window % 2 ^ length.toNat = code.toNat
  | _ => false

/-- The windows that begin with the code of a symbol. -/
def windows (table : CodeTable) (symbol : Nat) : Finset Nat :=
  {window ∈ range (2 ^ maxCodeLength) | table.begins symbol window}

/-- A window begins with the code of a symbol that has one. -/
theorem begins_eq_true_iff {symbol window : Nat} : table.begins symbol window = true ↔
    ∃ code length, table.code? symbol = .ok (some (code, length)) ∧
      window % 2 ^ length.toNat = code.toNat := by
  unfold begins
  split <;> simp_all

/-- A window of a symbol is one of all windows and holds the code of the symbol. -/
theorem mem_windows_iff {symbol window : Nat} : window ∈ table.windows symbol ↔
    window < 2 ^ maxCodeLength ∧ ∃ code length,
      table.code? symbol = .ok (some (code, length)) ∧ window % 2 ^ length.toNat = code.toNat := by
  rw [windows, mem_filter, mem_range, begins_eq_true_iff]

/-- A symbol has as many windows as its length has shares. -/
theorem FitsWindow.card_windows (fits : table.FitsWindow) {symbol : Nat} {length : UInt8}
    (found : table.lengths[symbol]? = some length) :
    (table.windows symbol).card = kraftShare maxCodeLength length := by
  by_cases blank : length = 0
  · have uncoded : table.code? symbol = .ok none := by rw [code?, found, blank]; rfl
    rw [kraftShare, if_pos blank, card_eq_zero, windows, filter_eq_empty_iff]
    intro window _
    rw [begins, uncoded]
    simp
  · obtain ⟨code, coded⟩ := fits.consistent.exists_code? found blank
    have small := fits.code_lt symbol code length found (code?_eq_ok_some_iff.mp coded).2.2
    have own : table.windows symbol =
        {window ∈ range (2 ^ maxCodeLength) | window % 2 ^ length.toNat = code.toNat} := by
      apply filter_congr
      intro window _
      rw [begins, coded]
      exact decide_eq_true_iff
    rw [own, card_filter_mod_two_pow (fits.short length (List.mem_of_getElem? found)) small,
      kraftShare,
      if_neg blank]

/-- The Kraft sum counts the windows of all symbols. -/
theorem FitsWindow.sum_card_windows (fits : table.FitsWindow) :
    ∑ symbol : Fin table.lengths.length, (table.windows symbol).card =
      kraftSum maxCodeLength table.lengths := by
  calc
    ∑ symbol : Fin table.lengths.length, (table.windows symbol).card =
        ∑ symbol : Fin table.lengths.length, kraftShare maxCodeLength table.lengths[symbol] :=
      sum_congr rfl fun symbol _ =>
        fits.card_windows (List.getElem?_eq_getElem symbol.isLt)
    _ = kraftSum maxCodeLength table.lengths :=
      Fin.sum_univ_fun_getElem table.lengths (kraftShare maxCodeLength)

namespace PrefixFree

/-- A window begins with the code of at most one symbol. -/
theorem unique (free : table.PrefixFree) {symbol other window : Nat}
    (first : window ∈ table.windows symbol) (second : window ∈ table.windows other) :
    symbol = other := by
  obtain ⟨_, code, length, coded, low⟩ := mem_windows_iff.mp first
  obtain ⟨_, otherCode, otherLength, otherCoded, otherLow⟩ := mem_windows_iff.mp second
  -- the shorter code holds the lowest bits of the window, and so those of the longer code
  have lowest : ∀ {width wider : Nat}, width ≤ wider →
      window % 2 ^ wider % 2 ^ width = window % 2 ^ width := fun narrow =>
    Nat.mod_mod_of_dvd _ (Nat.pow_dvd_pow 2 narrow)
  by_contra different
  rcases Nat.le_total length.toNat otherLength.toNat with ordered | ordered
  · apply free different coded otherCoded ordered
    rw [← otherLow, lowest ordered, low]
  · apply free (Ne.symm different) otherCoded coded ordered
    rw [← low, lowest ordered, otherLow]

/-- The windows of all symbols are as many as the Kraft sum says. -/
theorem card_biUnion_windows (free : table.PrefixFree) (fits : table.FitsWindow) :
    ((univ : Finset (Fin table.lengths.length)).biUnion fun symbol => table.windows symbol).card =
      kraftSum maxCodeLength table.lengths := by
  rw [card_biUnion, fits.sum_card_windows]
  intro symbol _ other _ different
  apply disjoint_left.mpr
  intro window first second
  exact different (Fin.ext (free.unique first second))

/-- Prefix-free codes have room for one another. -/
theorem kraftSum_le (free : table.PrefixFree) (fits : table.FitsWindow) :
    kraftSum maxCodeLength table.lengths ≤ 2 ^ maxCodeLength := by
  rw [← free.card_biUnion_windows fits]
  calc
    _ ≤ (range (2 ^ maxCodeLength)).card :=
      card_le_card (biUnion_subset.mpr fun symbol _ => filter_subset ..)
    _ = 2 ^ maxCodeLength := card_range _

/-- Prefix-free codes that use up the space leave no window without a code. -/
theorem exists_mem_windows (free : table.PrefixFree) (fits : table.FitsWindow)
    (full : kraftSum maxCodeLength table.lengths = 2 ^ maxCodeLength) {window : Nat}
    (inside : window < 2 ^ maxCodeLength) : ∃ symbol, window ∈ table.windows symbol := by
  have among : ((univ : Finset (Fin table.lengths.length)).biUnion fun symbol =>
      table.windows symbol) ⊆ range (2 ^ maxCodeLength) :=
    biUnion_subset.mpr fun symbol _ => filter_subset ..
  have all := eq_of_subset_of_card_le among
    (by rw [free.card_biUnion_windows fits, full, card_range])
  have covered := mem_range.mpr inside
  rw [← all] at covered
  obtain ⟨symbol, _, begun⟩ := mem_biUnion.mp covered
  exact ⟨symbol, begun⟩

end PrefixFree

/-- An assigned code fits its length, also where the lengths leave no room for one another. -/
theorem code_lt_of_assignCodes (consistent : table.Consistent)
    (done : table.assignCodes = .ok assigned) {symbol : Nat} {code : UInt16} {length : UInt8}
    (found : assigned.lengths[symbol]? = some length)
    (stored : assigned.codes[symbol]? = some code) :
    code.toNat < 2 ^ length.toNat := by
  obtain ⟨lengths, read, codes⟩ := assignCodes_eq_ok_iff.mp done
  by_cases blank : length = 0
  · rw [lengths_of_assignCodes done] at found
    obtain ⟨own, atOwn, same⟩ := CodeLength.getElem?_of_ofBytes read found
    obtain rfl : own = 0 := Fin.ext (by rw [same, blank]; rfl)
    have inside : symbol < table.codes.length := by
      rw [consistent]
      exact (List.getElem?_eq_some_iff.mp found).1
    rw [codes, CodeLength.getElem?_assign_of_blank atOwn inside, Option.some.injEq] at stored
    rw [← stored, blank]
    decide
  · obtain ⟨own, _, _, sameLength, sameCode⟩ := code?_of_assignCodes consistent read done
      (code?_eq_ok_some_iff.mpr ⟨found, blank, stored⟩)
    rw [sameLength, sameCode]
    exact reverseBits_lt (Nat.le_of_lt_succ own.isLt) _

/-- An assigned table fits a window. -/
theorem fitsWindow_of_assignCodes (consistent : table.Consistent)
    (short : ∀ length ∈ table.lengths, length.toNat ≤ maxCodeLength)
    (done : table.assignCodes = .ok assigned) : assigned.FitsWindow where
  consistent := consistent.assignCodes done
  short := by rwa [lengths_of_assignCodes done]
  code_lt _ _ _ := code_lt_of_assignCodes consistent done

/-- Assigned codes are prefix-free when their lengths leave room for one another. -/
theorem prefixFree_of_assignCodes (consistent : table.Consistent)
    (done : table.assignCodes = .ok assigned)
    (kraft : kraftSum maxCodeLength table.lengths ≤ 2 ^ maxCodeLength) : assigned.PrefixFree := by
  intro symbol other code otherCode length otherLength different coded otherCoded ordered begun
  have readable := readable_of_assignCodes consistent done kraft
  exact different (readable.prefixFree coded otherCoded ordered begun)

/-- Codes are assigned to any lengths that are not too long, also to those that leave no room for
one another. Every code fits its length, and it is the reversal of a counter, of which no more than
32 bits matter. No code begins another one exactly when the Kraft sum of the lengths is at most one,
and when it is one, each window of fifteen bits begins with the code of one symbol. -/
theorem assignCodes_prefix_free_iff (table : CodeTable) (consistent : table.Consistent)
    (short : ∀ length ∈ table.lengths, length.toNat ≤ 15) :
    ∃ assigned lengths, table.assignCodes = .ok assigned ∧
      CodeLength.ofBytes table.lengths = .ok lengths ∧ assigned.lengths = table.lengths ∧
      assigned.codes.length = table.codes.length ∧
      (∀ (symbol : Nat) (code : UInt16) (length : UInt8),
        assigned.code? symbol = .ok (some (code, length)) → code.toNat =
          reverseBits length.toNat
            (CodeLength.canonicalCode lengths symbol length.toNat % 2 ^ 32)) ∧
      (∀ (symbol : Nat) (code : UInt16) (length : UInt8),
        assigned.lengths[symbol]? = some length → assigned.codes[symbol]? = some code →
          code.toNat < 2 ^ length.toNat) ∧
      (assigned.PrefixFree ↔ kraftSum 15 table.lengths ≤ 2 ^ 15) ∧
      (kraftSum 15 table.lengths = 2 ^ 15 → ∀ window < 2 ^ 15, ∃! symbol, ∃ code length,
        assigned.code? symbol = .ok (some (code, length)) ∧
          window % 2 ^ length.toNat = code.toNat) := by
  obtain ⟨assigned, done⟩ := exists_assignCodes short
  obtain ⟨lengths, read, _⟩ := assignCodes_eq_ok_iff.mp done
  have kept := lengths_of_assignCodes done
  have fits := fitsWindow_of_assignCodes consistent short done
  refine ⟨assigned, lengths, done, read, kept, ?_, ?_, fits.code_lt, ?_, ?_⟩
  · rw [fits.consistent, kept, consistent]
  · intro symbol code length coded
    obtain ⟨own, _, _, sameLength, sameCode⟩ := code?_of_assignCodes consistent read done coded
    rw [sameLength, reverseBits_mod_word (Nat.le_of_lt_succ own.isLt), sameCode]
  · constructor
    · intro free
      have bound := free.kraftSum_le fits
      rwa [kept] at bound
    · exact prefixFree_of_assignCodes consistent done
  · intro full window inside
    have free := prefixFree_of_assignCodes consistent done (Nat.le_of_eq full)
    have fullAfter : kraftSum maxCodeLength assigned.lengths = 2 ^ maxCodeLength := by rwa [kept]
    obtain ⟨symbol, begun⟩ := free.exists_mem_windows fits fullAfter inside
    refine ⟨symbol, (mem_windows_iff.mp begun).2, fun other held => ?_⟩
    exact free.unique (mem_windows_iff.mpr ⟨inside, held⟩) begun

/-- Lengths that use up the space, and as many codes of one bit as leave no room for one another. -/
theorem assignCodes_prefix_free_iff_of_three_symbols :
    (∃ assigned, assignCodes ⟨[2, 0, 1, 2], [7, 7, 7, 7]⟩ = .ok assigned ∧ assigned.PrefixFree ∧
      ∃! symbol, ∃ code length, assigned.code? symbol = .ok (some (code, length)) ∧
        5 % 2 ^ length.toNat = code.toNat) ∧
    ∃ assigned, assignCodes ⟨[1, 1, 1], [7, 7, 7]⟩ = .ok assigned ∧ ¬ assigned.PrefixFree := by
  constructor
  · obtain ⟨assigned, _, done, _, _, _, _, _, free, full⟩ :=
      assignCodes_prefix_free_iff ⟨[2, 0, 1, 2], [7, 7, 7, 7]⟩ rfl (by simp)
    exact ⟨assigned, done, free.mpr (by decide), full (by decide) 5 (by decide)⟩
  · obtain ⟨assigned, _, done, _, _, _, _, _, free, _⟩ :=
      assignCodes_prefix_free_iff ⟨[1, 1, 1], [7, 7, 7]⟩ rfl (by simp)
    exact ⟨assigned, done, fun held => absurd (free.mp held) (by decide)⟩

end CodeTable

end CanonicalHuffman
