import CanonicalHuffman.Message
import Mathlib.Algebra.Ring.Nat

/-!
# Reading messages back

A reader compares the bits it has taken with every code. When no code begins another one, the
first code it meets is the one that was written, so a message is read back symbol by symbol.
-/

namespace CanonicalHuffman

namespace CodeTable

/-- A table whose codes a reader can tell apart. -/
structure Readable (table : CodeTable) : Prop where
  /-- There is one code per length. -/
  consistent : table.Consistent
  /-- Every code fits its length. -/
  code_lt : ∀ {symbol code length},
    table.code? symbol = .ok (some (code, length)) → code.toNat < 2 ^ length.toNat
  /-- A code that begins the code of a symbol is the code of that symbol. -/
  prefixFree : ∀ {symbol other code otherCode length otherLength},
    table.code? symbol = .ok (some (code, length)) →
    table.code? other = .ok (some (otherCode, otherLength)) →
    length.toNat ≤ otherLength.toNat → otherCode.toNat % 2 ^ length.toNat = code.toNat →
    symbol = other

variable {table : CodeTable}

/-- The bits of a symbol are those of its code. -/
theorem symbolBits?_eq_some {symbol : Nat} {code : UInt16} {length : UInt8}
    (found : table.code? symbol = .ok (some (code, length))) :
    table.symbolBits? symbol = some (toBits length.toNat code.toNat) := by
  rw [symbolBits?, found]

/-- Only a symbol that has a code has bits. -/
theorem exists_code?_of_symbolBits? {symbol : Nat} {bits : List Bool}
    (found : table.symbolBits? symbol = some bits) : ∃ code length,
      table.code? symbol = .ok (some (code, length)) ∧ bits = toBits length.toNat code.toNat := by
  unfold symbolBits? at found
  split at found
  · next code length coded => exact ⟨code, length, coded, (Option.some.inj found).symm⟩
  · contradiction

/-- A message can be written when all its symbols have codes. -/
theorem exists_write? {message : List Nat}
    (coded : ∀ symbol ∈ message, ∃ code length, table.code? symbol = .ok (some (code, length))) :
    ∃ bits, table.write? message = some bits := by
  induction message with
  | nil => exact ⟨[], rfl⟩
  | cons symbol rest ih =>
    rw [List.forall_mem_cons] at coded
    obtain ⟨code, length, found⟩ := coded.1
    obtain ⟨later, written⟩ := ih coded.2
    exact ⟨_, by rw [write?, symbolBits?_eq_some found, written]; rfl⟩

/-- A symbol that is found by a code has that code. -/
theorem code?_of_symbolOf? {length code symbol : Nat} (positive : length ≠ 0)
    (found : table.symbolOf? length code = some symbol) : ∃ ownCode ownLength,
      table.code? symbol = .ok (some (ownCode, ownLength)) ∧
        ownLength.toNat = length ∧ ownCode.toNat = code := by
  obtain ⟨inside, fits, _⟩ := List.findIdx?_eq_some_iff_getElem.mp found
  rw [List.length_zip] at inside
  rw [List.getElem_zip, decide_eq_true_eq] at fits
  refine ⟨_, _, code?_eq_ok_some_iff.mpr ⟨List.getElem?_eq_getElem (by omega), fun zero => ?_,
    List.getElem?_eq_getElem (by omega)⟩, fits⟩
  rw [zero] at fits
  exact positive fits.1.symm

/-- Taking one more bit of a number adds its place value. -/
theorem mod_two_pow_add_testBit (number width : Nat) :
    number % 2 ^ width + (number.testBit width).toNat * 2 ^ width = number % 2 ^ (width + 1) := by
  rw [Nat.mod_pow_succ, Nat.toNat_testBit, Nat.mul_comm]

namespace Readable

variable {symbol : Nat} {code : UInt16} {length : UInt8}

/-- The code of a symbol finds the symbol. -/
theorem symbolOf?_eq_some (readable : table.Readable)
    (found : table.code? symbol = .ok (some (code, length))) :
    table.symbolOf? length.toNat code.toNat = some symbol := by
  obtain ⟨atLength, positive, atCode⟩ := code?_eq_ok_some_iff.mp found
  have filled : length.toNat ≠ 0 := fun zero => positive (UInt8.toNat_inj.mp zero)
  cases met : table.symbolOf? length.toNat code.toNat with
  | none =>
    have paired : (length, code) ∈ table.lengths.zip table.codes := by
      refine List.mem_iff_getElem?.mpr ⟨symbol, ?_⟩
      rw [List.getElem?_zip_eq_some]
      exact ⟨atLength, atCode⟩
    have missed := List.findIdx?_eq_none_iff.mp met _ paired
    simp at missed
  | some first =>
    obtain ⟨ownCode, ownLength, own, sameLength, sameCode⟩ := code?_of_symbolOf? filled met
    have small := readable.code_lt found
    rw [readable.prefixFree own found (Nat.le_of_eq sameLength)
      (by rw [sameLength, sameCode, Nat.mod_eq_of_lt small])]

/-- The first bits of a code find no symbol as long as some are missing. -/
theorem symbolOf?_eq_none (readable : table.Readable)
    (found : table.code? symbol = .ok (some (code, length))) {taken : Nat} (positive : taken ≠ 0)
    (short : taken < length.toNat) : table.symbolOf? taken (code.toNat % 2 ^ taken) = none := by
  cases met : table.symbolOf? taken (code.toNat % 2 ^ taken) with
  | none => rfl
  | some first =>
    obtain ⟨ownCode, ownLength, own, sameLength, sameCode⟩ := code?_of_symbolOf? positive met
    have same := readable.prefixFree own found (by omega) (by rw [sameLength, sameCode])
    rw [same, found, Except.ok.injEq, Option.some.injEq, Prod.mk.injEq] at own
    rw [own.2] at short
    omega

/-- After the first bits of a code, a reader takes the other ones and stops there. -/
theorem readFrom?_append (readable : table.Readable)
    (found : table.code? symbol = .ok (some (code, length))) (rest : List Bool) {missing : Nat} :
    ∀ {taken : Nat}, taken + (missing + 1) = length.toNat →
      table.readFrom? taken (code.toNat % 2 ^ taken)
        (toBits (missing + 1) (code.toNat / 2 ^ taken) ++ rest) = some (symbol, rest) := by
  induction missing with
  | zero =>
    intro taken whole
    have last : code.toNat % 2 ^ taken + (code.toNat.testBit taken).toNat * 2 ^ taken =
        code.toNat := by
      rw [mod_two_pow_add_testBit, whole]
      exact Nat.mod_eq_of_lt (readable.code_lt found)
    rw [toBits_succ, toBits_zero, List.cons_append, readFrom?, Nat.testBit_div_two_pow,
      Nat.zero_add]
    simp only [last, whole, readable.symbolOf?_eq_some found]
    rfl
  | succ missing ih =>
    intro taken whole
    have later := @ih (taken + 1) (by omega)
    have missed := readable.symbolOf?_eq_none found (Nat.succ_ne_zero taken) (by omega)
    rw [toBits_succ, List.cons_append, readFrom?, Nat.testBit_div_two_pow, Nat.zero_add]
    simp only [mod_two_pow_add_testBit, missed]
    rwa [Nat.div_div_eq_div_mul, ← Nat.pow_succ]

/-- A symbol is read back from its bits, whatever follows them. -/
theorem read?_append (readable : table.Readable) {bits : List Bool}
    (written : table.symbolBits? symbol = some bits) (rest : List Bool) :
    table.read? (bits ++ rest) = some (symbol, rest) := by
  obtain ⟨code, length, found, rfl⟩ := exists_code?_of_symbolBits? written
  have positive := (code?_eq_ok_some_iff.mp found).2.1
  obtain ⟨missing, whole⟩ := Nat.exists_eq_succ_of_ne_zero fun zero : length.toNat = 0 =>
    positive (UInt8.toNat_inj.mp zero)
  have taken := readable.readFrom?_append found rest (show 0 + (missing + 1) = _ by omega)
  rw [Nat.pow_zero, Nat.mod_one, Nat.div_one, ← Nat.succ_eq_add_one, ← whole] at taken
  exact taken

/-- A message is read back from its bits. -/
theorem readAll?_of_write? (readable : table.Readable) {message : List Nat} {bits : List Bool}
    (written : table.write? message = some bits) : table.readAll? bits = some message := by
  induction message generalizing bits with
  | nil =>
    obtain rfl : [] = bits := Option.some.inj written
    rw [readAll?, if_pos rfl]
  | cons symbol rest ih =>
    obtain ⟨front, isFront, written⟩ := Option.bind_eq_some_iff.mp written
    obtain ⟨later, isLater, written⟩ := Option.bind_eq_some_iff.mp written
    obtain rfl : front ++ later = bits := Option.some.inj written
    have taken := readable.read?_append isFront later
    have filled : front ++ later ≠ [] := fun empty => by
      rw [empty] at taken
      contradiction
    rw [readAll?, if_neg filled]
    split
    · next missed =>
      rw [taken] at missed
      contradiction
    · next first after found =>
      rw [taken] at found
      obtain ⟨rfl, rfl⟩ := Prod.mk.inj (Option.some.inj found)
      rw [ih isLater]
      rfl

end Readable

end CodeTable

end CanonicalHuffman
