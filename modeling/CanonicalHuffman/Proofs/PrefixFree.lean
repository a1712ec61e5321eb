import CanonicalHuffman.Proofs.Canonical
import CanonicalHuffman.Proofs.Messages

/-!
# Canonical tables are readable

A table with canonical codes depends on its lengths alone. When the lengths leave room for one
another, the blocks of its codes lie side by side, so a reader can tell the codes apart.
-/

namespace CanonicalHuffman

namespace CodeLength

/-- The codes that were there before have no effect. -/
theorem assign_congr {next : Vector Nat 16} {lengths : List CodeLength}
    {previous other : List UInt16} (sizes : previous.length = lengths.length)
    (otherSizes : other.length = lengths.length) :
    assign next lengths previous = assign next lengths other := by
  induction lengths generalizing next previous other with
  | nil => rw [List.length_eq_zero_iff.mp sizes, List.length_eq_zero_iff.mp otherSizes]
  | cons length rest ih =>
    match previous, other, sizes, otherSizes with
    | _ :: previous, _ :: other, sizes, otherSizes =>
      have later :=
        fun next => @ih next previous other (Nat.succ.inj sizes) (Nat.succ.inj otherSizes)
      simp only [assign, later]

/-- Lengths that are not too long are within the format. -/
theorem exists_ofBytes {bytes : List UInt8}
    (within : ∀ length ∈ bytes, length.toNat ≤ maxCodeLength) :
    ∃ lengths, ofBytes bytes = .ok lengths := by
  induction bytes with
  | nil => exact ⟨[], rfl⟩
  | cons byte rest ih =>
    rw [List.forall_mem_cons] at within
    obtain ⟨lengths, read⟩ := ih within.2
    have small : byte.toNat < 16 := Nat.lt_succ_of_le within.1
    exact ⟨_, by rw [ofBytes, dif_pos small, read]; rfl⟩

/-- Every length stays where it was. -/
theorem getElem?_of_ofBytes {bytes : List UInt8} {lengths : List CodeLength}
    (read : ofBytes bytes = .ok lengths) {symbol : Nat} {byte : UInt8}
    (found : bytes[symbol]? = some byte) :
    ∃ length, lengths[symbol]? = some length ∧ length.val = byte.toNat := by
  have same := congrArg (·[symbol]?) (ofBytes_eq_ok_iff.mp read)
  simp only [List.getElem?_map, found, Option.map_some] at same
  exact Option.map_eq_some_iff.mp same.symm

end CodeLength

namespace CodeTable

variable {table assigned : CodeTable}

/-- What assigned codes are. -/
theorem assignCodes_eq_ok_iff : table.assignCodes = .ok assigned ↔
    ∃ lengths, CodeLength.ofBytes table.lengths = .ok lengths ∧ assigned =
      { table with
        codes := CodeLength.assign (CodeLength.firstCodes lengths) lengths table.codes } := by
  unfold assignCodes
  cases read : CodeLength.ofBytes table.lengths with
  | error fault => simp [bind, Except.bind]
  | ok lengths => simp [bind, Except.bind, pure, Except.pure, eq_comm]

/-- Codes are assigned to lengths that are not too long. -/
theorem exists_assignCodes (within : ∀ length ∈ table.lengths, length.toNat ≤ maxCodeLength) :
    ∃ assigned, table.assignCodes = .ok assigned := by
  obtain ⟨lengths, read⟩ := CodeLength.exists_ofBytes within
  exact ⟨_, assignCodes_eq_ok_iff.mpr ⟨lengths, read, rfl⟩⟩

/-- Assigning codes keeps the lengths. -/
theorem lengths_of_assignCodes (done : table.assignCodes = .ok assigned) :
    assigned.lengths = table.lengths := by
  obtain ⟨lengths, _, rfl⟩ := assignCodes_eq_ok_iff.mp done
  rfl

/-- Assigning codes keeps a table consistent. -/
theorem Consistent.assignCodes (consistent : table.Consistent)
    (done : table.assignCodes = .ok assigned) : assigned.Consistent := by
  obtain ⟨lengths, _, rfl⟩ := assignCodes_eq_ok_iff.mp done
  exact (CodeLength.length_assign ..).trans consistent

/-- Assigned codes depend on the lengths alone. -/
theorem assignCodes_congr {other : CodeTable} (consistent : table.Consistent)
    (otherConsistent : other.Consistent) (same : table.lengths = other.lengths) :
    table.assignCodes = other.assignCodes := by
  obtain ⟨lengths, codes⟩ := table
  obtain ⟨_, otherCodes⟩ := other
  obtain rfl := same
  unfold CodeTable.assignCodes
  cases read : CodeLength.ofBytes lengths with
  | error fault => rfl
  | ok read' =>
    have sizes := congrArg List.length (CodeLength.ofBytes_eq_ok_iff.mp read)
    rw [List.length_map, List.length_map] at sizes
    have codesSame := @CodeLength.assign_congr (CodeLength.firstCodes read') read' _ _
      (consistent.trans sizes) (otherConsistent.trans sizes)
    simp only [bind, Except.bind, codesSame]

/-- The lengths of an assigned table decide the table. -/
theorem ofLengths?_of_assignCodes (consistent : table.Consistent)
    (done : table.assignCodes = .ok assigned) : ofLengths? assigned.lengths = some assigned := by
  have blank : Consistent ⟨table.lengths, List.replicate table.lengths.length 0⟩ :=
    List.length_replicate
  rw [lengths_of_assignCodes done, ofLengths?, assignCodes_congr blank consistent rfl, done]
  rfl

/-- An assigned code is the reversed canonical one. -/
theorem code?_of_assignCodes {lengths : List CodeLength} (consistent : table.Consistent)
    (read : CodeLength.ofBytes table.lengths = .ok lengths)
    (done : table.assignCodes = .ok assigned) {symbol : Nat} {code : UInt16} {length : UInt8}
    (found : assigned.code? symbol = .ok (some (code, length))) :
    ∃ own : CodeLength, lengths[symbol]? = some own ∧ own ≠ 0 ∧ length.toNat = own.val ∧
      code.toNat = reverseBits own (CodeLength.canonicalCode lengths symbol own) := by
  obtain ⟨_, again, rfl⟩ := assignCodes_eq_ok_iff.mp done
  obtain rfl := Except.ok.inj (read.symm.trans again)
  obtain ⟨atLength, positive, atCode⟩ := code?_eq_ok_some_iff.mp found
  obtain ⟨own, atOwn, same⟩ := CodeLength.getElem?_of_ofBytes read atLength
  obtain ⟨inside, _⟩ := List.getElem?_eq_some_iff.mp atLength
  have filled : own ≠ 0 := fun zero => positive (UInt8.toNat_inj.mp (by rw [← same, zero]; rfl))
  have within : symbol < table.codes.length := by
    rw [consistent]
    exact inside
  obtain ⟨stored, atStored, reversed⟩ := CodeLength.exists_assign_firstCodes atOwn within filled
  rw [atCode, Option.some.injEq] at atStored
  subst atStored
  exact ⟨own, atOwn, filled, same.symm, reversed⟩

/-- An assigned table is readable when its lengths leave room for one another. -/
theorem readable_of_assignCodes (consistent : table.Consistent)
    (done : table.assignCodes = .ok assigned)
    (kraft : kraftSum maxCodeLength table.lengths ≤ 2 ^ maxCodeLength) : assigned.Readable := by
  obtain ⟨lengths, read, _⟩ := assignCodes_eq_ok_iff.mp done
  have fits : CodeLength.shareBelow lengths 16 ≤ 2 ^ maxCodeLength := by
    rwa [CodeLength.shareBelow_of_bytes (CodeLength.ofBytes_eq_ok_iff.mp read)]
  refine ⟨consistent.assignCodes done, ?_, ?_⟩
  · intro symbol code length found
    obtain ⟨own, atOwn, _, sameLength, sameCode⟩ := code?_of_assignCodes consistent read done found
    rw [sameLength, sameCode]
    exact reverseBits_lt (Nat.le_of_lt_succ own.isLt) _
  · intro symbol other code otherCode length otherLength found otherFound ordered begins
    obtain ⟨own, atOwn, filled, sameLength, sameCode⟩ :=
      code?_of_assignCodes consistent read done found
    obtain ⟨otherOwn, atOther, otherFilled, otherSameLength, otherSameCode⟩ :=
      code?_of_assignCodes consistent read done otherFound
    rw [sameLength, otherSameLength] at ordered
    rw [sameLength, sameCode, otherSameCode] at begins
    exact CodeLength.eq_of_canonicalCode_begins atOwn atOther filled otherFilled ordered
      (eq_div_of_reverseBits ordered (Nat.le_of_lt_succ otherOwn.isLt)
        (CodeLength.canonicalCode_lt_two_pow fits atOwn filled)
        (CodeLength.canonicalCode_lt_two_pow fits atOther otherFilled) begins)

end CodeTable

end CanonicalHuffman
