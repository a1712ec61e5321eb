import CanonicalHuffman.Proofs.PrefixFree

/-!
# Canonical codes in closed form

Put the used symbols in the order of their lengths and, among equal lengths, in symbol order. Then
the canonical code of a symbol, in units of the longest codes, is the sum of the shares of all
symbols before it. The counters that codes are taken from stay within the width of their lengths
while codes are assigned, so nothing is cut off from a code when it is reversed and stored.
-/

namespace CanonicalHuffman

/-- Whether a symbol, given with its length in front, has a code and comes before another symbol of
the given length. -/
def comesBefore (symbol length : Nat) (entry : Nat × Nat) : Bool :=
  entry.1 ≠ 0 ∧ (entry.1 < length ∨ (entry.1 = length ∧ entry.2 < symbol))

/-- The sum of the shares of all symbols before a symbol of the given length, in units of the
longest codes. -/
def shareBefore (lengths : List Nat) (symbol length : Nat) : Nat :=
  ((lengths.zipIdx.filter (comesBefore symbol length)).map fun entry =>
    2 ^ (maxCodeLength - entry.1)).sum

namespace CodeLength

variable {lengths : List CodeLength}

/-- Count on the next code of a length. Symbols without a code take none. -/
def advance (next : Vector Nat 16) (length : CodeLength) : Vector Nat 16 :=
  if length.val = 0 then next else next.setIfInBounds length (next.get length + 1)

/-- The next code of every length after the first `passed` symbols. -/
def nextCodes (lengths : List CodeLength) (passed : Nat) : Vector Nat 16 :=
  (lengths.take passed).foldl advance (firstCodes lengths)

/-- Behind the first symbols, codes are assigned from the next codes that these symbols leave. -/
theorem drop_assign (next : Vector Nat 16) (lengths : List CodeLength) (previous : List UInt16)
    (passed : Nat) : (assign next lengths previous).drop passed =
      assign ((lengths.take passed).foldl advance next) (lengths.drop passed)
        (previous.drop passed) := by
  induction passed generalizing next lengths previous with
  | zero => rfl
  | succ passed ih =>
    cases lengths with
    | nil => rfl
    | cons length rest =>
      cases previous with
      | nil => cases later : rest.drop passed <;> simp [assign, later]
      | cons old previous =>
        rw [List.take_succ_cons, List.foldl_cons, List.drop_succ_cons, List.drop_succ_cons, ← ih,
          assign]
        by_cases blank : length = 0
        · have zero : length.val = 0 := congrArg Fin.val blank
          rw [if_pos blank, advance, if_pos zero, List.drop_succ_cons]
        · have filled : length.val ≠ 0 := fun zero => blank (Fin.ext zero)
          have counted : next.set length (next[length] + 1) =
              next.setIfInBounds length (next.get length + 1) := by
            ext index inside
            rw [Vector.getElem_set, Vector.getElem_setIfInBounds]
            rfl
          rw [if_neg blank, advance, if_neg filled, List.drop_succ_cons, counted]

/-- A symbol changes the next code of its own length only. -/
theorem get_advance (next : Vector Nat 16) (first length : CodeLength) :
    (advance next first).get length =
      next.get length + if first.val = length.val ∧ length.val ≠ 0 then 1 else 0 := by
  have index : ∀ values : Vector Nat 16, values.get length = values[length.val] := fun _ => rfl
  rw [advance]
  by_cases blank : first.val = 0
  · rw [if_pos blank, if_neg fun both => both.2 (both.1.symm.trans blank), Nat.add_zero]
  · rw [if_neg blank, index, Vector.getElem_setIfInBounds, ← index]
    by_cases same : first.val = length.val
    · obtain rfl := Fin.ext same
      rw [if_pos rfl, if_pos ⟨rfl, blank⟩]
    · rw [if_neg same, if_neg fun both => same both.1, Nat.add_zero]

/-- Every symbol of a length counts its next code on by one. -/
theorem get_foldl_advance (next : Vector Nat 16) (front : List CodeLength) (length : CodeLength) :
    (front.foldl advance next).get length = next.get length + classSize front length := by
  induction front generalizing next with
  | nil => simp [classSize]
  | cons first rest ih =>
    rw [List.foldl_cons, ih, get_advance]
    by_cases zero : length.val = 0
    · rw [if_neg fun both => both.2 zero, classSize, classSize, if_pos zero, if_pos zero]
    · rw [classSize_cons first rest zero, Nat.add_assoc]
      simp only [zero, ne_eq, not_false_eq_true, and_true]

/-- The next code of a length is its first code, and one more for every symbol of the length. -/
theorem get_nextCodes (lengths : List CodeLength) (passed : Nat) (length : CodeLength) :
    (nextCodes lengths passed).get length =
      firstCode lengths length + classSize (lengths.take passed) length := by
  have first : (firstCodes lengths).get length = firstCode lengths length := by
    simp [firstCodes, Vector.get]
    rfl
  rw [nextCodes, get_foldl_advance, first]

/-- The next code of a length is the canonical code of a symbol of that length. -/
theorem getElem?_nextCodes (passed : Nat) {length : CodeLength} (positive : length ≠ 0) :
    (nextCodes lengths passed)[length.val]? = some (canonicalCode lengths passed length) := by
  have filled : length.val ≠ 0 := fun zero => positive (Fin.ext zero)
  have counted := get_nextCodes lengths passed length
  rw [classSize, if_neg filled, ← canonicalCode] at counted
  rw [Vector.getElem?_eq_getElem length.isLt]
  exact congrArg some counted

/-- The codes of a length fit the length when the shares of all lengths fit the space. -/
theorem firstCode_add_classSize_le (fits : shareBelow lengths 16 ≤ 2 ^ maxCodeLength)
    (length : CodeLength) :
    firstCode lengths length + classSize lengths length ≤ 2 ^ length.val := by
  have short : length.val ≤ maxCodeLength := Nat.le_of_lt_succ length.isLt
  have below : shareBelow lengths (length + 1) ≤ 2 ^ maxCodeLength :=
    Nat.le_trans (shareBelow_mono length.isLt) fits
  have space : 2 ^ maxCodeLength = 2 ^ length.val * 2 ^ (maxCodeLength - length.val) := by
    rw [← Nat.pow_add]
    congr 1
    omega
  rw [shareBelow_succ, ← firstCode_mul short, ← Nat.add_mul, space] at below
  exact Nat.le_of_mul_le_mul_right below (Nat.two_pow_pos _)

/-- No counter leaves the width of its length. -/
theorem get_nextCodes_le (fits : shareBelow lengths 16 ≤ 2 ^ maxCodeLength) (passed : Nat)
    (length : CodeLength) : (nextCodes lengths passed).get length ≤ 2 ^ length.val := by
  have few : classSize (lengths.take passed) length ≤ classSize lengths length := by
    unfold classSize
    split
    · exact Nat.le_refl _
    · exact (List.take_sublist ..).countP_le
  have whole := firstCode_add_classSize_le fits length
  rw [get_nextCodes]
  omega

/-- The symbols up to a position, counted from the one at `start` on. -/
theorem countP_take_sub_cons (first : CodeLength) (rest : List CodeLength) (symbol start : Nat)
    (counts : CodeLength → Bool) : ((first :: rest).take (symbol - start)).countP counts =
      (if start < symbol ∧ counts first then 1 else 0) +
        (rest.take (symbol - (start + 1))).countP counts := by
  by_cases ahead : start < symbol
  · have next : symbol - start = symbol - (start + 1) + 1 := by omega
    rw [next, List.take_succ_cons, List.countP_cons, Nat.add_comm]
    simp [ahead]
  · have before : symbol - start = 0 := by omega
    have beforeNext : symbol - (start + 1) = 0 := by omega
    rw [before, beforeNext, if_neg fun both => ahead both.1]
    rfl

/-- The shares before a symbol, counted from the symbol at `start` on, are those of all lower
lengths and those of the same length before it. -/
theorem sum_comesBefore (rest : List CodeLength) (symbol start : Nat) {length : CodeLength}
    (positive : length ≠ 0) :
    ((((rest.map Fin.val).zipIdx start).filter (comesBefore symbol length)).map fun entry =>
      2 ^ (maxCodeLength - entry.1)).sum = shareBelow rest length.val +
        (rest.take (symbol - start)).countP (·.val = length.val) *
          2 ^ (maxCodeLength - length.val) := by
  have filled : length.val ≠ 0 := fun zero => positive (Fin.ext zero)
  induction rest generalizing start with
  | nil => simp [shareBelow]
  | cons first rest ih =>
    have later := ih (start + 1)
    rw [List.map_cons, List.zipIdx_cons, List.filter_cons, shareBelow_cons, countP_take_sub_cons,
      Nat.add_mul]
    rcases Nat.lt_trichotomy first.val length.val with below | same | above
    · have other : first.val ≠ length.val := Nat.ne_of_lt below
      by_cases blank : first.val = 0
      · simp [comesBefore, blank, filled.symm, share, later]
      · simp [comesBefore, blank, below, other, share, later]
        omega
    · by_cases ahead : start < symbol
      · simp [comesBefore, same, filled, ahead, later]
        omega
      · simp [comesBefore, same, ahead, later]
    · have other : first.val ≠ length.val := Nat.ne_of_gt above
      have notBelow : ¬ first.val < length.val := Nat.not_lt_of_gt above
      simp [comesBefore, other, notBelow, later]

/-- A canonical code, in units of the longest codes, is the sum of the shares before its symbol. -/
theorem canonicalCode_mul (lengths : List CodeLength) (symbol : Nat) {length : CodeLength}
    (positive : length ≠ 0) :
    canonicalCode lengths symbol length * 2 ^ (maxCodeLength - length.val) =
      shareBefore (lengths.map Fin.val) symbol length := by
  rw [shareBefore, sum_comesBefore lengths symbol 0 positive, canonicalCode, Nat.add_mul,
    firstCode_mul (Nat.le_of_lt_succ length.isLt), Nat.sub_zero]

/-- A symbol without a code gets code zero. -/
theorem getElem?_assign_of_blank {next : Vector Nat 16} {previous : List UInt16} {symbol : Nat}
    (found : lengths[symbol]? = some 0) (inside : symbol < previous.length) :
    (assign next lengths previous)[symbol]? = some 0 := by
  induction lengths generalizing next previous symbol with
  | nil => contradiction
  | cons first rest ih =>
    match previous, inside with
    | old :: previous, inside =>
      cases symbol with
      | zero =>
        obtain rfl : first = 0 := by simpa using found
        simp [assign]
      | succ symbol =>
        have later := fun next => @ih next previous symbol (by simpa using found)
          (Nat.lt_of_succ_lt_succ inside)
        rw [assign]
        split <;> simp only [List.getElem?_cons_succ, later]

/-- Codes past the last length stay as they were. -/
theorem getElem?_assign_of_le {next : Vector Nat 16} {previous : List UInt16} {symbol : Nat}
    (past : lengths.length ≤ symbol) :
    (assign next lengths previous)[symbol]? = previous[symbol]? := by
  obtain ⟨further, rfl⟩ := Nat.exists_eq_add_of_le past
  rw [← List.getElem?_drop, drop_assign, List.drop_length, ← List.getElem?_drop]
  rfl

end CodeLength

namespace CodeTable

/-- Codes are assigned to lengths that leave room for one another, however many codes there were
before. The code of a used symbol, read from its most significant bit on and scaled to the longest
codes, is the sum of the shares of all symbols before it. Symbols of length zero get code zero, and
codes past the last length stay. No counter leaves 32 bits, and a code is counted, reversed and
stored within the bits of its length. -/
theorem assignCodes_closed_form (table : CodeTable) (few : table.lengths.length < 2 ^ 32)
    (short : ∀ length ∈ table.lengths, length.toNat ≤ 15)
    (kraft : kraftSum 15 table.lengths ≤ 2 ^ 15) :
    ∃ assigned lengths, table.assignCodes = .ok assigned ∧
      CodeLength.ofBytes table.lengths = .ok lengths ∧
      assigned.lengths = table.lengths ∧ assigned.codes.length = table.codes.length ∧
      (∀ (symbol : Nat) (length : UInt8), symbol < table.codes.length →
        table.lengths[symbol]? = some length → length ≠ 0 → ∃ code canonical,
          assigned.codes[symbol]? = some code ∧
          mirrored length.toNat code.toNat * 2 ^ (15 - length.toNat) =
            shareBefore (table.lengths.map UInt8.toNat) symbol length.toNat ∧
          (CodeLength.nextCodes lengths symbol)[length.toNat]? = some canonical ∧
          canonical < 2 ^ length.toNat ∧ code.toNat = reverseBits length.toNat canonical ∧
          mirrored length.toNat code.toNat = canonical) ∧
      (∀ symbol < table.codes.length, table.lengths[symbol]? = some 0 →
        assigned.codes[symbol]? = some 0) ∧
      (∀ symbol, table.lengths.length ≤ symbol →
        assigned.codes[symbol]? = table.codes[symbol]?) ∧
      (∀ length : CodeLength, lengths.countP (· = length) < 2 ^ 32 ∧
        2 * (CodeLength.firstCode lengths length + CodeLength.classSize lengths length) < 2 ^ 32) ∧
      ∀ passed, assigned.codes.drop passed = CodeLength.assign (CodeLength.nextCodes lengths passed)
          (lengths.drop passed) (table.codes.drop passed) ∧
        ∀ next ∈ CodeLength.nextCodes lengths passed, next < 2 ^ 32 := by
  obtain ⟨lengths, read⟩ := CodeLength.exists_ofBytes short
  have same := CodeLength.ofBytes_eq_ok_iff.mp read
  have size : lengths.length = table.lengths.length := by
    simpa using (congrArg List.length same).symm
  have fits : CodeLength.shareBelow lengths 16 ≤ 2 ^ maxCodeLength := by
    rwa [CodeLength.shareBelow_of_bytes same]
  have narrow : ∀ length : CodeLength, 2 ^ length.val ≤ 2 ^ 15 := fun length =>
    Nat.pow_le_pow_right (by decide) (Nat.le_of_lt_succ length.isLt)
  refine ⟨_, lengths, assignCodes_eq_ok_iff.mpr ⟨lengths, read, rfl⟩, read, rfl,
    CodeLength.length_assign .., ?_, ?_, ?_, ?_, ?_⟩
  · intro symbol length inside found used
    obtain ⟨own, atOwn, equal⟩ := CodeLength.getElem?_of_ofBytes read found
    have positive : own ≠ 0 := fun zero => used (UInt8.toNat_inj.mp (by rw [← equal, zero]; rfl))
    obtain ⟨code, atCode, reversed⟩ := CodeLength.exists_assign_firstCodes atOwn inside positive
    have canonical := CodeLength.canonicalCode_lt_two_pow fits atOwn positive
    have read : mirrored own.val code.toNat = CodeLength.canonicalCode lengths symbol own := by
      rw [reversed, reverseBits_eq_mirrored (Nat.le_of_lt_succ own.isLt), mirrored_mirrored,
        Nat.mod_eq_of_lt canonical]
    rw [← equal, same]
    refine ⟨code, _, atCode, ?_, CodeLength.getElem?_nextCodes symbol positive, canonical, reversed,
      read⟩
    rw [read]
    exact CodeLength.canonicalCode_mul lengths symbol positive
  · intro symbol inside found
    obtain ⟨own, atOwn, equal⟩ := CodeLength.getElem?_of_ofBytes read found
    obtain rfl : own = 0 := Fin.ext equal
    exact CodeLength.getElem?_assign_of_blank atOwn inside
  · intro symbol past
    exact CodeLength.getElem?_assign_of_le (Nat.le_trans (Nat.le_of_eq size) past)
  · intro length
    have count := List.countP_le_length (p := (· = length)) (l := lengths)
    have whole := CodeLength.firstCode_add_classSize_le fits length
    have bound := narrow length
    omega
  · intro passed
    refine ⟨CodeLength.drop_assign .., fun next member => ?_⟩
    obtain ⟨length, inside, rfl⟩ := Vector.mem_iff_getElem.mp member
    have bound := CodeLength.get_nextCodes_le fits passed ⟨length, inside⟩
    have small := narrow ⟨length, inside⟩
    exact Nat.lt_of_le_of_lt (Nat.le_trans bound small) (by decide)

/-- Lengths that leave space free, before more codes than lengths. -/
theorem assignCodes_closed_form_of_two_symbols :
    ∃ assigned code, assignCodes ⟨[3, 0, 1], [7, 7, 7, 7]⟩ = .ok assigned ∧
      assigned.codes[0]? = some code ∧ mirrored 3 code.toNat * 2 ^ 12 = 2 ^ 14 ∧
      assigned.codes[1]? = some 0 ∧ assigned.codes[3]? = some 7 := by
  obtain ⟨assigned, _, done, _, _, _, used, blank, past, _⟩ := assignCodes_closed_form
    ⟨[3, 0, 1], [7, 7, 7, 7]⟩ (by decide) (by simp) (by decide)
  obtain ⟨code, _, atCode, scaled, _⟩ := used 0 3 (by decide) rfl (by decide)
  exact ⟨assigned, code, done, atCode, scaled, blank 1 (by decide) rfl, past 3 (by decide)⟩

end CodeTable

end CanonicalHuffman
