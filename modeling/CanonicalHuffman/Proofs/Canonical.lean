import CanonicalHuffman.CodeTable.Canonical
import CanonicalHuffman.CodeTable.Kraft
import CanonicalHuffman.Proofs.Reversal
import Mathlib.Data.Nat.Init

/-!
# The layout of canonical codes

A code of some length stands for the block of longest codes that it begins. Canonical codes lay
these blocks side by side, shorter lengths first and, within a length, in symbol order. The blocks
do not overlap, so no code begins another one, and they fit the space when the Kraft sum does.
-/

namespace CanonicalHuffman

namespace CodeLength

variable {lengths : List CodeLength}

/-- The share of a length in the space of the longest codes. -/
def share (length : CodeLength) : Nat :=
  if length.val = 0 then 0 else 2 ^ (maxCodeLength - length.val)

/-- The shares of all lengths below the given one. -/
def shareBelow (lengths : List CodeLength) (length : Nat) : Nat :=
  ((lengths.filter (·.val < length)).map share).sum

/-- A length in front adds its share when it is below the bound. -/
theorem shareBelow_cons (first : CodeLength) (rest : List CodeLength) (bound : Nat) :
    shareBelow (first :: rest) bound =
      (if first.val < bound then share first else 0) + shareBelow rest bound := by
  by_cases below : first.val < bound <;> simp [shareBelow, below]

/-- A length in front adds one code to its own class. -/
theorem classSize_cons (first : CodeLength) (rest : List CodeLength) {length : Nat}
    (positive : length ≠ 0) : classSize (first :: rest) length =
      (if first.val = length then 1 else 0) + classSize rest length := by
  by_cases same : first.val = length <;> simp [classSize, positive, same, Nat.add_comm]

/-- No length is below zero. -/
theorem shareBelow_zero (lengths : List CodeLength) : shareBelow lengths 0 = 0 := by
  rw [shareBelow, List.filter_eq_nil_iff.mpr (by simp)]
  rfl

/-- Symbols without a code have no share. -/
theorem shareBelow_one (lengths : List CodeLength) : shareBelow lengths 1 = 0 := by
  induction lengths with
  | nil => rfl
  | cons first rest ih =>
    rw [shareBelow_cons, ih, share]
    split
    · next blank => rw [if_pos (Nat.lt_one_iff.mp blank)]
    · rfl

/-- The codes of one length take their shares. -/
theorem shareBelow_succ (lengths : List CodeLength) (length : Nat) :
    shareBelow lengths (length + 1) =
      shareBelow lengths length + classSize lengths length * 2 ^ (maxCodeLength - length) := by
  by_cases zero : length = 0
  · subst zero
    rw [shareBelow_one, shareBelow_zero, classSize, if_pos rfl, Nat.zero_mul]
  · induction lengths with
    | nil => simp [shareBelow, classSize]
    | cons first rest ih =>
      rw [shareBelow_cons, shareBelow_cons, classSize_cons first rest zero, ih, Nat.add_mul]
      rcases Nat.lt_trichotomy first.val length with below | same | above
      · rw [if_pos (by omega), if_pos below, if_neg (by omega)]
        omega
      · rw [if_pos (by omega), if_neg (by omega), if_pos same, share, if_neg (by omega), same]
        omega
      · rw [if_neg (by omega), if_neg (by omega), if_neg (by omega)]
        omega

/-- Longer lengths have more shares below them. -/
theorem shareBelow_mono {shorter longer : Nat} (ordered : shorter ≤ longer) :
    shareBelow lengths shorter ≤ shareBelow lengths longer := by
  induction longer, ordered using Nat.le_induction with
  | base => exact Nat.le_refl _
  | succ longer _ ih =>
    rw [shareBelow_succ]
    omega

/-- The first code of a length follows on the shares of all lengths below it. -/
theorem firstCode_mul {length : Nat} (short : length ≤ maxCodeLength) :
    firstCode lengths length * 2 ^ (maxCodeLength - length) = shareBelow lengths length := by
  induction length with
  | zero => rw [firstCode, Nat.zero_mul, shareBelow_zero]
  | succ length ih =>
    have wider : maxCodeLength - length = maxCodeLength - (length + 1) + 1 := by omega
    rw [shareBelow_succ, ← ih (by omega), firstCode, wider, Nat.pow_succ]
    simp only [Nat.add_mul, Nat.mul_add]
    rw [Nat.mul_comm 2, Nat.mul_comm 2]
    simp only [Nat.mul_assoc, Nat.mul_comm, Nat.mul_left_comm]

/-- The shares below a length that is too long are those of all lengths. -/
theorem shareBelow_of_bytes {bytes : List UInt8}
    (same : bytes.map UInt8.toNat = lengths.map Fin.val) :
    shareBelow lengths 16 = kraftSum maxCodeLength bytes := by
  induction bytes generalizing lengths with
  | nil => cases lengths <;> simp_all [shareBelow]
  | cons byte rest ih =>
    cases lengths with
    | nil => contradiction
    | cons length lengths =>
      simp only [List.map_cons, List.cons.injEq] at same
      have shares : share length = kraftShare maxCodeLength byte := by
        have zero : byte = 0 ↔ length.val = 0 := by
          rw [← UInt8.toNat_inj, same.1]
          rfl
        simp only [share, kraftShare, zero, same.1]
      have small := length.isLt
      have split : shareBelow (length :: lengths) 16 = share length + shareBelow lengths 16 := by
        simp [shareBelow]
      rw [split, kraftSum_cons, shares, ih same.2]

/-- The code of a symbol before it is reversed: the first code of its length, and one more for
every symbol of that length before it. -/
def canonicalCode (lengths : List CodeLength) (symbol length : Nat) : Nat :=
  firstCode lengths length + (lengths.take symbol).countP (·.val = length)

/-- A symbol is not counted before itself, so its number is below the size of its class. -/
theorem countP_take_lt {symbol : Nat} {length : CodeLength} (found : lengths[symbol]? = some length)
    (positive : length ≠ 0) :
    (lengths.take symbol).countP (·.val = length.val) < classSize lengths length := by
  obtain ⟨inside, rfl⟩ := List.getElem?_eq_some_iff.mp found
  have filled : lengths[symbol].val ≠ 0 := fun zero => positive (Fin.ext zero)
  have next : (lengths.take (symbol + 1)).countP (·.val = lengths[symbol].val) =
      (lengths.take symbol).countP (·.val = lengths[symbol].val) + 1 := by
    rw [List.take_succ_eq_append_getElem inside, List.countP_append]
    simp
  have whole : (lengths.take (symbol + 1)).countP (·.val = lengths[symbol].val) ≤
      lengths.countP (·.val = lengths[symbol].val) :=
    (List.take_sublist ..).countP_le
  rw [classSize, if_neg filled]
  omega

/-- The block of a code ends before the shares of longer lengths begin. -/
theorem canonicalCode_succ_mul_le {symbol : Nat} {length : CodeLength}
    (found : lengths[symbol]? = some length) (positive : length ≠ 0) :
    (canonicalCode lengths symbol length + 1) * 2 ^ (maxCodeLength - length.val) ≤
      shareBelow lengths (length.val + 1) := by
  have short : length.val ≤ maxCodeLength := Nat.le_of_lt_succ length.isLt
  have counted := countP_take_lt found positive
  rw [shareBelow_succ, ← firstCode_mul short, ← Nat.add_mul, canonicalCode]
  exact Nat.mul_le_mul_right _ (by omega)

/-- The block of a code begins after the shares of shorter lengths. -/
theorem shareBelow_le_canonicalCode_mul (symbol : Nat) (length : CodeLength) :
    shareBelow lengths length.val ≤
      canonicalCode lengths symbol length * 2 ^ (maxCodeLength - length.val) := by
  rw [← firstCode_mul (Nat.le_of_lt_succ length.isLt), canonicalCode]
  exact Nat.mul_le_mul_right _ (Nat.le_add_right ..)

/-- Codes of one length are numbered in symbol order. -/
theorem canonicalCode_lt {symbol later : Nat} {length : CodeLength}
    (found : lengths[symbol]? = some length) (ordered : symbol < later) :
    canonicalCode lengths symbol length < canonicalCode lengths later length := by
  obtain ⟨inside, rfl⟩ := List.getElem?_eq_some_iff.mp found
  have next : (lengths.take (symbol + 1)).countP (·.val = lengths[symbol].val) =
      (lengths.take symbol).countP (·.val = lengths[symbol].val) + 1 := by
    rw [List.take_succ_eq_append_getElem inside, List.countP_append]
    simp
  have more : (lengths.take (symbol + 1)).countP (·.val = lengths[symbol].val) ≤
      (lengths.take later).countP (·.val = lengths[symbol].val) :=
    (List.take_sublist_take_left ordered).countP_le
  rw [canonicalCode, canonicalCode]
  omega

/-- The blocks of two codes do not overlap: the shorter code, or of equal ones the one of the
earlier symbol, comes first. -/
theorem canonicalCode_separate {first second : Nat} {firstLength secondLength : CodeLength}
    (atFirst : lengths[first]? = some firstLength) (positive : firstLength ≠ 0)
    (ordered : firstLength < secondLength ∨ firstLength = secondLength ∧ first < second) :
    (canonicalCode lengths first firstLength + 1) * 2 ^ (maxCodeLength - firstLength.val) ≤
      canonicalCode lengths second secondLength * 2 ^ (maxCodeLength - secondLength.val) := by
  rcases ordered with shorter | ⟨rfl, earlier⟩
  · calc
      (canonicalCode lengths first firstLength + 1) * 2 ^ (maxCodeLength - firstLength.val) ≤
          shareBelow lengths (firstLength.val + 1) := canonicalCode_succ_mul_le atFirst positive
      _ ≤ shareBelow lengths secondLength.val := shareBelow_mono shorter
      _ ≤ canonicalCode lengths second secondLength * 2 ^ (maxCodeLength - secondLength.val) :=
        shareBelow_le_canonicalCode_mul second secondLength
  · exact Nat.mul_le_mul_right _ (canonicalCode_lt atFirst earlier)

/-- A code fits its length when the shares of all lengths fit the space. -/
theorem canonicalCode_lt_two_pow (fits : shareBelow lengths 16 ≤ 2 ^ maxCodeLength) {symbol : Nat}
    {length : CodeLength} (found : lengths[symbol]? = some length) (positive : length ≠ 0) :
    canonicalCode lengths symbol length < 2 ^ length.val := by
  have short : length.val ≤ maxCodeLength := Nat.le_of_lt_succ length.isLt
  have block := Nat.le_trans (canonicalCode_succ_mul_le found positive)
    (Nat.le_trans (shareBelow_mono length.isLt) fits)
  have space : 2 ^ maxCodeLength = 2 ^ length.val * 2 ^ (maxCodeLength - length.val) := by
    rw [← Nat.pow_add]
    congr 1
    omega
  rw [space] at block
  exact Nat.le_of_mul_le_mul_right block (Nat.two_pow_pos _)

/-- A canonical code that holds the most significant bits of another one is that other one. -/
theorem eq_of_canonicalCode_begins {first second : Nat} {firstLength secondLength : CodeLength}
    (atFirst : lengths[first]? = some firstLength) (atSecond : lengths[second]? = some secondLength)
    (firstFilled : firstLength ≠ 0) (secondFilled : secondLength ≠ 0)
    (ordered : firstLength ≤ secondLength)
    (begins : canonicalCode lengths first firstLength =
      canonicalCode lengths second secondLength / 2 ^ (secondLength.val - firstLength.val)) :
    first = second := by
  have narrower : firstLength.val ≤ secondLength.val := ordered
  have short : secondLength.val ≤ maxCodeLength := Nat.le_of_lt_succ secondLength.isLt
  have unit : 2 ^ (maxCodeLength - firstLength.val) =
      2 ^ (secondLength.val - firstLength.val) * 2 ^ (maxCodeLength - secondLength.val) := by
    rw [← Nat.pow_add]
    congr 1
    omega
  -- the block of the second code lies inside that of the first one
  have lower : canonicalCode lengths first firstLength * 2 ^ (maxCodeLength - firstLength.val) ≤
      canonicalCode lengths second secondLength * 2 ^ (maxCodeLength - secondLength.val) := by
    rw [unit, ← Nat.mul_assoc, begins]
    exact Nat.mul_le_mul_right _ (Nat.div_mul_le_self ..)
  have upper : canonicalCode lengths second secondLength * 2 ^ (maxCodeLength - secondLength.val) <
      (canonicalCode lengths first firstLength + 1) * 2 ^ (maxCodeLength - firstLength.val) := by
    rw [unit, ← Nat.mul_assoc, begins]
    exact Nat.mul_lt_mul_of_pos_right (Nat.lt_mul_of_div_lt (Nat.lt_succ_self _)
      (Nat.two_pow_pos _)) (Nat.two_pow_pos _)
  rcases Nat.lt_or_eq_of_le narrower with shorter | same
  · have apart :=
      @canonicalCode_separate lengths first second _ _ atFirst firstFilled (.inl shorter)
    omega
  · obtain rfl : firstLength = secondLength := Fin.ext same
    rcases Nat.lt_trichotomy first second with before | same | behind
    · have apart := canonicalCode_separate atFirst firstFilled (.inr ⟨rfl, before⟩)
      omega
    · exact same
    · have apart := canonicalCode_separate atSecond secondFilled (.inr ⟨rfl, behind⟩)
      rw [Nat.add_mul] at apart
      have room := Nat.two_pow_pos (maxCodeLength - firstLength.val)
      omega

/-- Assigned codes are the reversed canonical ones, where `next` counts on from the first codes. -/
theorem getElem?_assign {next : Vector Nat 16} {previous : List UInt16} {symbol : Nat}
    {length : CodeLength} (found : lengths[symbol]? = some length)
    (inside : symbol < previous.length) (positive : length ≠ 0) :
    (assign next lengths previous)[symbol]? = some (reverseBits length
      (next[length] + (lengths.take symbol).countP (·.val = length.val))).toUInt16 := by
  induction lengths generalizing next previous symbol with
  | nil => contradiction
  | cons first rest ih =>
    match previous, inside with
    | old :: previous, inside =>
      cases symbol with
      | zero =>
        obtain rfl : first = length := by simpa using found
        simp [assign, positive]
      | succ symbol =>
        have later := Nat.lt_of_succ_lt_succ inside
        rw [List.getElem?_cons_succ] at found
        rw [List.take_succ_cons, List.countP_cons]
        by_cases blank : first = 0
        · have other : ¬ first.val = length.val := fun same => positive (by
            rw [← Fin.ext same, blank])
          rw [assign, if_pos blank, List.getElem?_cons_succ, ih found later,
            if_neg (by simpa using other)]
          rfl
        · rw [assign, if_neg blank, List.getElem?_cons_succ, ih found later]
          by_cases same : first = length
          · subst same
            have counted : (next.set first (next[first] + 1))[first] = next[first] + 1 := by simp
            rw [counted, if_pos (by simp), Nat.add_assoc, Nat.add_comm 1]
          · have other : first.val ≠ length.val := fun equal => same (Fin.ext equal)
            have kept : (next.set first (next[first] + 1))[length] = next[length] := by
              simp [other]
            rw [kept, if_neg (by simpa using other)]
            rfl

/-- An assigned code is the reversed canonical one, and storing it cuts nothing off. -/
theorem exists_assign_firstCodes {previous : List UInt16} {symbol : Nat} {length : CodeLength}
    (found : lengths[symbol]? = some length) (inside : symbol < previous.length)
    (positive : length ≠ 0) :
    ∃ code, (assign (firstCodes lengths) lengths previous)[symbol]? = some code ∧
      code.toNat = reverseBits length (canonicalCode lengths symbol length) := by
  refine ⟨_, getElem?_assign found inside positive, ?_⟩
  have short : length.val ≤ maxCodeLength := Nat.le_of_lt_succ length.isLt
  have small : 2 ^ length.val < 2 ^ 16 := Nat.pow_lt_pow_right (by decide) length.isLt
  have first : (firstCodes lengths)[length] = firstCode lengths length.val := by
    simp [firstCodes]
  rw [first, ← canonicalCode, Nat.toUInt16_eq, UInt16.toNat_ofNat',
    Nat.mod_eq_of_lt (Nat.lt_trans (reverseBits_lt short _) small)]

end CodeLength

end CanonicalHuffman
