import CanonicalHuffman.Fault

/-!
# Slots with checked positions

Reading or writing a slot past the end of an array is a fault. An algorithm that reads and writes
slots alone and ends without a fault has therefore stayed inside its arrays. Slots can also be
moved up to make room for one that is brought down from behind them.
-/

namespace CanonicalHuffman

/-- A fixed number of slots. -/
abbrev Slots (α : Type) := Array α

namespace Slots

variable {α : Type}

/-- Read a slot. -/
def fetch (slots : Slots α) (index : Nat) : Except Fault α :=
  if inside : index < slots.size then .ok slots[index] else .error (.outOfBounds slots.size index)

/-- Overwrite a slot. -/
def store (slots : Slots α) (index : Nat) (value : α) : Except Fault (Slots α) :=
  if inside : index < slots.size then .ok (slots.set index value)
  else .error (.outOfBounds slots.size index)

/-- Bring the slot at `index + count` down to `index`, and move the slots between up by one. -/
def bringDown (slots : Slots α) (index : Nat) : (count : Nat) → Slots α
  | 0 => slots
  | count + 1 => bringDown (slots.swapIfInBounds (index + count) (index + count + 1)) index count

/-- Reading succeeds exactly where there is a slot, and yields what it holds. -/
@[simp] theorem fetch_eq_ok_iff {slots : Slots α} {index : Nat} {value : α} :
    fetch slots index = .ok value ↔ slots[index]? = some value := by
  unfold fetch
  split <;> simp_all

/-- Writing succeeds exactly where there is a slot, and sets it. -/
@[simp] theorem store_eq_ok_iff {slots filled : Slots α} {index : Nat} {value : α} :
    store slots index value = .ok filled ↔
      index < slots.size ∧ slots.setIfInBounds index value = filled := by
  by_cases inside : index < slots.size <;> simp [store, Array.setIfInBounds, inside]

/-- Writing inside the slots yields the slots with the new value. -/
theorem store_of_lt {slots : Slots α} {index : Nat} (value : α) (inside : index < slots.size) :
    store slots index value = .ok (slots.set index value) := by
  simp [store, inside]

/-- Bringing a slot down keeps the number of slots. -/
@[simp] theorem size_bringDown (slots : Slots α) (index count : Nat) :
    (bringDown slots index count).size = slots.size := by
  induction count generalizing slots with
  | zero => rfl
  | succ count ih => simp [bringDown, ih]

/-- Where each slot comes from when one is brought down. -/
theorem getElem?_bringDown (slots : Slots α) (index count position : Nat)
    (inside : index + count < slots.size) :
    (bringDown slots index count)[position]? =
      if position = index then slots[index + count]?
      else if index < position ∧ position ≤ index + count then slots[position - 1]?
      else slots[position]? := by
  induction count generalizing slots with
  | zero =>
    rw [bringDown]
    by_cases first : position = index
    · rw [if_pos first, first, Nat.add_zero]
    · rw [if_neg first, if_neg (by omega)]
  | succ count ih =>
    have exchanged : slots.swapIfInBounds (index + count) (index + count + 1) =
        slots.swap (index + count) (index + count + 1) (by omega) (by omega) := by
      rw [Array.swapIfInBounds_def, dif_pos (by omega), dif_pos (by omega)]
    rw [bringDown, exchanged, ih _ (by rw [Array.size_swap]; omega)]
    have swapped := fun place => @Array.getElem?_swap _ slots (index + count) (index + count + 1)
      (by omega) (by omega) place
    by_cases first : position = index
    · rw [if_pos first, if_pos first, swapped, if_neg (by omega), if_pos rfl]
      exact (Array.getElem?_eq_getElem inside).symm
    · rw [if_neg first, if_neg first]
      by_cases last : position = index + count + 1
      · rw [if_neg (by omega), swapped, if_pos last.symm, if_pos (by omega), last,
          Nat.add_sub_cancel]
        exact (Array.getElem?_eq_getElem _).symm
      · by_cases between : index < position ∧ position ≤ index + count
        · rw [if_pos between, swapped, if_neg (by omega), if_neg (by omega), if_pos (by omega)]
        · rw [if_neg between, swapped, if_neg (by omega), if_neg (by omega), if_neg (by omega)]

end Slots

end CanonicalHuffman
