import CanonicalHuffman.CodeTable
import CanonicalHuffman.Proofs.ShortestTokens
import Mathlib.Data.List.TakeWhile

/-!
# Lengths that have no tokens

Tokens are refused for two reasons: a length is too long, or there are more tokens than the budget
allows. A length that is too long begins a run of its own, so the lengths in front of it have the
tokens that they have by themselves. Tokens are never taken back from run to run, so the budget is
passed at some run in front of that length exactly when it is passed by all tokens in front of it.
If it is, the budget is the reason, and otherwise the length is.
-/

namespace CanonicalHuffman

namespace Token

section Runs

variable {limit spent : Nat} {previous : UInt8} {front : List (Run UInt8)}

/-- The tokens of runs in front of others come first, and the others are made in what is left of the
budget. When the budget does not allow the tokens of the runs in front, the others have no effect.
-/
theorem ofRuns_append (short : ∀ run ∈ front, run.value.toNat ≤ maxCodeLength)
    (room : spent ≤ limit) (back : List (Run UInt8)) :
    ofRuns limit spent previous (front ++ back) =
      if limit < spent + (ofAllRuns previous front).length then .error (.budgetExceeded limit)
      else (ofRuns limit (spent + (ofAllRuns previous front).length)
        (front.foldl previousAfter previous) back).map (ofAllRuns previous front ++ ·) := by
  induction front generalizing spent previous with
  | nil =>
    rw [ofAllRuns, List.length_nil, Nat.add_zero, if_neg (Nat.not_lt.mpr room), List.nil_append,
      List.foldl_nil]
    cases ofRuns limit spent previous back <;> rfl
  | cons run rest ih =>
    rw [List.forall_mem_cons] at short
    rw [List.cons_append, ofRuns, if_neg (Nat.not_lt.mpr short.1), ofAllRuns, List.length_append,
      List.foldl_cons, ← Nat.add_assoc]
    by_cases passed : limit < spent + (ofRun previous run).length
    · rw [if_pos passed, if_pos (Nat.lt_add_right _ passed)]
    · rw [if_neg passed, ih short.2 (Nat.not_lt.mp passed)]
      split
      · rfl
      · cases ofRuns limit (spent + (ofRun previous run).length +
          (ofAllRuns (previousAfter previous run) rest).length)
          (rest.foldl previousAfter (previousAfter previous run)) back with
        | error fault => rfl
        | ok later => simp [Except.map, bind, Except.bind, pure, Except.pure]

/-- Runs have no more tokens than lengths. -/
theorem length_ofAllRuns_le (filled : ∀ run ∈ front, 0 < run.size) (previous : UInt8) :
    (ofAllRuns previous front).length ≤ (Run.layout front).length := by
  induction front generalizing previous with
  | nil => exact Nat.le_refl _
  | cons run rest ih =>
    rw [List.forall_mem_cons] at filled
    have own := length_ofRun_le filled.1 previous
    have size : run.toList.length = run.size := List.length_replicate
    rw [ofAllRuns, Run.layout_cons, List.length_append, List.length_append, size]
    exact Nat.add_le_add own (ih filled.2 _)

end Runs

section Lengths

variable {front back : List UInt8}

/-- What becomes of lengths of which the ones in front are not too long and the next one is, if
there is one. -/
theorem ofLengths_append (short : ∀ length ∈ front, length.toNat ≤ maxCodeLength)
    (long : ∀ length ∈ back.head?, maxCodeLength < length.toNat) (budget : Nat) :
    ofLengths (front ++ back) budget =
      if budget < (ofAllRuns initialPrevious (Run.runs front)).length then
        .error (.budgetExceeded budget)
      else match back.head? with
        | none => .ok (ofAllRuns initialPrevious (Run.runs front))
        | some length => .error (.lengthTooLong length) := by
  have values := short_of_mem_runs short
  cases back with
  | nil =>
    rw [List.append_nil, ofLengths, ← List.append_nil (Run.runs front),
      ofRuns_append values (Nat.zero_le budget), Nat.zero_add, List.append_nil]
    simp [ofRuns, Except.map]
  | cons length rest =>
    have tooLong : maxCodeLength < length.toNat := long length rfl
    have fresh : length ∉ front := fun member => Nat.not_le.mpr tooLong (short length member)
    obtain ⟨size, later, first⟩ := Run.exists_prepend length (Run.runs rest)
    have split : Run.runs (length :: rest) = ⟨length, size⟩ :: later := first
    rw [ofLengths, Run.runs_append_cons fresh, ofRuns_append values (Nat.zero_le budget),
      Nat.zero_add, split, ofRuns, if_pos tooLong]
    rfl

/-- The lengths in front of the first one that is too long. -/
def leading (lengths : List UInt8) : List UInt8 :=
  lengths.takeWhile fun length => length.toNat ≤ maxCodeLength

/-- The leading lengths are not too long. -/
theorem short_of_mem_leading (lengths : List UInt8) :
    ∀ length ∈ leading lengths, length.toNat ≤ maxCodeLength := by
  intro length member
  exact of_decide_eq_true (List.mem_takeWhile_imp
    (p := fun length : UInt8 => decide (length.toNat ≤ maxCodeLength)) member)

/-- What stands behind the leading lengths begins with the length behind them. -/
theorem exists_leading_append (lengths : List UInt8) : ∃ back, lengths = leading lengths ++ back ∧
    lengths[(leading lengths).length]? = back.head? := by
  obtain ⟨back, split⟩ : leading lengths <+: lengths := List.takeWhile_prefix _
  have past : (leading lengths ++ back)[(leading lengths).length]? =
      back[(leading lengths).length - (leading lengths).length]? :=
    List.getElem?_append_right (Nat.le_refl _)
  rw [split, Nat.sub_self, ← List.head?_eq_getElem?] at past
  exact ⟨back, split.symm, past⟩

/-- The length behind the leading ones is too long. -/
theorem long_of_getElem?_leading {lengths : List UInt8} {length : UInt8}
    (behind : lengths[(leading lengths).length]? = some length) : maxCodeLength < length.toNat := by
  have stops := List.head?_dropWhile_not
    (fun length : UInt8 => decide (length.toNat ≤ maxCodeLength)) lengths
  obtain ⟨back, split, first⟩ := exists_leading_append lengths
  have same : lengths.dropWhile (fun length => length.toNat ≤ maxCodeLength) = back :=
    List.append_cancel_left (List.takeWhile_append_dropWhile.trans split)
  rw [same, ← first, behind] at stops
  exact Nat.lt_of_not_le (of_decide_eq_false stops)

/-- The tokens of the lengths in front of the first one that is too long. -/
def leadingTokens (lengths : List UInt8) : List Token :=
  ofAllRuns initialPrevious (Run.runs (leading lengths))

/-- What becomes of lengths: their leading ones exceed the budget, or the length behind these is too
long, or there is none behind them. -/
theorem ofLengths_eq (lengths : List UInt8) (budget : Nat) : ofLengths lengths budget =
    if budget < (leadingTokens lengths).length then .error (.budgetExceeded budget)
    else match lengths[(leading lengths).length]? with
      | none => .ok (leadingTokens lengths)
      | some length => .error (.lengthTooLong length) := by
  obtain ⟨back, split, behind⟩ := exists_leading_append lengths
  have long : ∀ length ∈ back.head?, maxCodeLength < length.toNat := fun length first =>
    long_of_getElem?_leading (behind.trans first)
  have outcome := ofLengths_append (short_of_mem_leading lengths) long budget
  rwa [← split, ← behind] at outcome

example : ofLengths [1, 2, 16] 1 = .error (.budgetExceeded 1) ∧
    ofLengths [1, 2, 16] 2 = .error (.lengthTooLong 16) := by decide

/-- The leading lengths have their tokens whenever the budget allows them. -/
theorem ofLengths_leading {lengths : List UInt8} {budget : Nat}
    (enough : (leadingTokens lengths).length ≤ budget) :
    ofLengths (leading lengths) budget = .ok (leadingTokens lengths) :=
  ofRuns_eq_ok (short_of_mem_runs (short_of_mem_leading lengths)) (by rwa [Nat.zero_add])

/-- There are no more leading tokens than lengths. -/
theorem length_leadingTokens_le (lengths : List UInt8) :
    (leadingTokens lengths).length ≤ lengths.length := by
  have few := length_ofAllRuns_le (Run.runs_separate (leading lengths)).size_pos initialPrevious
  rw [Run.layout_runs] at few
  exact Nat.le_trans few (List.takeWhile_prefix _).length_le

/-- Nothing stands behind the leading lengths exactly when they are all lengths. -/
theorem getElem?_length_leading_eq_none_iff (lengths : List UInt8) :
    lengths[(leading lengths).length]? = none ↔ leading lengths = lengths := by
  rw [List.getElem?_eq_none_iff]
  constructor
  · exact (List.takeWhile_prefix _).eq_of_length_le
  · intro whole
    rw [whole]

/-- The budget is the reason for a refusal exactly when the leading tokens exceed it. -/
theorem ofLengths_eq_budgetExceeded_iff (lengths : List UInt8) (budget : Nat) :
    ofLengths lengths budget = .error (.budgetExceeded budget) ↔
      budget < (leadingTokens lengths).length := by
  rw [ofLengths_eq]
  split
  · next passed => exact iff_of_true rfl passed
  · next enough =>
    refine iff_of_false (fun refused => ?_) enough
    split at refused <;> cases refused

/-- A length is the reason for a refusal exactly when it stands behind the leading ones and the
budget allows their tokens. -/
theorem ofLengths_eq_lengthTooLong_iff (lengths : List UInt8) (budget : Nat) (length : UInt8) :
    ofLengths lengths budget = .error (.lengthTooLong length) ↔
      lengths[(leading lengths).length]? = some length ∧
        (leadingTokens lengths).length ≤ budget := by
  rw [ofLengths_eq]
  split
  · next passed => exact iff_of_false (fun refused => nomatch refused) (fun both => by omega)
  · next enough =>
    rw [and_iff_left (Nat.not_lt.mp enough)]
    cases lengths[(leading lengths).length]? with
    | none => exact iff_of_false (fun refused => nomatch refused) (fun found => nomatch found)
    | some first => rw [Except.error.injEq, Fault.lengthTooLong.injEq, Option.some.injEq]

/-- Lengths have the tokens of the leading ones exactly when these are all of them and the budget
allows their tokens. -/
theorem ofLengths_eq_ok_iff (lengths : List UInt8) (budget : Nat) :
    ofLengths lengths budget = .ok (leadingTokens lengths) ↔
      leading lengths = lengths ∧ (leadingTokens lengths).length ≤ budget := by
  rw [ofLengths_eq, ← getElem?_length_leading_eq_none_iff]
  split
  · next passed => exact iff_of_false (fun made => nomatch made) (fun both => by omega)
  · next enough =>
    rw [and_iff_left (Nat.not_lt.mp enough)]
    cases lengths[(leading lengths).length]? with
    | none => exact iff_of_true rfl rfl
    | some first => exact iff_of_false (fun made => nomatch made) (fun absent => nomatch absent)

/-- A budget of one token per length is never exceeded, so only a length that is too long is
refused. -/
theorem exists_long_of_tokens_eq_error {lengths : List UInt8} {codes : List UInt16} {fault : Fault}
    (refused : CodeTable.tokens ⟨lengths, codes⟩ = .error fault) :
    ∃ length ∈ lengths, maxCodeLength < length.toNat ∧ fault = .lengthTooLong length := by
  have enough := Nat.not_lt.mpr (length_leadingTokens_le lengths)
  rw [CodeTable.tokens, CodeTable.symbolCount, ofLengths_eq, if_neg enough] at refused
  split at refused
  · contradiction
  · next length behind =>
    exact ⟨length, List.mem_of_getElem? behind, long_of_getElem?_leading behind,
      (Except.error.inj refused).symm⟩

/-- The text that reports a length that is too long. -/
theorem message_lengthTooLong (length : UInt8) :
    (Fault.lengthTooLong length).message = s!"code length {length} exceeds 15" := by
  have last : " exceeds " ++ toString maxCodeLength = " exceeds 15" := by cbv
  have whole : ∀ text : String, "code length " ++ text ++ " exceeds " ++ toString maxCodeLength =
      "code length " ++ text ++ " exceeds 15" := fun text => by rw [String.append_assoc, last]
  exact whole (toString length)

/-- The leading lengths are as many as can stand in front without one that is too long, and they
have tokens whenever the budget allows all of these. Lengths exceed the budget exactly when their
leading ones have more tokens; they are refused for the length behind the leading ones exactly when
there is one and the budget allows the tokens in front of it; and they have the tokens of the
leading ones otherwise. So the lengths of a table, which allows one token per length, are refused
only for a length that is too long. -/
theorem ofLengths_outcome (lengths : List UInt8) (budget : Nat) :
    (leading lengths <+: lengths ∧ (∀ length ∈ leading lengths, length.toNat ≤ 15) ∧
      ∀ length, lengths[(leading lengths).length]? = some length → 15 < length.toNat) ∧
    (∃ tokens, (∀ room, tokens.length ≤ room → ofLengths (leading lengths) room = .ok tokens) ∧
      (ofLengths lengths budget = .error (.budgetExceeded budget) ↔ budget < tokens.length) ∧
      (∀ length, ofLengths lengths budget = .error (.lengthTooLong length) ↔
        lengths[(leading lengths).length]? = some length ∧ tokens.length ≤ budget) ∧
      (ofLengths lengths budget = .ok tokens ↔
        leading lengths = lengths ∧ tokens.length ≤ budget)) ∧
    (Fault.budgetExceeded budget).message = s!"token budget of {budget} exceeded" ∧
    (∀ length, (Fault.lengthTooLong length).message = s!"code length {length} exceeds 15") ∧
    ∀ codes fault, CodeTable.tokens ⟨lengths, codes⟩ = .error fault →
      ∃ length ∈ lengths, 15 < length.toNat ∧ fault = .lengthTooLong length := by
  refine ⟨⟨List.takeWhile_prefix _, short_of_mem_leading lengths,
    fun _ => long_of_getElem?_leading⟩,
    ⟨leadingTokens lengths, fun _ => ofLengths_leading, ?_⟩, rfl, message_lengthTooLong, ?_⟩
  · exact ⟨ofLengths_eq_budgetExceeded_iff lengths budget,
      ofLengths_eq_lengthTooLong_iff lengths budget,
      ofLengths_eq_ok_iff lengths budget⟩
  · intro codes fault refused
    exact exists_long_of_tokens_eq_error refused

end Lengths

end Token

end CanonicalHuffman
