import CanonicalHuffman.Token
import Mathlib.Algebra.Ring.Nat
import Mathlib.Data.List.Dedup
import Mathlib.Data.List.Perm.Subperm

/-!
# Tokens stand for the lengths they were made from

The tokens of a run, read after the same previous length, stand for the run and leave the previous
length that the next run is made after. So the tokens of all runs stand for all lengths. They are
never more than the lengths, and each of them can be written.
-/

namespace CanonicalHuffman

namespace Run

variable {α : Type}

/-- No run of a separate list is empty. -/
theorem Separate.size_pos {cut : List (Run α)} (separate : Separate cut) :
    ∀ run ∈ cut, 0 < run.size := by
  induction cut with
  | nil => simp
  | cons run rest ih =>
    rw [List.forall_mem_cons]
    match rest, separate, ih with
    | [], filled, _ => exact ⟨filled, by simp⟩
    | _ :: _, ⟨filled, _, later⟩, ih => exact ⟨filled, ih later⟩

/-- The value of a run that is not empty is one of the values laid out. -/
theorem value_mem_layout {cut : List (Run α)} {run : Run α} (member : run ∈ cut)
    (filled : 0 < run.size) : run.value ∈ layout cut :=
  List.mem_flatMap.mpr ⟨run, member, List.mem_replicate.mpr ⟨by omega, rfl⟩⟩

/-- A run of a list holds one of its values. -/
theorem value_mem_of_mem_runs [DecidableEq α] {values : List α} {run : Run α}
    (member : run ∈ runs values) : run.value ∈ values := by
  have inside := value_mem_layout member ((runs_separate values).size_pos run member)
  rwa [layout_runs] at inside

end Run

namespace Token

/-- Full pieces take no more than there is. -/
theorem mul_fullPieces_le (most count : Nat) : most * fullPieces most count ≤ count :=
  Nat.le_trans (Nat.mul_div_le ..) (Nat.sub_le ..)

/-- No more than one piece is left behind the full ones. -/
theorem sub_mul_fullPieces_le {most : Nat} (positive : 0 < most) (count : Nat) :
    count - most * fullPieces most count ≤ most := by
  have next := Nat.lt_mul_div_succ (count - 1) positive
  rw [Nat.mul_add, Nat.mul_one] at next
  unfold fullPieces
  omega

/-- The number of repetitions past the least one fits the extra bits. -/
theorem toNat_extra {extra : Nat} (small : extra < 256) : extra.toUInt8.toNat = extra := by
  rw [Nat.toUInt8_eq, UInt8.toNat_ofNat']
  omega

/-- A byte is read back from its number. -/
theorem toUInt8_toNat (byte : UInt8) : byte.toNat.toUInt8 = byte := by
  rw [Nat.toUInt8_eq, UInt8.ofNat_toNat]

section Expanding

variable {previous : UInt8} {count : Nat}

/-- A repeat stands for three previous lengths and its extra bits more. -/
theorem expandFrom_repeatPrevious (previous extra : UInt8) (rest : List Token) :
    expandFrom previous (⟨repeatPrevious, extra⟩ :: rest) =
      List.replicate (3 + extra.toNat) previous ++ expandFrom previous rest := by
  simp [expandFrom, runLength]

/-- A short row of zeros stands for three zeros and its extra bits more. -/
theorem expandFrom_repeatZerosShort (previous extra : UInt8) (rest : List Token) :
    expandFrom previous (⟨repeatZerosShort, extra⟩ :: rest) =
      List.replicate (3 + extra.toNat) 0 ++ expandFrom previous rest := by
  simp [expandFrom, runLength, repeatZerosShort, repeatPrevious]

/-- A long row of zeros stands for eleven zeros and its extra bits more. -/
theorem expandFrom_repeatZerosLong (previous extra : UInt8) (rest : List Token) :
    expandFrom previous (⟨repeatZerosLong, extra⟩ :: rest) =
      List.replicate (11 + extra.toNat) 0 ++ expandFrom previous rest := by
  simp [expandFrom, runLength, repeatZerosLong, repeatZerosShort, repeatPrevious]

/-- A length by itself is the previous one from then on, unless it is zero. -/
theorem expandFrom_literal {length : UInt8} (short : length.toNat ≤ maxCodeLength)
    (previous : UInt8) (rest : List Token) : expandFrom previous (literal length :: rest) =
      length :: expandFrom (if length = 0 then previous else length) rest := by
  have bound : length.toNat ≤ 15 := short
  have other : ∀ code : UInt8, 15 < code.toNat → length ≠ code := fun code large same => by
    rw [same] at bound
    omega
  have notZeros : ¬ (length = repeatZerosShort ∨ length = repeatZerosLong) :=
    not_or.mpr ⟨other _ (by decide), other _ (by decide)⟩
  rw [literal, expandFrom, if_neg (other _ (by decide)), if_neg notZeros]

/-- Tokens that stand for equal rows stand for one long row together. -/
theorem expandFrom_replicate {token : Token} {size : Nat} {value : UInt8}
    (stands : ∀ rest, expandFrom previous (token :: rest) =
      List.replicate size value ++ expandFrom previous rest) (count : Nat) (rest : List Token) :
    expandFrom previous (List.replicate count token ++ rest) =
      List.replicate (size * count) value ++ expandFrom previous rest := by
  induction count with
  | zero => rfl
  | succ count ih =>
    rw [List.replicate_succ, List.cons_append, stands, ih, ← List.append_assoc,
      List.replicate_append_replicate, Nat.mul_succ, Nat.add_comm]

/-- The tokens of a few zeros stand for them. -/
theorem expandFrom_ofFewZeros (few : count ≤ 138) (later : List Token) :
    expandFrom previous (ofFewZeros count ++ later) =
      List.replicate count 0 ++ expandFrom previous later := by
  have stands : ∀ rest, expandFrom previous (literal 0 :: rest) =
      List.replicate 1 0 ++ expandFrom previous rest := by
    intro rest
    rw [expandFrom_literal (by decide), if_pos rfl]
    rfl
  unfold ofFewZeros
  split
  · rw [expandFrom_replicate stands, Nat.one_mul]
  · split
    · rw [List.cons_append, List.nil_append, expandFrom_repeatZerosShort, toNat_extra (by omega)]
      congr 2
      omega
    · rw [List.cons_append, List.nil_append, expandFrom_repeatZerosLong, toNat_extra (by omega)]
      congr 2
      omega

/-- The tokens of a row of zeros stand for it. -/
theorem expandFrom_ofZeros (previous : UInt8) (count : Nat) (later : List Token) :
    expandFrom previous (ofZeros count ++ later) =
      List.replicate count 0 ++ expandFrom previous later := by
  have most := mul_fullPieces_le 138 count
  have left := @sub_mul_fullPieces_le 138 (by decide) count
  have long : (127 : UInt8).toNat = 127 := rfl
  rw [ofZeros, List.append_assoc,
    expandFrom_replicate (fun rest => expandFrom_repeatZerosLong previous 127 rest),
    expandFrom_ofFewZeros left, ← List.append_assoc, List.replicate_append_replicate, long]
  congr 2
  omega

/-- The tokens of a few repeats stand for them. -/
theorem expandFrom_ofFewRepeats (filled : previous ≠ 0) (short : previous.toNat ≤ maxCodeLength)
    (few : count ≤ 6) (later : List Token) :
    expandFrom previous (ofFewRepeats previous count ++ later) =
      List.replicate count previous ++ expandFrom previous later := by
  have stands : ∀ rest, expandFrom previous (literal previous :: rest) =
      List.replicate 1 previous ++ expandFrom previous rest := by
    intro rest
    rw [expandFrom_literal short, if_neg filled]
    rfl
  unfold ofFewRepeats
  split
  · rw [expandFrom_replicate stands, Nat.one_mul]
  · rw [List.cons_append, List.nil_append, expandFrom_repeatPrevious, toNat_extra (by omega)]
    congr 2
    omega

/-- The tokens that repeat the previous length stand for its repetitions. -/
theorem expandFrom_ofRepeats (filled : previous ≠ 0) (short : previous.toNat ≤ maxCodeLength)
    (count : Nat) (later : List Token) :
    expandFrom previous (ofRepeats previous count ++ later) =
      List.replicate count previous ++ expandFrom previous later := by
  have most := mul_fullPieces_le 6 count
  have left := @sub_mul_fullPieces_le 6 (by decide) count
  have six : (3 : UInt8).toNat = 3 := rfl
  rw [ofRepeats, List.append_assoc,
    expandFrom_replicate (fun rest => expandFrom_repeatPrevious previous 3 rest),
    expandFrom_ofFewRepeats filled short left, ← List.append_assoc, List.replicate_append_replicate,
    six]
  congr 2
  omega

/-- The tokens of a run stand for the run, and the next run is read after the length it leaves. -/
theorem expandFrom_ofRun {run : Run UInt8} (short : run.value.toNat ≤ maxCodeLength)
    (filled : 0 < run.size) (previous : UInt8) (later : List Token) :
    expandFrom previous (ofRun previous run ++ later) =
      run.toList ++ expandFrom (previousAfter previous run) later := by
  unfold ofRun previousAfter Run.toList
  split
  · next zero => rw [zero, expandFrom_ofZeros]
  · next positive =>
    split
    · next same =>
      subst same
      rw [expandFrom_ofRepeats positive short]
    · obtain ⟨more, size⟩ := Nat.exists_eq_succ_of_ne_zero (Nat.ne_of_gt filled)
      rw [List.cons_append, expandFrom_literal short, if_neg positive,
        expandFrom_ofRepeats positive short, size, Nat.succ_sub_one, List.replicate_succ,
        List.cons_append]

end Expanding

section Writing

variable {count : Nat}

/-- A length by itself can be written. -/
theorem wellFormed_literal {length : UInt8} (short : length.toNat ≤ maxCodeLength) :
    (literal length).WellFormed := by
  refine ⟨Nat.lt_of_le_of_lt short (by decide), ?_⟩
  exact Nat.two_pow_pos _

/-- The tokens of a few zeros are well formed. -/
theorem wellFormed_ofFewZeros (few : count ≤ 138) :
    ∀ token ∈ ofFewZeros count, token.WellFormed := by
  unfold ofFewZeros
  split
  · intro token member
    rw [List.eq_of_mem_replicate member]
    exact wellFormed_literal (by decide)
  · split
    · rw [List.forall_mem_singleton]
      refine ⟨show repeatZerosShort.toNat < tokenAlphabetSize by decide, ?_⟩
      show (count - 3).toUInt8.toNat < 2 ^ 3
      rw [toNat_extra (by omega)]
      omega
    · rw [List.forall_mem_singleton]
      refine ⟨show repeatZerosLong.toNat < tokenAlphabetSize by decide, ?_⟩
      show (count - 11).toUInt8.toNat < 2 ^ 7
      rw [toNat_extra (by omega)]
      omega

/-- The tokens of a few repeats are well formed. -/
theorem wellFormed_ofFewRepeats {length : UInt8} (short : length.toNat ≤ maxCodeLength)
    (few : count ≤ 6) : ∀ token ∈ ofFewRepeats length count, token.WellFormed := by
  unfold ofFewRepeats
  split
  · intro token member
    rw [List.eq_of_mem_replicate member]
    exact wellFormed_literal short
  · rw [List.forall_mem_singleton]
    refine ⟨show repeatPrevious.toNat < tokenAlphabetSize by decide, ?_⟩
    show (count - 3).toUInt8.toNat < 2 ^ 2
    rw [toNat_extra (by omega)]
    omega

/-- The tokens of a row of zeros can be written. -/
theorem wellFormed_ofZeros (count : Nat) : ∀ token ∈ ofZeros count, token.WellFormed := by
  intro token member
  rcases List.mem_append.mp member with full | few
  · rw [List.eq_of_mem_replicate full]
    exact ⟨by decide, by decide⟩
  · exact wellFormed_ofFewZeros (sub_mul_fullPieces_le (by decide) count) token few

/-- The tokens that repeat a length can be written. -/
theorem wellFormed_ofRepeats {length : UInt8} (short : length.toNat ≤ maxCodeLength) (count : Nat) :
    ∀ token ∈ ofRepeats length count, token.WellFormed := by
  intro token member
  rcases List.mem_append.mp member with full | few
  · rw [List.eq_of_mem_replicate full]
    exact ⟨by decide, by decide⟩
  · exact wellFormed_ofFewRepeats short (sub_mul_fullPieces_le (by decide) count) token few

/-- The tokens of a run can be written. -/
theorem wellFormed_ofRun {run : Run UInt8} (short : run.value.toNat ≤ maxCodeLength)
    (previous : UInt8) : ∀ token ∈ ofRun previous run, token.WellFormed := by
  unfold ofRun
  split
  · exact wellFormed_ofZeros _
  · split
    · exact wellFormed_ofRepeats short _
    · rw [List.forall_mem_cons]
      exact ⟨wellFormed_literal short, wellFormed_ofRepeats short _⟩

end Writing

section Counting

/-- A row of zeros has no more tokens than zeros. -/
theorem length_ofZeros_le (count : Nat) : (ofZeros count).length ≤ count := by
  have most := mul_fullPieces_le 138 count
  have few : (ofFewZeros (count - 138 * fullPieces 138 count)).length ≤
      count - 138 * fullPieces 138 count := by
    unfold ofFewZeros
    grind
  rw [ofZeros, List.length_append, List.length_replicate]
  omega

/-- There are no more tokens than repetitions. -/
theorem length_ofRepeats_le (length : UInt8) (count : Nat) :
    (ofRepeats length count).length ≤ count := by
  have most := mul_fullPieces_le 6 count
  have few : (ofFewRepeats length (count - 6 * fullPieces 6 count)).length ≤
      count - 6 * fullPieces 6 count := by
    unfold ofFewRepeats
    grind
  rw [ofRepeats, List.length_append, List.length_replicate]
  omega

/-- A run has no more tokens than lengths. -/
theorem length_ofRun_le {run : Run UInt8} (filled : 0 < run.size) (previous : UInt8) :
    (ofRun previous run).length ≤ run.size := by
  unfold ofRun
  split
  · exact length_ofZeros_le _
  · split
    · exact length_ofRepeats_le _ _
    · have rest := length_ofRepeats_le run.value (run.size - 1)
      rw [List.length_cons]
      omega

end Counting

section Runs

variable {limit spent : Nat} {previous : UInt8} {cut : List (Run UInt8)} {tokens : List Token}

/-- When the tokens of runs are made, and how those of the first run stand in front. -/
theorem ofRuns_cons_eq_ok_iff {run : Run UInt8} {rest : List (Run UInt8)} :
    ofRuns limit spent previous (run :: rest) = .ok tokens ↔
      run.value.toNat ≤ maxCodeLength ∧ spent + (ofRun previous run).length ≤ limit ∧
        ∃ later, ofRuns limit (spent + (ofRun previous run).length) (previousAfter previous run)
          rest = .ok later ∧ tokens = ofRun previous run ++ later := by
  rw [ofRuns]
  by_cases long : maxCodeLength < run.value.toNat
  · rw [if_pos long]
    exact iff_of_false (fun failed => nomatch failed) (fun made => by omega)
  · rw [if_neg long]
    by_cases exceeded : limit < spent + (ofRun previous run).length
    · rw [if_pos exceeded]
      exact iff_of_false (fun failed => nomatch failed) (fun made => by omega)
    · rw [if_neg exceeded]
      cases made : ofRuns limit (spent + (ofRun previous run).length)
          (previousAfter previous run) rest with
      | error fault => simp [bind, Except.bind]
      | ok later =>
        simp [bind, Except.bind, pure, Except.pure, Nat.not_lt.mp long, Nat.not_lt.mp exceeded,
          eq_comm]

/-- The tokens of runs stand for the runs. -/
theorem expandFrom_of_ofRuns (found : ofRuns limit spent previous cut = .ok tokens)
    (filled : ∀ run ∈ cut, 0 < run.size) : expandFrom previous tokens = Run.layout cut := by
  induction cut generalizing spent previous tokens with
  | nil =>
    obtain rfl := Except.ok.inj found
    rfl
  | cons run rest ih =>
    rw [List.forall_mem_cons] at filled
    obtain ⟨short, _, later, made, rfl⟩ := ofRuns_cons_eq_ok_iff.mp found
    rw [expandFrom_ofRun short filled.1, ih made filled.2, Run.layout_cons]

/-- The tokens of runs can be written. -/
theorem wellFormed_of_ofRuns (found : ofRuns limit spent previous cut = .ok tokens) :
    ∀ token ∈ tokens, token.WellFormed := by
  induction cut generalizing spent previous tokens with
  | nil =>
    obtain rfl := Except.ok.inj found
    simp
  | cons run rest ih =>
    obtain ⟨short, _, later, made, rfl⟩ := ofRuns_cons_eq_ok_iff.mp found
    rw [List.forall_mem_append]
    exact ⟨wellFormed_ofRun short previous, ih made⟩

/-- Runs of lengths that are not too long have tokens, when there is room for one per length. -/
theorem exists_ofRuns (filled : ∀ run ∈ cut, 0 < run.size)
    (short : ∀ run ∈ cut, run.value.toNat ≤ maxCodeLength)
    (room : spent + (Run.layout cut).length ≤ limit) :
    ∃ tokens, ofRuns limit spent previous cut = .ok tokens ∧
      tokens.length ≤ (Run.layout cut).length := by
  induction cut generalizing spent previous with
  | nil => exact ⟨[], rfl, Nat.le_refl _⟩
  | cons run rest ih =>
    rw [List.forall_mem_cons] at filled short
    have few := length_ofRun_le filled.1 previous
    have size : run.toList.length = run.size := List.length_replicate
    rw [Run.layout_cons, List.length_append, size] at room ⊢
    obtain ⟨later, made, fewer⟩ := @ih (spent + (ofRun previous run).length)
      (previousAfter previous run) filled.2 short.2 (by omega)
    refine ⟨_, ofRuns_cons_eq_ok_iff.mpr ⟨short.1, by omega, later, made, rfl⟩, ?_⟩
    rw [List.length_append]
    omega

end Runs

section Lengths

variable {lengths : List UInt8} {budget : Nat} {tokens : List Token}

/-- Tokens stand for the lengths they were made from. -/
theorem expand_of_ofLengths (found : ofLengths lengths budget = .ok tokens) :
    expand tokens = lengths := by
  rw [expand, expandFrom_of_ofRuns found (Run.runs_separate lengths).size_pos, Run.layout_runs]

/-- The tokens of lengths can be written. -/
theorem wellFormed_of_ofLengths (found : ofLengths lengths budget = .ok tokens) :
    ∀ token ∈ tokens, token.WellFormed := wellFormed_of_ofRuns found

/-- The runs of lengths that are not too long hold no other lengths. -/
theorem short_of_mem_runs (short : ∀ length ∈ lengths, length.toNat ≤ maxCodeLength) :
    ∀ run ∈ Run.runs lengths, run.value.toNat ≤ maxCodeLength :=
  fun run member => short run.value (Run.value_mem_of_mem_runs member)

/-- Lengths that are not too long have tokens, no more than there are lengths. -/
theorem exists_ofLengths (short : ∀ length ∈ lengths, length.toNat ≤ maxCodeLength)
    (room : lengths.length ≤ budget) :
    ∃ tokens, ofLengths lengths budget = .ok tokens ∧ tokens.length ≤ lengths.length := by
  have filled := (Run.runs_separate lengths).size_pos
  have made := @exists_ofRuns budget 0 initialPrevious (Run.runs lengths) filled
    (short_of_mem_runs short) (by rw [Run.layout_runs]; omega)
  rwa [Run.layout_runs] at made

/-- Lengths that are not too long have tokens under every budget of one token per length and more.
The tokens stand for exactly the lengths they were made from, each of them can be written, their run
lengths add up to the number of lengths, and there are no more tokens than lengths. -/
theorem ofLengths_round_trip (lengths : List UInt8) (budget : Nat)
    (short : ∀ length ∈ lengths, length.toNat ≤ 15) (room : lengths.length ≤ budget) :
    ∃ tokens, ofLengths lengths budget = .ok tokens ∧ expand tokens = lengths ∧
      (∀ token ∈ tokens, token.code.toNat ≤ 18 ∧
        token.extraBits.toNat < 2 ^ token.extraBitCount) ∧
      covered tokens = lengths.length ∧ tokens.length ≤ lengths.length := by
  obtain ⟨tokens, made, few⟩ := exists_ofLengths short room
  have expanded := expand_of_ofLengths made
  refine ⟨tokens, made, expanded, fun token member => ?_, ?_, few⟩
  · have written := wellFormed_of_ofLengths made token member
    exact ⟨Nat.le_of_lt_succ written.code_lt, written.extraBits_lt⟩
  · rw [← length_expandFrom initialPrevious tokens, ← expand, expanded]

/-- A repeated length, then zeros, then the length again, which is still the previous one. -/
theorem ofLengths_round_trip_of_three_runs :
    ∃ tokens, ofLengths [5, 5, 5, 5, 5, 0, 0, 0, 5, 5, 5] 11 = .ok tokens ∧
      expand tokens = [5, 5, 5, 5, 5, 0, 0, 0, 5, 5, 5] ∧ covered tokens = 11 ∧
      tokens.length ≤ 11 := by
  obtain ⟨tokens, made, expanded, _, sum, few⟩ :=
    ofLengths_round_trip [5, 5, 5, 5, 5, 0, 0, 0, 5, 5, 5] 11 (by simp) (by decide)
  exact ⟨tokens, made, expanded, sum, few⟩

end Lengths

section Histograms

variable {tokens : List Token}

/-- Tokens that can be written have a histogram, which counts each code of the alphabet. -/
theorem histogram_eq (written : ∀ token ∈ tokens, token.WellFormed) :
    histogram tokens = .ok ((List.range tokenAlphabetSize).map fun code =>
      (tokens.countP fun token => token.code.toNat = code).toUInt32) := by
  have inside : tokens.find? (fun token => tokenAlphabetSize ≤ token.code.toNat) = none := by
    rw [List.find?_eq_none]
    intro token member
    have small := (written token member).code_lt
    simpa using small
  rw [histogram, inside]

/-- A histogram of tokens has a count for each code of the alphabet. -/
theorem length_histogram {counts : Histogram} (found : histogram tokens = .ok counts) :
    counts.length = tokenAlphabetSize := by
  unfold histogram at found
  split at found
  · contradiction
  · obtain rfl := Except.ok.inj found
    rw [List.length_map, List.length_range]

/-- A token that occurs has a count that is not zero. -/
theorem histogram_ne_zero {counts : Histogram} (written : ∀ token ∈ tokens, token.WellFormed)
    (found : histogram tokens = .ok counts) (few : tokens.length < 2 ^ 32) {token : Token}
    (member : token ∈ tokens) : ∃ count, counts[token.code.toNat]? = some count ∧ count ≠ 0 := by
  have inside := (written token member).code_lt
  obtain rfl := Except.ok.inj ((histogram_eq written).symm.trans found)
  refine ⟨_, by rw [List.getElem?_map, List.getElem?_range inside]; rfl, fun zero => ?_⟩
  have occurs : 0 < tokens.countP fun other => other.code.toNat = token.code.toNat :=
    List.countP_pos_iff.mpr ⟨token, member, by simp⟩
  have most : tokens.countP (fun other => other.code.toNat = token.code.toNat) ≤ tokens.length :=
    List.countP_le_length
  have value :
      (tokens.countP fun other => other.code.toNat = token.code.toNat).toUInt32.toNat = 0 :=
    congrArg UInt32.toNat zero
  rw [Nat.toUInt32_eq, UInt32.toNat_ofNat', Nat.mod_eq_of_lt (by omega)] at value
  exact absurd value (Nat.ne_of_gt occurs)

/-- The different codes of tokens. -/
def distinctCodes (tokens : List Token) : List UInt8 := (tokens.map Token.code).dedup

/-- The used symbols of a token histogram are codes of tokens that occur. -/
theorem used_histogram_le {counts : Histogram} (written : ∀ token ∈ tokens, token.WellFormed)
    (found : histogram tokens = .ok counts) : counts.used ≤ (distinctCodes tokens).length := by
  obtain rfl := Except.ok.inj ((histogram_eq written).symm.trans found)
  rw [Histogram.used, List.countP_map, List.countP_eq_length_filter, ← List.length_map UInt8.toNat]
  refine (List.Nodup.subperm (List.nodup_range.filter _) fun code member => ?_).length_le
  have counted := (List.mem_filter.mp member).2
  have occurs : tokens.countP (fun token => token.code.toNat = code) ≠ 0 := fun absent => by
    simp [absent] at counted
  obtain ⟨token, isToken, same⟩ := List.countP_pos_iff.mp (Nat.pos_of_ne_zero occurs)
  rw [decide_eq_true_eq] at same
  refine List.mem_map.mpr ⟨token.code, ?_, same⟩
  exact List.mem_dedup.mpr (List.mem_map.mpr ⟨token, isToken, rfl⟩)

/-- Tokens that can be written have no more different codes than the alphabet. -/
theorem length_distinctCodes_le (written : ∀ token ∈ tokens, token.WellFormed) :
    (distinctCodes tokens).length ≤ tokenAlphabetSize := by
  have distinct : ((distinctCodes tokens).map UInt8.toNat).Nodup :=
    (List.nodup_dedup _).map fun _ _ => UInt8.toNat_inj.mp
  rw [← List.length_map UInt8.toNat, ← @List.length_range tokenAlphabetSize]
  refine (List.Nodup.subperm distinct fun code member => ?_).length_le
  obtain ⟨byte, isCode, rfl⟩ := List.mem_map.mp member
  obtain ⟨token, isToken, rfl⟩ := List.mem_map.mp (List.mem_dedup.mp isCode)
  exact List.mem_range.mpr (written token isToken).code_lt

end Histograms

end Token

end CanonicalHuffman
