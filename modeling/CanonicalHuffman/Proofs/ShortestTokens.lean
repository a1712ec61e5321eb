import CanonicalHuffman.Proofs.Runs
import CanonicalHuffman.Proofs.Tokens
import Mathlib.Order.Bounds.Defs

/-!
# The shortest tokens for a list of lengths

A token stands for equal lengths, so it lies within one run: it is a length by itself, or a repeat
of three and more lengths up to a most. A run with a new nonzero length has to start with that
length by itself, and the rest of a run is made up of pieces. Taking full pieces as long as more are
left is shortest unless two lengths remain behind them: these take two tokens, although a full piece
made one shorter would leave three, for which one token is enough. So the tokens of a list of
lengths are as few as possible, except that every run with such a rest takes one token more.
-/

namespace CanonicalHuffman

namespace Token

section Pieces

variable {most count piece pieces rest : Nat}

/-- The least number of pieces that make up a count, when a piece is one, or three and more up to a
most. Two can only be made up of ones. -/
def leastPieces (most count : Nat) : Nat :=
  if count = 0 then 0 else if count = 2 then 2 else fullPieces most count + 1

/-- Whether two are left behind the full pieces of a count, of which there is one at least. -/
def LeavesTwo (most count : Nat) : Prop := 2 < count ∧ count % most = 2

instance (most count : Nat) : Decidable (LeavesTwo most count) := by
  unfold LeavesTwo
  infer_instance

/-- The full pieces of a count that leave one up to a full piece. -/
theorem fullPieces_mul_add (least : 1 ≤ rest) (few : rest ≤ most) :
    fullPieces most (most * pieces + rest) = pieces := by
  rw [fullPieces, Nat.add_sub_assoc least, Nat.mul_add_div (by omega), Nat.div_eq_of_lt (by omega),
    Nat.add_zero]

/-- A count that is not zero is made up of full pieces and a rest of one up to a full piece. -/
theorem exists_rest (positive : 0 < most) (filled : count ≠ 0) :
    ∃ pieces rest, 1 ≤ rest ∧ rest ≤ most ∧ count = most * pieces + rest := by
  have whole := Nat.div_add_mod (count - 1) most
  have small := Nat.mod_lt (count - 1) positive
  exact ⟨(count - 1) / most, (count - 1) % most + 1, Nat.succ_pos _, small, by omega⟩

/-- The least number of pieces, by the full ones and the rest. -/
theorem leastPieces_mul_add (least : 1 ≤ rest) (few : rest ≤ most) (wide : 3 ≤ most) :
    leastPieces most (most * pieces + rest) = if pieces = 0 ∧ rest = 2 then 2 else pieces + 1 := by
  have two : most * pieces + rest = 2 ↔ pieces = 0 ∧ rest = 2 := by
    constructor
    · intro isTwo
      obtain rfl : pieces = 0 := Nat.eq_zero_of_not_pos fun more => by
        have full := Nat.le_mul_of_pos_right most more
        omega
      exact ⟨rfl, by omega⟩
    · rintro ⟨rfl, rfl⟩
      rw [Nat.mul_zero]
  rw [leastPieces, if_neg (by omega), fullPieces_mul_add least few]
  simp only [two]

/-- Two are left behind full pieces exactly when there are some and the rest is two. -/
theorem leavesTwo_mul_add_iff (least : 1 ≤ rest) (few : rest ≤ most) (wide : 3 ≤ most) :
    LeavesTwo most (most * pieces + rest) ↔ pieces ≠ 0 ∧ rest = 2 := by
  have modulo : (most * pieces + rest) % most = 2 ↔ rest = 2 := by
    rw [Nat.mul_add_mod]
    rcases Nat.lt_or_eq_of_le few with less | rfl
    · rw [Nat.mod_eq_of_lt less]
    · rw [Nat.mod_self]
      omega
  rw [LeavesTwo, modulo]
  refine and_congr_left fun two => ?_
  subst two
  constructor
  · rintro more rfl
    omega
  · intro more
    have full := Nat.le_mul_of_pos_right most (Nat.pos_of_ne_zero more)
    omega

/-- One more piece adds one to the least number of pieces at most. -/
theorem leastPieces_add_le (wide : 3 ≤ most) (isPiece : piece = 1 ∨ (3 ≤ piece ∧ piece ≤ most))
    (count : Nat) : leastPieces most (count + piece) ≤ leastPieces most count + 1 := by
  by_cases zero : count = 0
  · subst zero
    have alone := @leastPieces_mul_add most 0 piece (by omega) (by omega) wide
    rw [Nat.mul_zero, if_neg (by omega)] at alone
    rw [alone]
    exact Nat.le_add_left _ _
  · have step : fullPieces most (count + piece) ≤ fullPieces most count + 1 := by
      rw [fullPieces, fullPieces, ← Nat.add_div_right _ (by omega)]
      exact Nat.div_le_div_right (by omega)
    have before : fullPieces most count + 1 ≤ leastPieces most count := by
      obtain ⟨pieces, rest, least, few, rfl⟩ := exists_rest (by omega : 0 < most) zero
      rw [leastPieces_mul_add least few wide, fullPieces_mul_add least few]
      split <;> omega
    rw [leastPieces, if_neg (by omega)]
    split <;> omega

/-- Full pieces and what is left are as few as possible, except that a rest of two takes one more.
-/
theorem fullPieces_add_eq (wide : 3 ≤ most) (count : Nat) :
    fullPieces most count + (if count - most * fullPieces most count < 3
      then count - most * fullPieces most count else 1) =
      leastPieces most count + if LeavesTwo most count then 1 else 0 := by
  by_cases zero : count = 0
  · subst zero
    simp [fullPieces, leastPieces, LeavesTwo]
  · obtain ⟨pieces, rest, least, few, rfl⟩ := exists_rest (by omega : 0 < most) zero
    rw [leastPieces_mul_add least few wide, fullPieces_mul_add least few, Nat.add_sub_cancel_left]
    simp only [leavesTwo_mul_add_iff least few wide]
    by_cases two : rest = 2
    · subst two
      by_cases no : pieces = 0 <;> simp [no]
    · simp only [two, and_false, if_false]
      split <;> omega

/-- When two are left behind the full pieces, a piece of three and the pieces of what remains are as
few as possible: the last full piece is made one shorter. -/
theorem leastPieces_sub_three (wide : 4 ≤ most) (leaves : LeavesTwo most count) :
    leastPieces most (count - 3) + 1 = leastPieces most count ∧ ¬ LeavesTwo most (count - 3) := by
  have many := leaves.1
  obtain ⟨pieces, rest, least, few, rfl⟩ := exists_rest (by omega : 0 < most) (by omega : count ≠ 0)
  obtain ⟨more, rfl⟩ := (leavesTwo_mul_add_iff least few (by omega)).mp leaves
  obtain ⟨fewer, rfl⟩ := Nat.exists_eq_succ_of_ne_zero more
  have shorter : most * (fewer + 1) + 2 - 3 = most * fewer + (most - 1) := by
    rw [Nat.mul_succ]
    omega
  rw [Nat.succ_eq_add_one, shorter, leavesTwo_mul_add_iff (by omega) (by omega) (by omega),
    leastPieces_mul_add (by omega) (by omega) (by omega), leastPieces_mul_add least few (by omega),
    if_neg (by omega), if_neg (by omega)]
  exact ⟨rfl, by omega⟩

end Pieces

section Rows

variable {previous value : UInt8} {count : Nat}

/-- The most lengths that a repeat of a length stands for. -/
def mostRepeats (value : UInt8) : Nat := if value = 0 then 138 else 6

/-- Every length can be repeated four times by one token. -/
theorem four_le_mostRepeats (value : UInt8) : 4 ≤ mostRepeats value := by
  rw [mostRepeats]
  split <;> decide

/-- The tokens that repeat a length, zero or the previous one. -/
def ofRow (value : UInt8) (count : Nat) : List Token :=
  if value = 0 then ofZeros count else ofRepeats value count

/-- How many tokens repeat a length. -/
theorem length_ofRow (value : UInt8) (count : Nat) : (ofRow value count).length =
    leastPieces (mostRepeats value) count +
      if LeavesTwo (mostRepeats value) count then 1 else 0 := by
  have wide := four_le_mostRepeats value
  rw [← fullPieces_add_eq (by omega), ofRow, mostRepeats]
  split
  · rw [ofZeros, List.length_append, List.length_replicate, ofFewZeros]
    congr 1
    split
    · exact List.length_replicate
    · split <;> rfl
  · rw [ofRepeats, List.length_append, List.length_replicate, ofFewRepeats]
    congr 1
    split
    · exact List.length_replicate
    · rfl

/-- The tokens that repeat a length can be written. -/
theorem wellFormed_ofRow (short : value.toNat ≤ maxCodeLength) (count : Nat) :
    ∀ token ∈ ofRow value count, token.WellFormed := by
  rw [ofRow]
  split
  · exact wellFormed_ofZeros count
  · exact wellFormed_ofRepeats short count

/-- The tokens that repeat a length stand for its repetitions. -/
theorem expandFrom_ofRow (repeated : value = 0 ∨ value = previous)
    (short : value.toNat ≤ maxCodeLength) (count : Nat) (later : List Token) :
    expandFrom previous (ofRow value count ++ later) =
      List.replicate count value ++ expandFrom previous later := by
  rw [ofRow]
  split
  · next zero => rw [zero, expandFrom_ofZeros]
  · next positive =>
    obtain rfl := repeated.resolve_left positive
    rw [expandFrom_ofRepeats positive short]

/-- The fewest tokens that repeat a length: where two are left behind the full pieces, the last
three lengths have a token of their own. -/
def shortestRow (value : UInt8) (count : Nat) : List Token :=
  if LeavesTwo (mostRepeats value) count then ofRow value (count - 3) ++ ofRow value 3
  else ofRow value count

/-- A shortest row has the least number of tokens. -/
theorem length_shortestRow (value : UInt8) (count : Nat) :
    (shortestRow value count).length = leastPieces (mostRepeats value) count := by
  rw [shortestRow]
  split
  · next leaves =>
    obtain ⟨fewer, never⟩ := leastPieces_sub_three (four_le_mostRepeats value) leaves
    have three : (ofRow value 3).length = 1 := by
      rw [ofRow]
      split <;> rfl
    rw [List.length_append, three, length_ofRow, if_neg never, Nat.add_zero, fewer]
  · next never => rw [length_ofRow, if_neg never, Nat.add_zero]

/-- The tokens of a shortest row are well formed. -/
theorem wellFormed_shortestRow (short : value.toNat ≤ maxCodeLength) (count : Nat) :
    ∀ token ∈ shortestRow value count, token.WellFormed := by
  rw [shortestRow]
  split
  · rw [List.forall_mem_append]
    exact ⟨wellFormed_ofRow short _, wellFormed_ofRow short _⟩
  · exact wellFormed_ofRow short count

/-- A shortest row stands for the repeated length. -/
theorem expandFrom_shortestRow (repeated : value = 0 ∨ value = previous)
    (short : value.toNat ≤ maxCodeLength) (count : Nat) (later : List Token) :
    expandFrom previous (shortestRow value count ++ later) =
      List.replicate count value ++ expandFrom previous later := by
  rw [shortestRow]
  split
  · next leaves =>
    have many := leaves.1
    rw [List.append_assoc, expandFrom_ofRow repeated short, expandFrom_ofRow repeated short,
      ← List.append_assoc, List.replicate_append_replicate, Nat.sub_add_cancel (by omega)]
  · exact expandFrom_ofRow repeated short count later

end Rows

section Runs

variable {previous value : UInt8} {run : Run UInt8} {cut : List (Run UInt8)}

/-- The number of lengths by themselves that a run has to start with: one for a new nonzero length.
-/
def openings (previous : UInt8) (run : Run UInt8) : Nat :=
  if run.value = 0 ∨ run.value = previous then 0 else 1

/-- The number of lengths of a run that repeat. -/
def repeats (previous : UInt8) (run : Run UInt8) : Nat := run.size - openings previous run

/-- The tokens of a run are its opening and the tokens of its repeats. -/
theorem ofRun_eq (previous : UInt8) (run : Run UInt8) : ofRun previous run =
    List.replicate (openings previous run) (literal run.value) ++
      ofRow run.value (repeats previous run) := by
  by_cases zero : run.value = 0
  · simp [ofRun, openings, repeats, ofRow, zero]
  · by_cases same : run.value = previous
    · simp [ofRun, openings, repeats, ofRow, same]
    · simp [ofRun, openings, repeats, ofRow, zero, same]

/-- The fewest tokens of a run. -/
def shortestRun (previous : UInt8) (run : Run UInt8) : List Token :=
  List.replicate (openings previous run) (literal run.value) ++
    shortestRow run.value (repeats previous run)

/-- The number of tokens that a run takes at least. -/
def leastOfRun (previous : UInt8) (run : Run UInt8) : Nat :=
  openings previous run + leastPieces (mostRepeats run.value) (repeats previous run)

/-- The fewest tokens of a run stand for it. -/
theorem expandFrom_shortestRun (short : run.value.toNat ≤ maxCodeLength) (filled : 0 < run.size)
    (previous : UInt8) (later : List Token) :
    expandFrom previous (shortestRun previous run ++ later) =
      run.toList ++ expandFrom (previousAfter previous run) later := by
  by_cases repeated : run.value = 0 ∨ run.value = previous
  · have after : previousAfter previous run = previous := by
      rw [previousAfter]
      split
      · rfl
      · next positive => exact repeated.resolve_left positive
    rw [shortestRun, repeats, openings, if_pos repeated, List.replicate_zero, List.nil_append,
      expandFrom_shortestRow repeated short, after, Nat.sub_zero, Run.toList]
  · have positive : run.value ≠ 0 := fun zero => repeated (.inl zero)
    have size : run.size = run.size - 1 + 1 := by omega
    rw [shortestRun, repeats, openings, if_neg repeated, List.replicate_one, List.append_assoc,
      List.singleton_append, expandFrom_literal short, if_neg positive,
      expandFrom_shortestRow (.inr rfl) short, previousAfter, if_neg positive, Run.toList, size,
      List.replicate_succ, Nat.add_sub_cancel, List.cons_append]

/-- The tokens of runs. -/
def ofAllRuns (previous : UInt8) : List (Run UInt8) → List Token
  | [] => []
  | run :: rest => ofRun previous run ++ ofAllRuns (previousAfter previous run) rest

/-- The fewest tokens of runs. -/
def shortest (previous : UInt8) : List (Run UInt8) → List Token
  | [] => []
  | run :: rest => shortestRun previous run ++ shortest (previousAfter previous run) rest

/-- The number of tokens that runs take at least. -/
def least (previous : UInt8) : List (Run UInt8) → Nat
  | [] => 0
  | run :: rest => leastOfRun previous run + least (previousAfter previous run) rest

/-- The number of runs that leave two lengths behind full pieces. -/
def wastefulRuns (previous : UInt8) : List (Run UInt8) → Nat
  | [] => 0
  | run :: rest => (if LeavesTwo (mostRepeats run.value) (repeats previous run) then 1 else 0) +
      wastefulRuns (previousAfter previous run) rest

/-- Runs have these tokens when the limit allows as many. -/
theorem ofRuns_eq_ok {limit spent : Nat} (short : ∀ run ∈ cut, run.value.toNat ≤ maxCodeLength)
    (room : spent + (ofAllRuns previous cut).length ≤ limit) :
    ofRuns limit spent previous cut = .ok (ofAllRuns previous cut) := by
  induction cut generalizing spent previous with
  | nil => rfl
  | cons run rest ih =>
    rw [List.forall_mem_cons] at short
    rw [ofAllRuns, List.length_append] at room
    exact ofRuns_cons_eq_ok_iff.mpr ⟨short.1, by omega, _, ih short.2 (by omega), rfl⟩

/-- The tokens of all runs are the least number and one more for each wasteful run. -/
theorem length_ofAllRuns (previous : UInt8) (cut : List (Run UInt8)) :
    (ofAllRuns previous cut).length = least previous cut + wastefulRuns previous cut := by
  induction cut generalizing previous with
  | nil => rfl
  | cons run rest ih =>
    rw [ofAllRuns, List.length_append, ih, ofRun_eq, List.length_append, List.length_replicate,
      length_ofRow, least, leastOfRun, wastefulRuns]
    omega

/-- The shortest tokens are the least number. -/
theorem length_shortest (previous : UInt8) (cut : List (Run UInt8)) :
    (shortest previous cut).length = least previous cut := by
  induction cut generalizing previous with
  | nil => rfl
  | cons run rest ih =>
    rw [shortest, List.length_append, ih, shortestRun, List.length_append, List.length_replicate,
      length_shortestRow, least, leastOfRun]

/-- The shortest tokens are well formed. -/
theorem wellFormed_shortest (short : ∀ run ∈ cut, run.value.toNat ≤ maxCodeLength)
    (previous : UInt8) :
    ∀ token ∈ shortest previous cut, token.WellFormed := by
  induction cut generalizing previous with
  | nil => simp [shortest]
  | cons run rest ih =>
    rw [List.forall_mem_cons] at short
    rw [shortest, shortestRun, List.forall_mem_append, List.forall_mem_append]
    refine ⟨⟨fun token member => ?_, wellFormed_shortestRow short.1 _⟩, ih short.2 _⟩
    rw [List.eq_of_mem_replicate member]
    exact wellFormed_literal short.1

/-- The fewest tokens of runs stand for the runs. -/
theorem expandFrom_shortest (short : ∀ run ∈ cut, run.value.toNat ≤ maxCodeLength)
    (filled : ∀ run ∈ cut, 0 < run.size) (previous : UInt8) :
    expandFrom previous (shortest previous cut) = Run.layout cut := by
  induction cut generalizing previous with
  | nil => rfl
  | cons run rest ih =>
    rw [List.forall_mem_cons] at short filled
    rw [shortest, expandFrom_shortestRun short.1 filled.1, ih short.2 filled.2, Run.layout_cons]

end Runs

section Bound

variable {previous value : UInt8} {size : Nat} {token : Token}

/-- What a token stands for after a previous length: a length by itself, or a repeat of zero or of
the previous length. -/
structure Reads (previous : UInt8) (token : Token) (value : UInt8) (size : Nat) : Prop where
  /-- The token stands for equal lengths. -/
  expand : ∀ rest, expandFrom previous (token :: rest) =
    List.replicate size value ++ expandFrom (previousAfter previous ⟨value, size⟩) rest
  /-- One token stands for one piece. -/
  piece : size = 1 ∨ (3 ≤ size ∧ size ≤ mostRepeats value)
  /-- Only zero and the previous length are repeated. -/
  repeated : size = 1 ∨ value = 0 ∨ value = previous

/-- A token that can be written stands for equal lengths. -/
theorem exists_reads (written : token.WellFormed) (positive : previous ≠ 0) :
    ∃ value size, Reads previous token value size := by
  obtain ⟨code, extra⟩ := token
  obtain ⟨inside, bits⟩ := written
  have after : ∀ size, previousAfter previous ⟨previous, size⟩ = previous := fun size => by
    rw [previousAfter, if_neg positive]
  by_cases isPrevious : code = repeatPrevious
  · subst isPrevious
    have small : extra.toNat < 2 ^ 2 := bits
    refine ⟨previous, 3 + extra.toNat, fun rest => ?_, .inr ⟨by omega, ?_⟩, .inr (.inr rfl)⟩
    · rw [expandFrom_repeatPrevious, after]
    · rw [mostRepeats, if_neg positive]
      omega
  by_cases isShort : code = repeatZerosShort
  · subst isShort
    have small : extra.toNat < 2 ^ 3 := bits
    refine ⟨0, 3 + extra.toNat, fun rest => ?_, .inr ⟨by omega, ?_⟩, .inr (.inl rfl)⟩
    · rw [expandFrom_repeatZerosShort, previousAfter, if_pos rfl]
    · rw [mostRepeats, if_pos rfl]
      omega
  by_cases isLong : code = repeatZerosLong
  · subst isLong
    have small : extra.toNat < 2 ^ 7 := bits
    refine ⟨0, 11 + extra.toNat, fun rest => ?_, .inr ⟨by omega, ?_⟩, .inr (.inl rfl)⟩
    · rw [expandFrom_repeatZerosLong, previousAfter, if_pos rfl]
    · rw [mostRepeats, if_pos rfl]
      omega
  · refine ⟨code, 1, fun rest => ?_, .inl rfl, .inl rfl⟩
    rw [expandFrom, if_neg isPrevious, if_neg (not_or.mpr ⟨isShort, isLong⟩)]
    rfl

/-- Lengths in front that one token stands for make a run take one token more at most. -/
theorem leastOfRun_add_le (reads : Reads previous token value size) (count : Nat) :
    leastOfRun previous ⟨value, count + size⟩ ≤ leastPieces (mostRepeats value) count + 1 := by
  have wide := four_le_mostRepeats value
  by_cases repeated : value = 0 ∨ value = previous
  · rw [leastOfRun, repeats, openings, if_pos repeated, Nat.zero_add, Nat.sub_zero]
    exact leastPieces_add_le (by omega) reads.piece count
  · obtain rfl := reads.repeated.resolve_right repeated
    rw [leastOfRun, repeats, openings, if_neg repeated, Nat.add_sub_cancel]
    exact Nat.le_of_eq (Nat.add_comm ..)

/-- Lengths in front that one token stands for take one token more at most. -/
theorem least_replicate_append_le (reads : Reads previous token value size) (lengths : List UInt8) :
    least previous (Run.runs (List.replicate size value ++ lengths)) ≤
      least (previousAfter previous ⟨value, size⟩) (Run.runs lengths) + 1 := by
  obtain ⟨more, rfl⟩ : ∃ more, size = more + 1 := by
    have := reads.piece
    exact ⟨size - 1, by omega⟩
  have alone : leastOfRun previous ⟨value, more + 1⟩ ≤ 1 := by
    have added := leastOfRun_add_le reads 0
    rwa [Nat.zero_add] at added
  rw [Run.runs_replicate_append]
  cases Run.runs lengths with
  | nil =>
    rw [least, least, least]
    omega
  | cons run later =>
    by_cases same : run.value = value
    · obtain ⟨first, count⟩ := run
      obtain rfl : first = value := same
      have added := leastOfRun_add_le reads count
      have own : openings (previousAfter previous ⟨first, more + 1⟩) ⟨first, count⟩ = 0 := by
        by_cases zero : first = 0 <;> simp [openings, previousAfter, zero]
      have after : previousAfter (previousAfter previous ⟨first, more + 1⟩) ⟨first, count⟩ =
          previousAfter previous ⟨first, count + (more + 1)⟩ := by
        by_cases zero : first = 0 <;> simp [previousAfter, zero]
      have merged : least (previousAfter previous ⟨first, more + 1⟩) (⟨first, count⟩ :: later) =
          leastPieces (mostRepeats first) count +
            least (previousAfter previous ⟨first, count + (more + 1)⟩) later := by
        rw [least, after, leastOfRun, repeats, own, Nat.zero_add, Nat.sub_zero]
      simp only [↓reduceIte]
      rw [least, merged]
      omega
    · simp only [if_neg same]
      rw [least]
      omega

/-- No tokens that stand for lengths are fewer than the lengths take at least. -/
theorem least_le_length {tokens : List Token} (written : ∀ token ∈ tokens, token.WellFormed)
    (positive : previous ≠ 0) :
    least previous (Run.runs (expandFrom previous tokens)) ≤ tokens.length := by
  induction tokens generalizing previous with
  | nil => exact Nat.le_refl _
  | cons token rest ih =>
    rw [List.forall_mem_cons] at written
    obtain ⟨value, size, reads⟩ := exists_reads written.1 positive
    have after : previousAfter previous ⟨value, size⟩ ≠ 0 := by
      rw [previousAfter]
      split
      · exact positive
      · next nonzero => exact nonzero
    rw [reads.expand, List.length_cons]
    exact Nat.le_trans (least_replicate_append_le reads _) (Nat.succ_le_succ (ih written.2 after))

end Bound

section Lengths

variable {lengths : List UInt8}

/-- The tokens that the runs of lengths take at least are the fewest that can be written and stand
for the lengths. -/
theorem isLeast_least (short : ∀ length ∈ lengths, length.toNat ≤ maxCodeLength) :
    IsLeast {size | ∃ other : List Token, (∀ token ∈ other, token.WellFormed) ∧
      expand other = lengths ∧ other.length = size} (least initialPrevious (Run.runs lengths)) := by
  have values := short_of_mem_runs short
  have filled := (Run.runs_separate lengths).size_pos
  constructor
  · refine ⟨shortest initialPrevious (Run.runs lengths), wellFormed_shortest values _, ?_,
      length_shortest _ _⟩
    rw [expand, expandFrom_shortest values filled, Run.layout_runs]
  · rintro size ⟨other, written, expanded, rfl⟩
    have bound := least_le_length written (show initialPrevious ≠ 0 by decide)
    rwa [← expand, expanded] at bound

/-- The tokens of lengths are as few as any that can be written and stand for the same lengths,
except that every run takes one more that leaves two lengths behind full pieces. -/
theorem ofLengths_exceeds_shortest (lengths : List UInt8)
    (short : ∀ length ∈ lengths, length.toNat ≤ 15) :
    ∃ tokens fewest, tokens.length ≤ lengths.length ∧
      (∀ budget, tokens.length ≤ budget → ofLengths lengths budget = .ok tokens) ∧
      IsLeast {size | ∃ other : List Token, (∀ token ∈ other, token.WellFormed) ∧
        expand other = lengths ∧ other.length = size} fewest ∧
      tokens.length = fewest + wastefulRuns initialPrevious (Run.runs lengths) := by
  have tokens : ∀ budget, (ofAllRuns initialPrevious (Run.runs lengths)).length ≤ budget →
      ofLengths lengths budget = .ok (ofAllRuns initialPrevious (Run.runs lengths)) :=
    fun budget room => ofRuns_eq_ok (short_of_mem_runs short) (by rwa [Nat.zero_add])
  refine ⟨_, _, ?_, tokens, isLeast_least short, length_ofAllRuns _ _⟩
  obtain ⟨made, found, few⟩ := exists_ofLengths short
    (Nat.le_max_left _ (ofAllRuns initialPrevious (Run.runs lengths)).length)
  obtain rfl := Except.ok.inj ((tokens _ (Nat.le_max_right _ _)).symm.trans found)
  exact few

/-- Nine equal lengths are a length by itself and eight repeats: six, and two that have a token
each. Five and three repeats take one token less. -/
theorem ofLengths_exceeds_shortest_of_nine_lengths :
    ∃ tokens, ofLengths (List.replicate 9 5) 9 = .ok tokens ∧
      IsLeast {size | ∃ other : List Token, (∀ token ∈ other, token.WellFormed) ∧
        expand other = List.replicate 9 5 ∧ other.length = size} 3 ∧ tokens.length = 3 + 1 := by
  obtain ⟨tokens, fewest, few, made, isLeast, length⟩ :=
    ofLengths_exceeds_shortest (List.replicate 9 5) (by simp)
  have one : wastefulRuns initialPrevious (Run.runs (List.replicate 9 5)) = 1 := by decide
  have run : ofLengths (List.replicate 9 5) 9 =
      .ok [literal 5, ⟨repeatPrevious, 3⟩, literal 5, literal 5] := by rfl
  obtain rfl := Except.ok.inj (run.symm.trans (made 9 few))
  rw [one] at length
  obtain rfl : fewest = 3 := (Nat.succ.inj length).symm
  exact ⟨_, run, isLeast, length⟩

end Lengths

end Token

end CanonicalHuffman
