import CanonicalHuffman.CodeTable.Build
import CanonicalHuffman.Proofs.Fitting
import CanonicalHuffman.Proofs.PrefixFree
import CanonicalHuffman.Proofs.Shaping

/-!
# What a build makes

A build checks the sizes, the limit and the room for the used symbols, in this order. Past the
checks it always makes a readable table, whose lengths describe the counts it started from.
Shaping only adds used symbols, and it is undone where they no longer fit, so the checks judge the
counts as they were given.
-/

namespace CanonicalHuffman

/-- A table that describes the counts it was built from, with codes up to a limit. -/
structure Built.Sound (built : Built) (limit : Nat) : Prop where
  /-- The lengths are the depths of a code for the used symbols. -/
  depths : CodeDepths built.counts limit built.table.lengths
  /-- A reader can tell the codes apart. -/
  readable : built.table.Readable
  /-- The lengths decide the codes. -/
  decided : CodeTable.ofLengths? built.table.lengths = some built.table

namespace Histogram

variable {counts : Histogram} {limit : Nat}

/-- Within the longest length, fitting a limit is what its codes have room for. -/
theorem fits_iff (short : limit ≤ maxCodeLength) : counts.fits limit ↔ counts.used ≤ 2 ^ limit := by
  rw [fits, Nat.min_eq_left short, decide_eq_true_eq]

/-- Whatever a fit finds are the depths of a code for the used symbols. -/
theorem codeDepths_of_fit {previous : List UInt8} {fitting : Fitting}
    (found : counts.fit limit previous = .ok fitting) : CodeDepths counts limit fitting.depths := by
  have checked := found
  rw [fit] at checked
  split at checked
  · contradiction
  · next legal =>
    split at checked
    · contradiction
    · next sizes =>
      have fits : counts.used ≤ 2 ^ limit := by
        by_contra crowded
        have room := Nat.two_pow_pos limit
        have used : counts.used ≠ 0 := by omega
        rw [if_neg used, if_pos (by omega)] at checked
        contradiction
      obtain ⟨fitting', found', code⟩ := @fit_ok counts limit previous (by omega) (by omega)
        (not_not.mp sizes) fits
      rw [found, Except.ok.injEq] at found'
      rwa [found']

end Histogram

namespace CodeTable

variable {options : BuildOptions} {counts : Histogram} {previous : CodeTable}

/-- Shaping keeps the number of symbols. -/
@[simp] theorem length_startingCounts (options : BuildOptions) (counts : Histogram) :
    (startingCounts options counts).length = counts.length := by
  rw [startingCounts, Histogram.shapedWithin_eq]
  split
  · split
    · exact Histogram.length_shape counts
    · rfl
  · rfl

/-- A build starts from the shaped counts when they are wanted and fit the limit. -/
theorem startingCounts_eq (short : options.maxLength ≤ maxCodeLength) :
    startingCounts options counts =
      if options.shaping ∧ counts.shape.counts.used ≤ 2 ^ options.maxLength then
        counts.shape.counts
      else counts := by
  rw [startingCounts, Histogram.shapedWithin_eq]
  simp only [Histogram.fits_iff short]
  by_cases wanted : options.shaping <;> simp [wanted]

/-- A used symbol stays used. -/
theorem startingCounts_ne_zero (options : BuildOptions) {symbol : Nat} {count : UInt32}
    (found : counts[symbol]? = some count) (used : count ≠ 0) :
    ∃ start, (startingCounts options counts)[symbol]? = some start ∧ start ≠ 0 := by
  rw [startingCounts, Histogram.shapedWithin_eq]
  split
  · split
    · exact Histogram.shape_ne_zero found used
    · exact ⟨count, found, used⟩
  · exact ⟨count, found, used⟩

/-- The counts that a build starts from fit the limit exactly when the given ones do. -/
theorem used_startingCounts_le_iff (short : options.maxLength ≤ maxCodeLength) :
    (startingCounts options counts).used ≤ 2 ^ options.maxLength ↔
      counts.used ≤ 2 ^ options.maxLength := by
  rw [startingCounts_eq short]
  split
  · next shaped =>
    have more := counts.used_le_used_shape
    exact iff_of_true shaped.2 (Nat.le_trans more shaped.2)
  · rfl

/-- Counts that fit nothing are not shaped. -/
theorem startingCounts_of_lt (short : options.maxLength ≤ maxCodeLength)
    (crowded : 2 ^ options.maxLength < counts.used) : startingCounts options counts = counts := by
  have more := counts.used_le_used_shape
  rw [startingCounts_eq short, if_neg fun shaped => by omega]

/-- With matching sizes a build fits depths and assigns their codes. -/
theorem build_eq (sizes : counts.length = previous.lengths.length)
    (consistent : previous.Consistent) : build options counts previous = (do
      let fitting ← (startingCounts options counts).fit options.maxLength previous.lengths
      let table ← assignCodes { previous with lengths := fitting.depths }
      return { counts := startingCounts options counts, table }) := by
  have codes : previous.codes.length = previous.lengths.length := consistent
  rw [build, if_neg (not_not_intro sizes), if_neg (not_not_intro codes)]

/-- A build past its checks makes a sound table. -/
theorem build_ok (sizes : counts.length = previous.lengths.length)
    (consistent : previous.Consistent)
    (legal : 1 ≤ options.maxLength) (short : options.maxLength ≤ maxCodeLength)
    (fits : counts.used ≤ 2 ^ options.maxLength) :
    ∃ built, build options counts previous = .ok built ∧
      built.counts = startingCounts options counts ∧ built.Sound options.maxLength := by
  have startSizes := (length_startingCounts options counts).trans sizes
  obtain ⟨fitting, fitted, code⟩ :=
    Histogram.fit_ok legal short startSizes ((used_startingCounts_le_iff short).mpr fits)
  have kraft := code.kraft_maxCodeLength short
  have blank : Consistent { previous with lengths := fitting.depths } := by
    rw [Consistent, code.length_eq, startSizes]
    exact consistent
  obtain ⟨table, assigned⟩ := @exists_assignCodes { previous with lengths := fitting.depths }
    fun depth member => Nat.le_trans (code.within depth member) short
  have lengths : table.lengths = fitting.depths := lengths_of_assignCodes assigned
  refine ⟨⟨startingCounts options counts, table⟩, ?_, rfl, ?_, ?_, ?_⟩
  · rw [build_eq sizes consistent, fitted]
    simp only [bind, Except.bind, assigned]
    rfl
  · rwa [lengths]
  · exact readable_of_assignCodes blank assigned kraft
  · exact ofLengths?_of_assignCodes blank assigned

/-- A build past its checks succeeds on a fresh table of the right size. -/
theorem build_empty_ok (legal : 1 ≤ options.maxLength) (short : options.maxLength ≤ maxCodeLength)
    (fits : counts.used ≤ 2 ^ options.maxLength) {symbols : Nat} (sizes : counts.length = symbols) :
    ∃ built, build options counts (empty symbols) = .ok built ∧
      built.counts = startingCounts options counts ∧ built.Sound options.maxLength := by
  have lengths : (empty symbols).lengths.length = symbols := List.length_replicate
  have codes : (empty symbols).codes.length = symbols := List.length_replicate
  exact build_ok (sizes.trans lengths.symm) (codes.trans lengths.symm) legal short fits

/-- A build depends on the size of the table before it alone. -/
theorem build_congr {other : CodeTable} (sizes : counts.length = previous.lengths.length)
    (consistent : previous.Consistent) (otherSizes : counts.length = other.lengths.length)
    (otherConsistent : other.Consistent) :
    build options counts previous = build options counts other := by
  rw [build_eq sizes consistent, build_eq otherSizes otherConsistent,
    Histogram.fit_congr (sizes.symm.trans otherSizes)]
  cases fitted : (startingCounts options counts).fit options.maxLength other.lengths with
  | error fault => rfl
  | ok fitting =>
    have depths : fitting.depths.length = counts.length :=
      (Histogram.codeDepths_of_fit fitted).length_eq.trans (length_startingCounts options counts)
    have same : assignCodes { previous with lengths := fitting.depths } =
        assignCodes { other with lengths := fitting.depths } := by
      refine assignCodes_congr ?_ ?_ rfl
      · exact consistent.trans (sizes.symm.trans depths.symm)
      · exact otherConsistent.trans (otherSizes.symm.trans depths.symm)
    simp only [bind, Except.bind, same]

/-- An exact build starts from the counts as they are given. -/
theorem startingCounts_exact (limit : Nat) (counts : Histogram) :
    startingCounts ⟨limit, false⟩ counts = counts := rfl

/-- Building anew from the counts of a build, without shaping, gives the same. -/
theorem build_exact {built : Built} {other : CodeTable}
    (sizes : counts.length = previous.lengths.length)
    (consistent : previous.Consistent) (otherSizes : counts.length = other.lengths.length)
    (otherConsistent : other.Consistent) (found : build options counts previous = .ok built) :
    build ⟨options.maxLength, false⟩ built.counts other = .ok built := by
  rw [build_congr sizes consistent otherSizes otherConsistent,
    build_eq otherSizes otherConsistent] at found
  cases fitted : (startingCounts options counts).fit options.maxLength other.lengths with
  | error fault =>
    rw [fitted] at found
    contradiction
  | ok fitting =>
    cases assigned : assignCodes { other with lengths := fitting.depths } with
    | error fault =>
      simp only [fitted, bind, Except.bind, assigned] at found
      contradiction
    | ok table =>
      simp only [fitted, bind, Except.bind, assigned] at found
      obtain rfl := Except.ok.inj found
      have sizes : (startingCounts options counts).length = other.lengths.length :=
        (length_startingCounts options counts).trans otherSizes
      rw [build_eq sizes otherConsistent]
      simp only [startingCounts_exact, fitted, bind, Except.bind, assigned]
      rfl

/-- A limit outside the format is reported before the used symbols are counted. -/
theorem build_of_illegal (sizes : counts.length = previous.lengths.length)
    (consistent : previous.Consistent)
    (illegal : options.maxLength < 1 ∨ maxCodeLength < options.maxLength) :
    build options counts previous = .error (.limitOutOfRange options.maxLength) := by
  rw [build_eq sizes consistent, Histogram.fit, if_pos illegal]
  rfl

/-- Too many used symbols are reported as they are given, shaped or not. -/
theorem build_of_crowded (sizes : counts.length = previous.lengths.length)
    (consistent : previous.Consistent)
    (legal : ¬ (options.maxLength < 1 ∨ maxCodeLength < options.maxLength))
    (crowded : 2 ^ options.maxLength < counts.used) :
    build options counts previous = .error (.tooManySymbols counts.used options.maxLength) := by
  have room := Nat.two_pow_pos options.maxLength
  have used : counts.used ≠ 0 := by omega
  rw [build_eq sizes consistent, startingCounts_of_lt (by omega) crowded, Histogram.fit,
    if_neg legal, if_neg (not_not_intro sizes), if_neg used, if_pos crowded]
  rfl

/-- The first check that the arguments of a build fail. -/
def refusal? (options : BuildOptions) (counts : Histogram) (previous : CodeTable) : Option Fault :=
  if counts.length ≠ previous.lengths.length then
    some (.tableSize counts.length previous.lengths.length)
  else if previous.codes.length ≠ previous.lengths.length then
    some (.codesSize previous.codes.length previous.lengths.length)
  else if options.maxLength < 1 ∨ maxCodeLength < options.maxLength then
    some (.limitOutOfRange options.maxLength)
  else if 2 ^ options.maxLength < counts.used then
    some (.tooManySymbols counts.used options.maxLength)
  else none

/-- Arguments pass all checks when the sizes match, the limit is legal and the used symbols fit. -/
theorem refusal?_eq_none_iff : refusal? options counts previous = none ↔
    counts.length = previous.lengths.length ∧ previous.Consistent ∧ 1 ≤ options.maxLength ∧
      options.maxLength ≤ maxCodeLength ∧ counts.used ≤ 2 ^ options.maxLength := by
  unfold refusal? Consistent
  grind

/-- A build reports the first check that fails. -/
theorem build_of_refusal? {fault : Fault}
    (refused : refusal? options counts previous = some fault) :
    build options counts previous = .error fault := by
  rw [refusal?] at refused
  split at refused
  · next sizes =>
    obtain rfl := Option.some.inj refused
    rw [build, if_pos sizes]
  · next sizes =>
    split at refused
    · next codes =>
      obtain rfl := Option.some.inj refused
      rw [build, if_neg sizes, if_pos codes]
    · next codes =>
      split at refused
      · next illegal =>
        obtain rfl := Option.some.inj refused
        exact build_of_illegal (not_not.mp sizes) (not_not.mp codes) illegal
      · next legal =>
        split at refused
        · next crowded =>
          obtain rfl := Option.some.inj refused
          exact build_of_crowded (not_not.mp sizes) (not_not.mp codes) legal crowded
        · contradiction

/-- A build that passes all checks makes a sound table. -/
theorem build_of_refusal?_eq_none (accepted : refusal? options counts previous = none) :
    ∃ built, build options counts previous = .ok built ∧
      built.counts = startingCounts options counts ∧ built.Sound options.maxLength := by
  obtain ⟨sizes, consistent, legal, short, fits⟩ := refusal?_eq_none_iff.mp accepted
  exact build_ok sizes consistent legal short fits

/-- A build succeeds exactly when the sizes match, the limit is legal and the used symbols fit it as
they are given. Otherwise it reports the first check that fails. It leaves the shaped counts behind
when they are wanted and fit, and the table is that of an exact build from what is left behind. -/
theorem build_succeeds_iff (options : BuildOptions) (counts : Histogram) (previous : CodeTable) :
    ((∃ built, build options counts previous = .ok built) ↔
      counts.length = previous.lengths.length ∧
        previous.codes.length = previous.lengths.length ∧
        1 ≤ options.maxLength ∧ options.maxLength ≤ 15 ∧
        counts.used ≤ 2 ^ options.maxLength) ∧
    (∀ fault, build options counts previous = .error fault ↔
      refusal? options counts previous = some fault) ∧
    ∀ built, build options counts previous = .ok built →
      built.counts =
        (if options.shaping ∧ counts.shape.counts.used ≤ 2 ^ options.maxLength then
          counts.shape.counts
        else counts) ∧
      ∀ other : CodeTable, other.lengths.length = counts.length → other.Consistent →
        build ⟨options.maxLength, false⟩ built.counts other = .ok built := by
  cases refused : refusal? options counts previous with
  | some fault =>
    have failed := build_of_refusal? refused
    refine ⟨?_, ?_, ?_⟩
    · constructor
      · rintro ⟨built, done⟩
        rw [failed] at done
        contradiction
      · intro accepted
        have unrefused := refusal?_eq_none_iff.mpr accepted
        rw [refused] at unrefused
        contradiction
    · intro other
      rw [failed, Except.error.injEq, Option.some.injEq]
    · intro built done
      rw [failed] at done
      contradiction
  | none =>
    obtain ⟨made, done, start, _⟩ := build_of_refusal?_eq_none refused
    have accepted := refusal?_eq_none_iff.mp refused
    obtain ⟨sizes, consistent, _, short, _⟩ := refusal?_eq_none_iff.mp refused
    refine ⟨iff_of_true ⟨made, done⟩ accepted, ?_, ?_⟩
    · intro fault
      rw [done]
      exact iff_of_false (fun failed => nomatch failed) (fun failed => nomatch failed)
    · intro built again
      obtain rfl := Except.ok.inj (done.symm.trans again)
      refine ⟨start.trans (startingCounts_eq short), fun other otherSizes otherConsistent => ?_⟩
      exact build_exact sizes consistent otherSizes.symm otherConsistent done

/-- Two symbols fit codes of one bit, but a third one does not. -/
theorem build_succeeds_within_one_bit :
    ((∃ built, build ⟨1, true⟩ [3, 0, 2] ⟨[9, 9, 9], [1, 2, 3]⟩ = .ok built) ∧
      build ⟨1, true⟩ [3, 1, 2] ⟨[9, 9, 9], [1, 2, 3]⟩ = .error (.tooManySymbols 3 1)) ∧
    ∀ built, build ⟨1, true⟩ [3, 0, 2] ⟨[9, 9, 9], [1, 2, 3]⟩ = .ok built →
      build ⟨1, false⟩ built.counts (empty 3) = .ok built := by
  obtain ⟨fits, _, leaves⟩ := build_succeeds_iff ⟨1, true⟩ [3, 0, 2] ⟨[9, 9, 9], [1, 2, 3]⟩
  obtain ⟨_, refuses, _⟩ := build_succeeds_iff ⟨1, true⟩ [3, 1, 2] ⟨[9, 9, 9], [1, 2, 3]⟩
  refine ⟨⟨fits.mpr (by decide), (refuses _).mpr (by decide)⟩, ?_⟩
  intro built done
  obtain ⟨_, rebuilds⟩ := leaves built done
  exact rebuilds (empty 3) rfl rfl

end CodeTable

end CanonicalHuffman
