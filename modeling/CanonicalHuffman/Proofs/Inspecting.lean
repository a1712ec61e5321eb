import CanonicalHuffman.Inspection
import CanonicalHuffman.Proofs.Reports

/-!
# How an inspection ends

An inspection refuses an empty list of counts and counts that do not fit the wanted length. It
judges the counts as they are given, and so does the builder, so an inspection that is not refused
ends with a report, whether the counts are shaped or not.
-/

namespace CanonicalHuffman

variable {counts : Histogram} {maxLength : Nat} {exact withTokens : Bool}

/-- Counts that do not fit the wanted length are refused. -/
theorem inspect_of_lt (filled : counts ≠ []) (short : maxLength ≤ maxCodeLength)
    (crowded : 2 ^ maxLength < counts.used) : inspect counts maxLength exact withTokens =
      .error (.tooManySymbols counts.used maxLength) := by
  have misfit : (!counts.fits maxLength) = true := by
    rw [Bool.not_eq_true', ← Bool.not_eq_true, Histogram.fits_iff short]
    omega
  rw [inspect, if_neg filled, if_pos misfit]

/-- Counts that fit the wanted length have a sound table and a report that agrees with it. -/
theorem inspect_ok (filled : counts ≠ []) (legal : 1 ≤ maxLength)
    (short : maxLength ≤ maxCodeLength) (few : counts.length < 2 ^ 28)
    (fits : counts.used ≤ 2 ^ maxLength) :
    ∃ inspection, inspect counts maxLength exact withTokens = .ok inspection ∧
      CodeTable.build ⟨maxLength, !exact⟩ counts (.empty counts.length) = .ok inspection.built ∧
      inspection.built.counts = CodeTable.startingCounts ⟨maxLength, !exact⟩ counts ∧
      inspection.built.Sound maxLength ∧
      inspection.report.Describes counts inspection.built withTokens := by
  have fit : ¬ (!counts.fits maxLength) = true := by
    rw [Bool.not_eq_true', Bool.not_eq_false, Histogram.fits_iff short]
    exact fits
  obtain ⟨built, done, start, sound⟩ :=
    @CodeTable.build_empty_ok ⟨maxLength, !exact⟩ counts legal short fits _ rfl
  have sizes : built.counts.length = counts.length := by
    rw [start, CodeTable.length_startingCounts]
  obtain ⟨report, reported, describes⟩ := Report.ofBuilt_ok sound sizes short few withTokens
  refine ⟨⟨built, report⟩, ?_, done, start, sound, describes⟩
  rw [inspect, if_neg filled, if_neg fit]
  simp only [done, reported, bind, Except.bind]
  rfl

/-- The two refusals have different messages. -/
theorem message_noCounts_ne (used limit : Nat) : InspectionFailure.noCounts.message ≠
    (InspectionFailure.tooManySymbols used limit).message := by
  intro same
  have last := congrArg (fun message => message.toList.getLast?) same
  have bracket : (toString ")").toList.getLast? = some ')' := rfl
  simp [InspectionFailure.message, bracket] at last

/-- What a printed row shows of a table. -/
structure PrintedRow.Legible (row : PrintedRow) (table : CodeTable) : Prop where
  /-- A dash stands for a shaped count of zero. -/
  dash_iff : row.code = ['-'] ↔ row.shaped = 0
  /-- A symbol that was counted has a code. -/
  counted : row.count ≠ 0 → row.code ≠ ['-']
  /-- A dash has no bits. -/
  bits_of_dash : row.code = ['-'] → row.bits = 0
  /-- A code has as many binary digits as it has bits. -/
  digits : row.code ≠ ['-'] → row.code.length = row.bits ∧
    ∀ char ∈ row.code, char = '0' ∨ char = '1'
  /-- The digits and the bits are those of the code in the table. -/
  code_eq : row.code ≠ ['-'] → ∃ code length,
    table.code? row.symbol = .ok (some (code, length)) ∧ row.bits = length.toNat ∧
      Text.ofBinary? row.code = some code.toNat

/-- A row that shows what a sound table holds is legible when it is printed. -/
theorem Row.Shows.legible {row : Row} {built : Built} {options : BuildOptions}
    (start : built.counts = CodeTable.startingCounts options counts)
    (sound : built.Sound options.maxLength) (shows : row.Shows counts built) :
    row.printed.Legible built.table where
  dash_iff := by
    have zero : row.shaped = 0 ↔ row.shaped.toNat = 0 := UInt32.toNat_inj.symm
    exact Row.codeText_eq_dash_iff.trans ((shows.code_eq_none_iff sound).trans zero)
  counted := by
    intro filled dash
    have used : row.count ≠ 0 := fun zero => filled (congrArg UInt32.toNat zero)
    obtain ⟨code, length, coded⟩ := sound.exists_code?_of_used start shows.count_eq used
    rw [shows.code_eq, Row.codeText_eq_dash_iff.mp dash] at coded
    cases coded
  bits_of_dash := by
    intro dash
    change row.bits = 0
    rw [Row.bits, Row.codeText_eq_dash_iff.mp dash]
  digits := by
    intro coded
    exact shows.length_codeText sound fun uncoded => coded (Row.codeText_eq_dash_iff.mpr uncoded)
  code_eq := by
    intro coded
    obtain ⟨⟨code, length⟩, shown⟩ := Option.ne_none_iff_exists'.mp fun uncoded =>
      coded (Row.codeText_eq_dash_iff.mpr uncoded)
    refine ⟨code, length, shown ▸ shows.code_eq, ?_, ?_⟩
    · change row.bits = length.toNat
      rw [Row.bits, shown]
    · change Text.ofBinary? row.codeText = some code.toNat
      rw [Row.codeText, shown, Text.ofBinary?_binary]

/-- A run on counts that were read fails when there are none, fails when they do not fit the wanted
length, and otherwise prints a report. What is read back from the printed text has a row per symbol
with its counts, a dash exactly where the shaped count is zero, all digits of every code, the whole
payload, and, if they are wanted, tokens that stand for the bits of its rows. -/
theorem conclude_outcome (arguments : Arguments) (counts : Histogram)
    (few : counts.length < 2 ^ 28) (legal : 1 ≤ arguments.maxLength)
    (short : arguments.maxLength ≤ 15) :
    (conclude arguments (.ok counts) = .failed "no counts given" ↔ counts = []) ∧
    (conclude arguments (.ok counts) = .failed
        (s!"{counts.used} used symbols do not fit in {arguments.maxLength}-bit codes " ++
          s!"(at most {2 ^ arguments.maxLength})") ↔
      counts ≠ [] ∧ 2 ^ arguments.maxLength < counts.used) ∧
    (counts ≠ [] → counts.used ≤ 2 ^ arguments.maxLength →
      ∃ (built : Built) (text : String) (printout : Printout),
        CodeTable.build ⟨arguments.maxLength, !arguments.exact⟩ counts (.empty counts.length) =
          .ok built ∧
        conclude arguments (.ok counts) = .printed text ∧
        Printout.ofText? text = some printout ∧
        printout.columns = ["symbol", "count", "shaped", "bits", "code"].map String.toList ∧
        printout.rows.map PrintedRow.symbol = List.range counts.length ∧
        printout.rows.map PrintedRow.count = counts.map UInt32.toNat ∧
        printout.rows.map PrintedRow.shaped = built.counts.map UInt32.toNat ∧
        (∀ row ∈ printout.rows, row.Legible built.table) ∧
        printout.used = built.table.usedCount ∧
        printout.symbols = counts.length ∧
        printout.longest = built.table.longest.toNat ∧
        printout.payload = (printout.rows.map fun row => row.count * row.bits).sum ∧
        printout.payload < 2 ^ 64 ∧
        (arguments.tokens = false → printout.tokens = none) ∧
        (arguments.tokens = true → ∃ printed, printout.tokens = some printed ∧
          printed.announced = printed.tokens.length ∧
          (Token.expand printed.tokens).map UInt8.toNat = printout.rows.map PrintedRow.bits ∧
          ∃ histogram, Token.histogram printed.tokens = .ok histogram ∧
            printed.histogram = histogram.map UInt32.toNat)) := by
  by_cases empty : counts = []
  · subst empty
    have ends : conclude arguments (.ok []) = .failed InspectionFailure.noCounts.message := rfl
    refine ⟨iff_of_true ends rfl, iff_of_false (fun other => ?_) (fun filled => filled.1 rfl),
      fun filled => absurd rfl filled⟩
    rw [ends] at other
    exact message_noCounts_ne _ _ (Ending.failed.inj other)
  · by_cases fits : counts.used ≤ 2 ^ arguments.maxLength
    · obtain ⟨⟨built, report⟩, inspected, done, start, sound, describes⟩ :=
        @inspect_ok counts arguments.maxLength arguments.exact arguments.tokens empty legal short
          few fits
      have ends : conclude arguments (.ok counts) = .printed report.text := by
        simp only [conclude, inspected]
      have sizes : built.counts.length = counts.length := by
        rw [start, CodeTable.length_startingCounts]
      have lengths := sound.depths.length_eq.trans sizes
      have light : report.payload < 2 ^ 64 :=
        describes.payload_eq.trans_lt (Report.sum_payloads_lt (sound.length_le short) few)
      refine ⟨?_, ?_, fun _ _ => ⟨built, report.text, report.printed, done, ends,
        describes.ofText?_text, rfl, describes.printed_symbols, describes.printed_counts,
        describes.printed_shaped sizes, ?_, describes.used_eq, describes.length_rows,
        congrArg UInt8.toNat describes.longest_eq, describes.printed_payload lengths, light,
        fun unwanted => congrArg (Option.map _) (describes.tokens_none unwanted),
        describes.printed_tokens lengths⟩⟩
      · rw [ends]
        exact iff_of_false (fun failed => nomatch failed) empty
      · rw [ends]
        exact iff_of_false (fun failed => nomatch failed) (by omega)
      · intro shown member
        obtain ⟨row, printed, rfl⟩ := List.mem_map.mp member
        obtain ⟨symbol, found⟩ := List.mem_iff_getElem?.mp printed
        exact (describes.shows symbol row found).2.legible start sound
    · have crowded : 2 ^ arguments.maxLength < counts.used := Nat.lt_of_not_le fits
      have ends : conclude arguments (.ok counts) = .failed
          (InspectionFailure.tooManySymbols counts.used arguments.maxLength).message := by
        simp only [conclude, inspect_of_lt empty short crowded]
      refine ⟨iff_of_false (fun other => ?_) empty, iff_of_true ends ⟨empty, crowded⟩,
        fun _ few => absurd few fits⟩
      rw [ends] at other
      exact message_noCounts_ne _ _ (Ending.failed.inj other).symm

/-- Three counts end in a report with tokens, although one of them is zero. -/
theorem conclude_outcome_of_three_counts :
    ∃ (text : String) (printout : Printout),
      conclude ⟨.counts [3, 0, 1], 1, false, true⟩ (.ok [3, 0, 1]) = .printed text ∧
      Printout.ofText? text = some printout ∧
      printout.rows.map PrintedRow.symbol = [0, 1, 2] ∧
      printout.rows.map PrintedRow.count = [3, 0, 1] ∧ printout.tokens ≠ none := by
  obtain ⟨_, _, printed⟩ := conclude_outcome ⟨.counts [3, 0, 1], 1, false, true⟩ [3, 0, 1]
    (by decide) (by decide) (by decide)
  obtain ⟨_, text, printout, _, ends, shown, _, symbols, given, _, _, _, _, _, _, _, _, tokens⟩ :=
    printed (by decide) (by decide)
  obtain ⟨_, tokensShown, _⟩ := tokens rfl
  exact ⟨text, printout, ends, shown, symbols, given, tokensShown ▸ Option.some_ne_none _⟩

end CanonicalHuffman
