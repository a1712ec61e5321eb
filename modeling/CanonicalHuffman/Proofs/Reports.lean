import CanonicalHuffman.Proofs.Decoding
import CanonicalHuffman.Proofs.Printouts

/-!
# Reports agree with the table

A report looks every symbol up in the table it is about, which is no fault in a consistent table. In
a sound table the symbols without a code are those whose shaped count is zero, so a row shows a dash
exactly there, and the bits of all rows are the lengths that the tokens stand for.
-/

namespace CanonicalHuffman

namespace CodeTable

variable {table : CodeTable} {symbol : Nat}

/-- A symbol has no code when it has no length or length zero. -/
theorem code?_eq_ok_none_iff : table.code? symbol = .ok none ↔
    table.lengths[symbol]? = none ∨ table.lengths[symbol]? = some 0 := by
  unfold code?
  grind

/-- Looking up a symbol in a consistent table is no fault. -/
theorem Consistent.code?_ok (consistent : table.Consistent) (symbol : Nat) :
    ∃ code, table.code? symbol = .ok code := by
  cases found : table.lengths[symbol]? with
  | none => exact ⟨none, code?_eq_ok_none_iff.mpr (.inl found)⟩
  | some length =>
    by_cases zero : length = 0
    · rw [zero] at found
      exact ⟨none, code?_eq_ok_none_iff.mpr (.inr found)⟩
    · obtain ⟨code, coded⟩ := consistent.exists_code? found zero
      exact ⟨_, coded⟩

end CodeTable

namespace Row

variable {row : Row}

/-- A dash stands for no code. -/
theorem codeText_eq_dash_iff : row.codeText = ['-'] ↔ row.code = none := by
  obtain ⟨symbol, count, shaped, code⟩ := row
  cases code with
  | none => exact iff_of_true rfl rfl
  | some pair =>
    refine iff_of_false (fun dash => ?_) (fun uncoded => nomatch uncoded)
    have member : '-' ∈ Text.binary pair.2.toNat pair.1.toNat := by
      change Text.binary pair.2.toNat pair.1.toNat = ['-'] at dash
      rw [dash]
      exact List.mem_singleton.mpr rfl
    rcases Text.mem_binary member with zero | one
    · exact absurd zero (by decide)
    · exact absurd one (by decide)

/-- A row that shows what a table holds for its symbol. -/
structure Shows (row : Row) (counts : Histogram) (built : Built) : Prop where
  /-- The count is the given one. -/
  count_eq : counts[row.symbol]? = some row.count
  /-- The shaped count is the one the table was built from. -/
  shaped_eq : built.counts[row.symbol]? = some row.shaped
  /-- The code is the one in the table. -/
  code_eq : built.table.code? row.symbol = .ok row.code

namespace Shows

variable {counts : Histogram} {built : Built} {limit : Nat}

/-- A symbol has no code exactly when its shaped count is zero. -/
theorem code_eq_none_iff (shows : row.Shows counts built) (sound : built.Sound limit) :
    row.code = none ↔ row.shaped = 0 := by
  obtain ⟨inside, _⟩ := List.getElem?_eq_some_iff.mp shows.shaped_eq
  have within : row.symbol < built.table.lengths.length := by rwa [sound.depths.length_eq]
  have zero := sound.depths.zero_iff row.symbol
  rw [shows.shaped_eq, Option.some.injEq] at zero
  rw [← zero, ← Except.ok.injEq (ε := Fault), ← shows.code_eq, CodeTable.code?_eq_ok_none_iff,
    List.getElem?_eq_getElem within]
  simp

/-- A row shows the length of its symbol. -/
theorem bits_eq (shows : row.Shows counts built) {length : UInt8}
    (found : built.table.lengths[row.symbol]? = some length) : row.bits = length.toNat := by
  have looked := shows.code_eq
  rw [bits]
  split
  · next code own shown =>
    rw [shown] at looked
    have same := (CodeTable.code?_eq_ok_some_iff.mp looked).1
    rw [found, Option.some.injEq] at same
    rw [same]
  · next shown =>
    rw [shown, CodeTable.code?_eq_ok_none_iff, found] at looked
    simp only [reduceCtorEq, Option.some.injEq, false_or] at looked
    rw [looked]
    rfl

/-- A code is shown with as many digits as it has bits. -/
theorem length_codeText (shows : row.Shows counts built) (sound : built.Sound limit)
    (coded : row.code ≠ none) : row.codeText.length = row.bits ∧
      ∀ char ∈ row.codeText, char = '0' ∨ char = '1' := by
  obtain ⟨⟨code, length⟩, shown⟩ := Option.ne_none_iff_exists'.mp coded
  have looked := shows.code_eq
  rw [shown] at looked
  have small := sound.readable.code_lt looked
  have positive := (CodeTable.code?_eq_ok_some_iff.mp looked).2.1
  have wide : 0 < length.toNat := Nat.pos_of_ne_zero fun zero => positive (UInt8.toNat_inj.mp zero)
  rw [codeText, bits, shown]
  exact ⟨Text.length_binary_of_lt wide small, fun char => Text.mem_binary⟩

end Shows

end Row

namespace Report

variable {table : CodeTable}

/-- The rows of a consistent table, one after the other. -/
theorem rowsFrom_ok (consistent : table.Consistent) {start : Nat} {counts shaped : Histogram}
    (sizes : shaped.length = counts.length) :
    ∃ rows, rowsFrom table start counts shaped = .ok rows ∧ rows.length = counts.length ∧
      ∀ (index : Nat) (row : Row), rows[index]? = some row → row.symbol = start + index ∧
        counts[index]? = some row.count ∧ shaped[index]? = some row.shaped ∧
        table.code? row.symbol = .ok row.code := by
  induction counts generalizing start shaped with
  | nil => exact ⟨[], by rw [rowsFrom]; simp, rfl, by simp⟩
  | cons count rest ih =>
    match shaped, sizes with
    | shapedCount :: shaped, sizes =>
      obtain ⟨code, looked⟩ := consistent.code?_ok start
      obtain ⟨rows, made, length, shown⟩ := @ih (start + 1) shaped (Nat.succ.inj sizes)
      refine ⟨⟨start, count, shapedCount, code⟩ :: rows, ?_, congrArg (· + 1) length, ?_⟩
      · rw [rowsFrom, looked]
        simp only [bind, Except.bind, made]
        rfl
      · intro index row found
        cases index with
        | zero =>
          obtain rfl := Option.some.inj found
          exact ⟨rfl, rfl, rfl, looked⟩
        | succ index =>
          obtain ⟨symbol, others⟩ := shown index row found
          exact ⟨symbol.trans (by omega), others⟩

/-- Numbers are added up one after the other when 64 bits hold their sum. -/
theorem foldlM_addWords {numbers : List Nat} {start : Nat}
    (light : start + numbers.sum < UInt64.size) :
    numbers.foldlM addWords start = .ok (start + numbers.sum) := by
  induction numbers generalizing start with
  | nil => rfl
  | cons number rest ih =>
    rw [List.sum_cons, ← Nat.add_assoc] at light
    have added : addWords start number = .ok (start + number) :=
      addWords_eq_ok_iff.mpr ⟨Nat.lt_of_le_of_lt (Nat.le_add_right ..) light, rfl⟩
    rw [List.foldlM_cons, added, List.sum_cons, ← Nat.add_assoc]
    exact ih light

/-- The payloads of a table within the format fit 64 bits when there are not too many symbols. -/
theorem sum_payloads_lt {counts : Histogram} {lengths : List UInt8}
    (within : ∀ length ∈ lengths, length.toNat ≤ maxCodeLength) (few : counts.length < 2 ^ 28) :
    (payloads counts lengths).sum < 2 ^ 64 := by
  have each : (payloads counts lengths).sum ≤ counts.length * (2 ^ 32 * 15) := by
    clear few
    induction counts generalizing lengths with
    | nil => exact Nat.zero_le _
    | cons count counts ih =>
      cases lengths with
      | nil => exact Nat.zero_le _
      | cons length lengths =>
        rw [List.forall_mem_cons] at within
        have product : count.toNat * length.toNat ≤ 2 ^ 32 * 15 :=
          Nat.mul_le_mul (Nat.le_of_lt count.toNat_lt) within.1
        have later := ih within.2
        rw [payloads, List.zipWith_cons_cons, List.sum_cons, List.length_cons]
        rw [payloads] at later
        omega
  omega

/-- A report that agrees with the table it is about. -/
structure Describes (report : Report) (counts : Histogram) (built : Built) (withTokens : Bool) :
    Prop where
  /-- There is one row per symbol. -/
  length_rows : report.rows.length = counts.length
  /-- The rows are in symbol order, and each shows what the table holds. -/
  shows : ∀ (symbol : Nat) (row : Row), report.rows[symbol]? = some row →
    row.symbol = symbol ∧ row.Shows counts built
  /-- The symbols with a code are counted. -/
  used_eq : report.used = built.table.usedCount
  /-- The longest code length is named. -/
  longest_eq : report.longest = built.table.longest
  /-- The payload counts the bits of all symbols. -/
  payload_eq : report.payload = (payloads counts built.table.lengths).sum
  /-- The tokens are those of the table, if they are wanted. -/
  tokens_eq : withTokens → ∃ tokens histogram, built.table.tokens = .ok tokens ∧
    Token.histogram tokens = .ok histogram ∧ report.tokenSection = some ⟨tokens, histogram⟩
  /-- There are no tokens unless they are wanted. -/
  tokens_none : withTokens = false → report.tokenSection = none

/-- A sound table has a section of tokens. -/
theorem exists_section {built : Built} {limit : Nat} (sound : built.Sound limit)
    (short : limit ≤ maxCodeLength) : ∃ tokens histogram, built.table.tokens = .ok tokens ∧
      Token.histogram tokens = .ok histogram ∧
      sectionOf built.table = .ok ⟨tokens, histogram⟩ := by
  obtain ⟨tokens, tokenized, _⟩ := sound.exists_tokens short
  obtain ⟨histogram, counted⟩ : ∃ histogram, Token.histogram tokens = .ok histogram :=
    ⟨_, Token.histogram_eq (Token.wellFormed_of_ofLengths tokenized)⟩
  refine ⟨tokens, histogram, tokenized, counted, ?_⟩
  simp only [sectionOf, tokenized, counted, bind, Except.bind]
  rfl

/-- A sound table has a report that agrees with it, unless there are very many symbols. -/
theorem ofBuilt_ok {counts : Histogram} {built : Built} {limit : Nat} (sound : built.Sound limit)
    (sizes : built.counts.length = counts.length) (short : limit ≤ maxCodeLength)
    (few : counts.length < 2 ^ 28) (withTokens : Bool) :
    ∃ report, ofBuilt counts built withTokens = .ok report ∧
      report.Describes counts built withTokens := by
  obtain ⟨rows, made, length, shown⟩ := @rowsFrom_ok _ sound.readable.consistent 0 _ _ sizes
  have shows : ∀ (symbol : Nat) (row : Row), rows[symbol]? = some row →
      row.symbol = symbol ∧ row.Shows counts built := by
    intro symbol row found
    obtain ⟨same, atCount, atShaped, looked⟩ := shown symbol row found
    rw [Nat.zero_add] at same
    refine ⟨same, ?_, ?_, looked⟩
    · rwa [same]
    · rwa [same]
  obtain ⟨payload, added, payloadEq⟩ : ∃ payload,
      (payloads counts built.table.lengths).foldlM addWords 0 = .ok payload ∧
        payload = (payloads counts built.table.lengths).sum := by
    refine ⟨_, foldlM_addWords ?_, Nat.zero_add _⟩
    rw [Nat.zero_add]
    exact sum_payloads_lt (sound.length_le short) few
  cases withTokens with
  | false =>
    refine ⟨⟨rows, built.table.usedCount, built.table.longest, payload, none⟩, ?_, length, shows,
      rfl, rfl, payloadEq, nofun, fun _ => rfl⟩
    simp only [ofBuilt, made, added, bind, Except.bind]
    rfl
  | true =>
    obtain ⟨tokens, histogram, tokenized, counted, sectioned⟩ := exists_section sound short
    refine ⟨⟨rows, built.table.usedCount, built.table.longest, payload, some ⟨tokens, histogram⟩⟩,
      ?_, length, shows, rfl, rfl, payloadEq, fun _ => ⟨tokens, histogram, tokenized, counted, rfl⟩,
      nofun⟩
    simp only [ofBuilt, made, added, sectioned, bind, Except.bind, Except.map]
    rfl

namespace Describes

variable {report : Report} {counts : Histogram} {built : Built} {withTokens : Bool} {limit : Nat}

/-- A column of the rows is a list that agrees with it at every symbol. -/
theorem map_eq {α : Type} {column : Row → α} {values : List α}
    (describes : report.Describes counts built withTokens) (sizes : values.length = counts.length)
    (agrees : ∀ row : Row, row.symbol < counts.length → row.Shows counts built →
      values[row.symbol]? = some (column row)) : report.rows.map column = values := by
  apply List.ext_getElem
  · rw [List.length_map, describes.length_rows, sizes]
  · intro symbol inside within
    rw [List.length_map] at inside
    obtain ⟨same, shows⟩ := describes.shows symbol _ (List.getElem?_eq_getElem inside)
    have found := agrees _ (by rwa [same, ← sizes]) shows
    rw [same, List.getElem?_eq_getElem within, Option.some.injEq] at found
    rw [List.getElem_map, found]

/-- The symbols of the rows are all symbols in order. -/
theorem map_symbol (describes : report.Describes counts built withTokens) :
    report.rows.map Row.symbol = List.range counts.length := by
  apply describes.map_eq List.length_range
  intro row inside _
  exact List.getElem?_range inside

/-- The counts of the rows are the given counts. -/
theorem map_count (describes : report.Describes counts built withTokens) :
    report.rows.map Row.count = counts := by
  apply describes.map_eq rfl
  intro row _ shows
  exact shows.count_eq

/-- The shaped counts of the rows are those the table was built from. -/
theorem map_shaped (describes : report.Describes counts built withTokens)
    (sizes : built.counts.length = counts.length) :
    report.rows.map Row.shaped = built.counts := by
  apply describes.map_eq sizes
  intro row _ shows
  exact shows.shaped_eq

/-- The bits of the rows are the code lengths. -/
theorem map_bits (describes : report.Describes counts built withTokens)
    (sizes : built.table.lengths.length = counts.length) :
    report.rows.map Row.bits = built.table.lengths.map UInt8.toNat := by
  apply describes.map_eq ((List.length_map _).trans sizes)
  intro row inside shows
  have within : row.symbol < built.table.lengths.length := by rwa [sizes]
  have found := List.getElem?_eq_getElem within
  rw [List.getElem?_map, found, Option.map_some, shows.bits_eq found]

/-- The payload adds up what the rows show. -/
theorem payload_eq_sum (describes : report.Describes counts built withTokens)
    (sizes : built.table.lengths.length = counts.length) :
    report.payload = (report.rows.map fun row => row.count.toNat * row.bits).sum := by
  have columns : payloads counts built.table.lengths =
      List.zipWith (fun count bits => count.toNat * bits) counts
        (built.table.lengths.map UInt8.toNat) := by
    rw [payloads, List.zipWith_map_right]
  have rows : List.zipWith (fun count bits => count.toNat * bits) (report.rows.map Row.count)
      (report.rows.map Row.bits) = report.rows.map fun row => row.count.toNat * row.bits := by
    rw [List.zipWith_map, List.zipWith_self]
  rw [describes.payload_eq, columns, ← describes.map_bits sizes, ← rows, describes.map_count]

/-- The printed symbols are all symbols in order. -/
theorem printed_symbols (describes : report.Describes counts built withTokens) :
    report.printed.rows.map PrintedRow.symbol = List.range counts.length :=
  List.map_map.trans describes.map_symbol

/-- The printed counts are the given counts. -/
theorem printed_counts (describes : report.Describes counts built withTokens) :
    report.printed.rows.map PrintedRow.count = counts.map UInt32.toNat := by
  rw [← describes.map_count, printed, List.map_map, List.map_map]
  rfl

/-- The printed shaped counts are those the table was built from. -/
theorem printed_shaped (describes : report.Describes counts built withTokens)
    (sizes : built.counts.length = counts.length) :
    report.printed.rows.map PrintedRow.shaped = built.counts.map UInt32.toNat := by
  rw [← describes.map_shaped sizes, printed, List.map_map, List.map_map]
  rfl

/-- The printed payload adds up what is printed of the rows. -/
theorem printed_payload (describes : report.Describes counts built withTokens)
    (sizes : built.table.lengths.length = counts.length) :
    report.printed.payload =
      (report.printed.rows.map fun row => row.count * row.bits).sum := by
  rw [printed, List.map_map]
  exact describes.payload_eq_sum sizes

/-- The printed tokens stand for the printed bits, and their codes are counted. -/
theorem printed_tokens (describes : report.Describes counts built withTokens)
    (sizes : built.table.lengths.length = counts.length) (wanted : withTokens = true) :
    ∃ shown, report.printed.tokens = some shown ∧ shown.announced = shown.tokens.length ∧
      (Token.expand shown.tokens).map UInt8.toNat = report.printed.rows.map PrintedRow.bits ∧
      ∃ histogram, Token.histogram shown.tokens = .ok histogram ∧
        shown.histogram = histogram.map UInt32.toNat := by
  obtain ⟨tokens, histogram, tokenized, counted, own⟩ := describes.tokens_eq wanted
  refine ⟨_, congrArg (Option.map _) own, rfl, ?_, histogram, counted, rfl⟩
  rw [printed, List.map_map]
  exact (congrArg _ (Token.expand_of_ofLengths tokenized)).trans (describes.map_bits sizes).symm

/-- A report on a table is read back from its text. -/
theorem ofText?_text (describes : report.Describes counts built withTokens) :
    Printout.ofText? report.text = some report.printed := by
  apply Report.ofText?_text
  intro tokenSection shown
  cases withTokens with
  | false =>
    rw [describes.tokens_none rfl] at shown
    cases shown
  | true =>
    obtain ⟨tokens, histogram, tokenized, _, own⟩ := describes.tokens_eq rfl
    obtain rfl := Option.some.inj (shown.symm.trans own)
    exact Token.wellFormed_of_ofLengths tokenized

end Describes

end Report

end CanonicalHuffman
