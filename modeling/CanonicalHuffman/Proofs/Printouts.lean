import CanonicalHuffman.Proofs.Tokens
import CanonicalHuffman.Report.Printout

/-!
# A printed report is read back

Every column of a row is a word, whatever width it is moved to, and what stands between two numbers
of a line is no digit, so rows, tokens and numbers are read back from their lines. No line holds a
line break, and only the lines between two paragraphs are empty, so a whole report is read back
from its text.
-/

namespace CanonicalHuffman

namespace Text

variable {number : Nat} {char : Char} {front : List Char}

/-- A number is written without other characters. -/
theorem notMem_toDigits (foreign : isDigit char = false) : char ∉ Nat.toDigits 10 number := by
  intro member
  rw [isDigit_of_mem_toDigits member] at foreign
  cases foreign

/-- Binary digits are no blanks and no line breaks. -/
theorem notMem_binary {width : Nat} (zero : char ≠ '0') (one : char ≠ '1') :
    char ∉ binary width number :=
  fun member => (mem_binary member).elim zero one

/-- Characters without a blank among them are one word. -/
theorem words_of_notMem {word : List Char} (filled : word ≠ []) (plain : ' ' ∉ word) :
    words word = [word] :=
  pieces_of_forall filled fun _ member => decide_eq_false fun blank => plain (blank ▸ member)

/-- The digits of a number are one word. -/
@[simp] theorem words_toDigits (number : Nat) :
    words (Nat.toDigits 10 number) = [Nat.toDigits 10 number] :=
  words_of_notMem Nat.toDigits_ne_nil (notMem_toDigits (by decide))

/-- A column has the words that are moved to its right end. -/
@[simp] theorem words_alignRight (width : Nat) (text : String) :
    words (alignRight width text).toList = words text.toList := by
  have blanks : (List.replicate (width - text.toList.length) ' ').all (· = ' ') :=
    List.all_eq_true.mpr fun char member => decide_eq_true (List.mem_replicate.mp member).2
  rw [alignRight, String.toList_ofList, List.leftpad]
  exact pieces_append_of_all blanks _

/-- A text without a line break in it. -/
def Unbroken (text : String) : Prop := '\n' ∉ text.toList

instance : DecidablePred Unbroken := fun text => inferInstanceAs (Decidable ('\n' ∉ text.toList))

/-- Two texts make up one without a line break when neither holds one. -/
theorem unbroken_append {text other : String} :
    Unbroken (text ++ other) ↔ Unbroken text ∧ Unbroken other := by
  rw [Unbroken, String.toList_append, List.mem_append, not_or, Unbroken, Unbroken]

/-- A number is written without a line break. -/
theorem unbroken_toString (number : Nat) : Unbroken (toString number) :=
  fun member => notMem_toDigits (by decide) (Nat.toList_repr ▸ member)

/-- A text is moved to the right end of a column without a line break. -/
theorem unbroken_alignRight {width : Nat} {text : String} :
    Unbroken (alignRight width text) ↔ Unbroken text := by
  rw [Unbroken, alignRight, String.toList_ofList, List.leftpad, List.mem_append, not_or, Unbroken]
  exact and_iff_right fun member => absurd (List.mem_replicate.mp member).2 (by decide)

/-- What holds no digit in front of a text adds no number to it. -/
theorem numbers_append_of_all (plain : front.all fun char => !isDigit char) (rest : List Char) :
    numbers (front ++ rest) = numbers rest :=
  congrArg (List.map decimal) (pieces_append_of_all plain rest)

/-- A number is read up to what holds no digit. -/
theorem numbers_toDigits_append (number : Nat) (between : List Char) (filled : between ≠ [])
    (plain : between.all fun char => !isDigit char) (rest : List Char) :
    numbers (Nat.toDigits 10 number ++ (between ++ rest)) = number :: numbers rest := by
  obtain ⟨separator, others, rfl⟩ := List.exists_cons_of_ne_nil filled
  rw [List.all_cons, Bool.and_eq_true] at plain
  have digits : pieces (fun char => !isDigit char) (Nat.toDigits 10 number) =
      [Nat.toDigits 10 number] :=
    pieces_of_forall Nat.toDigits_ne_nil fun char member => by
      rw [isDigit_of_mem_toDigits member]
      rfl
  have skipped := numbers_append_of_all plain.2 rest
  rw [numbers, numbers] at skipped
  rw [numbers, List.cons_append, pieces_append_cons plain.1, digits, List.map_append, skipped,
    List.map_singleton, decimal_toDigits, numbers]
  rfl

/-- A number is the last one of a text that goes on without a digit. -/
theorem numbers_toDigits_append_of_all (number : Nat) {rest : List Char} (filled : rest ≠ [])
    (plain : rest.all fun char => !isDigit char) :
    numbers (Nat.toDigits 10 number ++ rest) = [number] := by
  have last := numbers_toDigits_append number rest filled plain []
  rw [List.append_nil] at last
  exact last

end Text

/-- Entries are read back from what is written of them when each of them is. -/
theorem mapM_map_eq_some {α β γ : Type} (write : α → β) {read : β → Option γ} {shown : α → γ}
    {entries : List α} (each : ∀ entry ∈ entries, read (write entry) = some (shown entry)) :
    (entries.map write).mapM read = some (entries.map shown) := by
  induction entries with
  | nil => rfl
  | cons entry rest ih =>
    rw [List.forall_mem_cons] at each
    rw [List.map_cons, List.mapM_cons, each.1, ih each.2]
    rfl

namespace Row

/-- A code is shown as one word. -/
theorem words_codeText (row : Row) : Text.words row.codeText = [row.codeText] := by
  unfold codeText
  split
  · exact Text.words_of_notMem (Text.binary_ne_nil _ _)
      (Text.notMem_binary (by decide) (by decide))
  · rfl

/-- A code is shown without a line break. -/
theorem notMem_codeText (row : Row) : '\n' ∉ row.codeText := by
  unfold codeText
  split
  · exact Text.notMem_binary (by decide) (by decide)
  · decide

/-- The words of the heading are the names of the columns. -/
theorem words_heading : Text.words heading.toList =
    ["symbol", "count", "shaped", "bits", "code"].map String.toList := by
  decide

/-- The words of a row are its four numbers and its code. -/
theorem words_line (row : Row) : Text.words row.line.toList =
    [Nat.toDigits 10 row.symbol, Nat.toDigits 10 row.count.toNat,
      Nat.toDigits 10 row.shaped.toNat, Nat.toDigits 10 row.bits, row.codeText] := by
  have blank (front rest : String) : Text.words (front ++ " " ++ rest).toList =
      Text.words front.toList ++ Text.words rest.toList := by
    rw [String.toList_append, String.toList_append, List.append_assoc]
    exact Text.words_append_blank ..
  have blanks (front rest : String) : Text.words (front ++ "  " ++ rest).toList =
      Text.words front.toList ++ Text.words rest.toList := by
    rw [String.toList_append, String.toList_append, List.append_assoc]
    exact (Text.words_append_blank ..).trans (congrArg _ (Text.pieces_cons (decide_eq_true rfl) _))
  have digits (number : Nat) : Text.words (toString number).toList = [Nat.toDigits 10 number] := by
    rw [← Text.words_toDigits]
    exact congrArg Text.words Nat.toList_repr
  have word (value : UInt32) : Text.words (toString value).toList =
      [Nat.toDigits 10 value.toNat] := digits value.toNat
  rw [line, blanks, blank, blank, blank]
  simp only [Text.words_alignRight, String.toList_ofList, words_codeText, digits, word,
    List.cons_append, List.nil_append]

/-- A row is read back from its line. -/
theorem ofLine?_line (row : Row) : PrintedRow.ofLine? row.line.toList = some row.printed := by
  simp only [PrintedRow.ofLine?, words_line, Text.natural?_toDigits]
  rfl

/-- The line of a row is not empty. -/
theorem line_ne_nil (row : Row) : row.line.toList ≠ [] := by
  intro empty
  have words := words_line row
  rw [empty] at words
  cases words

/-- The line of a row holds no line break. -/
theorem unbroken_line (row : Row) : Text.Unbroken row.line := by
  have word (value : UInt32) : Text.Unbroken (toString value) := Text.unbroken_toString value.toNat
  have code : Text.Unbroken (String.ofList row.codeText) := by
    rw [Text.Unbroken, String.toList_ofList]
    exact notMem_codeText row
  simp only [line, Text.unbroken_append, Text.unbroken_alignRight, Text.unbroken_toString, word,
    code, and_true, true_and]
  decide

end Row

namespace TokenSection

/-- The words of a token line are the code, and the extra bits behind a plus sign if there are
any. -/
theorem words_tokenLine (token : Token) : Text.words (tokenLine token).toList =
    Nat.toDigits 10 token.code.toNat ::
      if 0 < token.extraBitCount then
        ['+' :: Text.binary token.extraBitCount token.extraBits.toNat]
      else [] := by
  have digits : (toString token.code).toList = Nat.toDigits 10 token.code.toNat := Nat.toList_repr
  have code : Text.words ("  " ++ alignRight 2 (toString token.code)).toList =
      [Nat.toDigits 10 token.code.toNat] := by
    rw [String.toList_append]
    refine (Text.pieces_append_of_all (by decide) _).trans ?_
    exact (Text.words_alignRight ..).trans (digits ▸ Text.words_toDigits _)
  rw [tokenLine]
  split
  · have extra : ' ' ∉ '+' :: Text.binary token.extraBitCount token.extraBits.toNat :=
      List.not_mem_cons_of_ne_of_not_mem (by decide) (Text.notMem_binary (by decide) (by decide))
    rw [String.toList_append, String.toList_append, String.toList_ofList, String.toList_ofList,
      List.append_assoc, List.cons_append, Text.words_append_blank, code, List.singleton_append,
      List.singleton_append, Text.words_of_notMem (List.cons_ne_nil _ _) extra]
  · exact code

/-- A token is read back from its line. -/
theorem tokenOfLine?_tokenLine {token : Token} (wellFormed : token.WellFormed) :
    PrintedTokens.tokenOfLine? (tokenLine token).toList = some token := by
  rw [PrintedTokens.tokenOfLine?, words_tokenLine]
  by_cases wide : 0 < token.extraBitCount
  · rw [if_pos wide]
    simp only [Text.natural?_toDigits, Text.ofBinary?_binary, Option.bind_eq_bind,
      Option.bind_some, Token.toUInt8_toNat]
    rfl
  · have zero : token.extraBits = 0 := by
      have small := wellFormed.extraBits_lt
      rw [Nat.eq_zero_of_not_pos wide] at small
      exact UInt8.toNat_inj.mp (Nat.lt_one_iff.mp small)
    rw [if_neg wide]
    simp only [Text.natural?_toDigits, Option.bind_eq_bind, Option.bind_some, Token.toUInt8_toNat,
      ← zero]
    rfl

/-- The line of a token holds no line break. -/
theorem unbroken_tokenLine (token : Token) : Text.Unbroken (tokenLine token) := by
  have code : Text.Unbroken (toString token.code) := Text.unbroken_toString token.code.toNat
  have extra : Text.Unbroken
      (String.ofList (Text.binary token.extraBitCount token.extraBits.toNat)) := by
    rw [Text.Unbroken, String.toList_ofList]
    exact Text.notMem_binary (by decide) (by decide)
  rw [tokenLine]
  split
  · simp only [Text.unbroken_append, Text.unbroken_alignRight, code, extra, and_true]
    decide
  · simp only [Text.unbroken_append, Text.unbroken_alignRight, code, and_true]
    decide

/-- The numbers of the last line are the counts. -/
theorem numbers_histogramLine (counts : Histogram) :
    Text.numbers (histogramLine counts).toList = counts.map UInt32.toNat := by
  have digits (count : UInt32) : (toString count).toList = Nat.toDigits 10 count.toNat :=
    Nat.toList_repr
  have listed : Text.numbers ((", ".intercalate (counts.map toString)).toList ++ "]".toList) =
      counts.map UInt32.toNat := by
    induction counts with
    | nil =>
      rw [List.map_nil, String.intercalate_nil]
      rfl
    | cons count rest ih =>
      cases rest with
      | nil =>
        rw [List.map_singleton, String.intercalate_singleton, digits,
          Text.numbers_toDigits_append_of_all _ (by decide) (by decide), List.map_singleton]
      | cons next rest =>
        simp only [List.map_cons] at ih ⊢
        rw [String.intercalate_cons_cons, String.toList_append, String.toList_append, digits,
          List.append_assoc, List.append_assoc,
          Text.numbers_toDigits_append _ ", ".toList (by decide) (by decide), ih]
  have foreign : "meta histogram: [".toList.all fun char => !Text.isDigit char := by decide
  unfold histogramLine
  rw [String.toList_append, String.toList_append, List.append_assoc,
    Text.numbers_append_of_all foreign, listed]

/-- The line of the token counts holds no line break. -/
theorem unbroken_histogramLine (counts : Histogram) :
    Text.Unbroken (histogramLine counts) := by
  have listed : Text.Unbroken (", ".intercalate (counts.map toString)) := by
    induction counts with
    | nil =>
      rw [List.map_nil, String.intercalate_nil]
      decide
    | cons count rest ih =>
      have first : Text.Unbroken (toString count) := Text.unbroken_toString count.toNat
      cases rest with
      | nil => rwa [List.map_singleton, String.intercalate_singleton]
      | cons next rest =>
        simp only [List.map_cons] at ih ⊢
        rw [String.intercalate_cons_cons, Text.unbroken_append, Text.unbroken_append]
        exact ⟨⟨first, by decide⟩, ih⟩
  unfold histogramLine
  rw [Text.unbroken_append, Text.unbroken_append]
  exact ⟨⟨by decide, listed⟩, by decide⟩

/-- The tokens are read back from their lines. -/
theorem ofLines?_lines {tokenSection : TokenSection}
    (wellFormed : ∀ token ∈ tokenSection.tokens, token.WellFormed) :
    PrintedTokens.ofLines? (tokenSection.lines.map String.toList) = some tokenSection.printed := by
  have announced : Text.numbers (toString tokenSection.tokens.length ++ " tokens:").toList =
      [tokenSection.tokens.length] := by
    have digits : (toString tokenSection.tokens.length).toList =
        Nat.toDigits 10 tokenSection.tokens.length := Nat.toList_repr
    rw [String.toList_append, digits,
      Text.numbers_toDigits_append_of_all _ (by decide) (by decide)]
  have tokens : (tokenSection.tokens.map (String.toList ∘ tokenLine)).mapM
      PrintedTokens.tokenOfLine? = some tokenSection.tokens := by
    have each := mapM_map_eq_some (String.toList ∘ tokenLine) fun token member =>
      tokenOfLine?_tokenLine (wellFormed token member)
    rwa [List.map_id'] at each
  simp only [lines, List.cons_append, List.map_cons, List.map_append, List.map_nil, List.map_map,
    PrintedTokens.ofLines?, announced, List.dropLast_concat, tokens, List.getLast?_concat,
    Option.bind_eq_bind, Option.bind_some, numbers_histogramLine]
  rfl

/-- The lines of the tokens are not empty. -/
theorem ne_nil_of_mem_lines {tokenSection : TokenSection} {line : String}
    (member : line ∈ tokenSection.lines) : line.toList ≠ [] := by
  simp only [lines, List.cons_append, List.mem_cons, List.mem_append, List.mem_map,
    List.not_mem_nil, or_false] at member
  rcases member with rfl | ⟨token, _, rfl⟩ | rfl
  · simp
  · intro empty
    have words := words_tokenLine token
    rw [empty] at words
    cases words
  · unfold histogramLine
    simp

/-- The lines of the tokens hold no line break. -/
theorem unbroken_of_mem_lines {tokenSection : TokenSection} {line : String}
    (member : line ∈ tokenSection.lines) : Text.Unbroken line := by
  simp only [lines, List.cons_append, List.mem_cons, List.mem_append, List.mem_map,
    List.not_mem_nil, or_false] at member
  rcases member with rfl | ⟨token, _, rfl⟩ | rfl
  · exact Text.unbroken_append.mpr ⟨Text.unbroken_toString _, by decide⟩
  · exact unbroken_tokenLine token
  · exact unbroken_histogramLine _

end TokenSection

namespace Report

variable {report : Report}

/-- The summary is no empty line. -/
theorem summary_ne_nil (report : Report) : report.summary.toList ≠ [] := by
  simp [summary]

/-- The numbers of the summary are what it says. -/
theorem numbers_summary (report : Report) : Text.numbers report.summary.toList =
    [report.used, report.rows.length, report.longest.toNat, report.payload] := by
  have digits (number : Nat) : (toString number).toList = Nat.toDigits 10 number :=
    Nat.toList_repr
  have longest : (toString report.longest).toList = Nat.toDigits 10 report.longest.toNat :=
    Nat.toList_repr
  simp only [summary, String.toList_append, digits, longest, List.append_assoc]
  rw [Text.numbers_append_of_all (by decide),
    Text.numbers_toDigits_append _ " of ".toList (by decide) (by decide),
    Text.numbers_toDigits_append _ " symbols, max length ".toList (by decide) (by decide),
    Text.numbers_toDigits_append _ ", ".toList (by decide) (by decide),
    Text.numbers_toDigits_append_of_all _ (by decide) (by decide)]

/-- The summary holds no line break. -/
theorem unbroken_summary (report : Report) : Text.Unbroken report.summary := by
  have longest : Text.Unbroken (toString report.longest) :=
    Text.unbroken_toString report.longest.toNat
  simp only [summary, Text.unbroken_append, Text.unbroken_toString, longest, and_true]
  decide

/-- No line of a report holds a line break. -/
theorem unbroken_of_mem_lines {line : String} (member : line ∈ report.lines) :
    Text.Unbroken line := by
  rw [lines, List.cons_append, List.mem_cons, List.mem_append, List.mem_cons, List.mem_cons,
    List.mem_map] at member
  rcases member with rfl | ⟨row, _, rfl⟩ | rfl | rfl | member
  · decide
  · exact row.unbroken_line
  · decide
  · exact unbroken_summary report
  · split at member
    · rcases List.mem_cons.mp member with rfl | member
      · decide
      · exact TokenSection.unbroken_of_mem_lines member
    · cases member

/-- A report is the lines that its text has. -/
theorem lines_text (report : Report) :
    Text.lines report.text.toList = report.lines.map String.toList := by
  have ended : report.text.toList = (report.lines.map String.toList).flatMap (· ++ ['\n']) := by
    rw [text, String.toList_join, List.flatMap_map, List.flatMap_map]
    congr 1
    funext line
    rw [String.toList_append]
    rfl
  rw [ended, Text.lines_flatMap]
  intro line member
  obtain ⟨text, printed, rfl⟩ := List.mem_map.mp member
  exact unbroken_of_mem_lines printed

/-- The paragraphs of a report are its table, its summary and its tokens. -/
theorem paragraphs_text (report : Report) : Text.paragraphs report.text.toList =
    (Row.heading :: report.rows.map Row.line).map String.toList :: [report.summary.toList] ::
      report.tokenSection.toList.map fun tokenSection => tokenSection.lines.map String.toList := by
  have table : [] ∉ (Row.heading :: report.rows.map Row.line).map String.toList := by
    intro member
    obtain ⟨line, printed, empty⟩ := List.mem_map.mp member
    rcases List.mem_cons.mp printed with rfl | printed
    · exact absurd empty (by decide)
    · obtain ⟨row, _, rfl⟩ := List.mem_map.mp printed
      exact row.line_ne_nil empty
  have summary : [] ∉ [report.summary.toList] :=
    fun member => report.summary_ne_nil (List.mem_singleton.mp member).symm
  rw [Text.paragraphs, lines_text, lines, List.map_append, List.map_cons]
  refine (List.splitOn_append_cons_self_of_not_mem table _).trans (congrArg _ ?_)
  rw [List.map_cons]
  cases shown : report.tokenSection with
  | none => exact List.splitOn_eq_singleton summary
  | some tokenSection =>
    have tokens : [] ∉ tokenSection.lines.map String.toList := by
      intro member
      obtain ⟨line, printed, empty⟩ := List.mem_map.mp member
      exact TokenSection.ne_nil_of_mem_lines printed empty
    refine (List.splitOn_append_cons_self_of_not_mem summary _).trans (congrArg _ ?_)
    exact List.splitOn_eq_singleton tokens

/-- A report is read back from its text. -/
theorem ofText?_text {report : Report} (wellFormed : ∀ tokenSection,
    report.tokenSection = some tokenSection → ∀ token ∈ tokenSection.tokens, token.WellFormed) :
    Printout.ofText? report.text = some report.printed := by
  have rows : ((report.rows.map Row.line).map String.toList).mapM PrintedRow.ofLine? =
      some (report.rows.map Row.printed) := by
    rw [List.map_map]
    exact mapM_map_eq_some (String.toList ∘ Row.line) fun row _ => Row.ofLine?_line row
  rw [Printout.ofText?, paragraphs_text, List.map_cons]
  simp only [Printout.ofParagraphs?, rows, numbers_summary, Row.words_heading, Option.bind_eq_bind,
    Option.bind_some]
  cases shown : report.tokenSection with
  | none =>
    simp only [Option.toList_none, List.map_nil, printed, shown]
    rfl
  | some tokenSection =>
    simp only [Option.toList_some, List.map_cons, List.map_nil, printed, shown,
      TokenSection.ofLines?_lines (wellFormed tokenSection shown)]
    rfl

end Report

end CanonicalHuffman
