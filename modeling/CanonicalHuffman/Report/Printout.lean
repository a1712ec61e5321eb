import CanonicalHuffman.Report
import CanonicalHuffman.Text.Pieces

/-!
# What a printed report shows

A printed report is read back from its text alone. Its first paragraph is the table of the symbols,
its second one the summary, and its third one, if there is one, the tokens. A row of the table is
five words, of which four are numbers, and what the summary says are its four numbers.
-/

namespace CanonicalHuffman

/-- A row of a printed table. -/
structure PrintedRow where
  /-- The symbol. -/
  symbol : Nat
  /-- The count as given. -/
  count : Nat
  /-- The count after shaping. -/
  shaped : Nat
  /-- The code length. -/
  bits : Nat
  /-- The digits of the code, or a dash. -/
  code : List Char
deriving DecidableEq, Repr

/-- The printed tokens of a report. -/
structure PrintedTokens where
  /-- How many tokens are announced. -/
  announced : Nat
  /-- The tokens. -/
  tokens : List Token
  /-- How often each token code is said to occur. -/
  histogram : List Nat
deriving DecidableEq, Repr

/-- What a printed report shows. -/
structure Printout where
  /-- The names of the columns. -/
  columns : List (List Char)
  /-- The rows of the table. -/
  rows : List PrintedRow
  /-- The number of symbols with a code. -/
  used : Nat
  /-- The number of symbols. -/
  symbols : Nat
  /-- The longest code length. -/
  longest : Nat
  /-- The number of bits that all symbols take. -/
  payload : Nat
  /-- The tokens, if they are shown. -/
  tokens : Option PrintedTokens
deriving DecidableEq, Repr

/-- The row that a line shows, if it shows one: four numbers and a code. -/
def PrintedRow.ofLine? (line : List Char) : Option PrintedRow := do
  match Text.words line with
  | [symbol, count, shaped, bits, code] =>
    return {
      symbol := ← Text.natural? symbol
      count := ← Text.natural? count
      shaped := ← Text.natural? shaped
      bits := ← Text.natural? bits
      code }
  | _ => none

namespace PrintedTokens

/-- The token that a line shows, if it shows one: a code, and extra bits behind a plus sign. -/
def tokenOfLine? (line : List Char) : Option Token := do
  match Text.words line with
  | [code] => return ⟨(← Text.natural? code).toUInt8, 0⟩
  | [code, '+' :: extraBits] =>
    return ⟨(← Text.natural? code).toUInt8, (← Text.ofBinary? extraBits).toUInt8⟩
  | _ => none

/-- The tokens that a paragraph shows, if it shows any: their number, a line for each of them, and
the counts of their codes. -/
def ofLines? : List (List Char) → Option PrintedTokens
  | [] => none
  | announcement :: lines => do
    let [announced] := Text.numbers announcement | none
    return {
      announced
      tokens := ← lines.dropLast.mapM tokenOfLine?
      histogram := Text.numbers (← lines.getLast?) }

end PrintedTokens

namespace Printout

/-- What the paragraphs of a report show, if they are those of a report. -/
def ofParagraphs? : List (List (List Char)) → Option Printout
  | (heading :: rowLines) :: [summary] :: others => do
    let rows ← rowLines.mapM PrintedRow.ofLine?
    let [used, symbols, longest, payload] := Text.numbers summary | none
    let columns := Text.words heading
    let shown := { columns, rows, used, symbols, longest, payload, tokens := none }
    match others with
    | [] => return shown
    | [tokens] => return { shown with tokens := some (← PrintedTokens.ofLines? tokens) }
    | _ => none
  | _ => none

/-- What a text shows, if it is that of a report. -/
def ofText? (text : String) : Option Printout := ofParagraphs? (Text.paragraphs text.toList)

end Printout

/-- What is printed of a row. -/
def Row.printed (row : Row) : PrintedRow where
  symbol := row.symbol
  count := row.count.toNat
  shaped := row.shaped.toNat
  bits := row.bits
  code := row.codeText

/-- What is printed of the tokens. -/
def TokenSection.printed (tokenSection : TokenSection) : PrintedTokens where
  announced := tokenSection.tokens.length
  tokens := tokenSection.tokens
  histogram := tokenSection.histogram.map UInt32.toNat

/-- What is printed of a report. -/
def Report.printed (report : Report) : Printout where
  columns := ["symbol", "count", "shaped", "bits", "code"].map String.toList
  rows := report.rows.map Row.printed
  used := report.used
  symbols := report.rows.length
  longest := report.longest.toNat
  payload := report.payload
  tokens := report.tokenSection.map TokenSection.printed

end CanonicalHuffman
