import CanonicalHuffman.CodeTable.Build
import CanonicalHuffman.Text.Digits

/-!
# Reports on a code table

A report has one row per symbol with its given count, its shaped count, its code length and its
code, then a summary, and the tokens of the code lengths if wanted. Codes and extra bits are
written in binary, with exactly as many digits as they have bits.
-/

namespace CanonicalHuffman

attribute [local instance (20000)] Zero.ofOfNat0

/-- One symbol of a report. -/
structure Row where
  /-- The symbol. -/
  symbol : Nat
  /-- The count as given. -/
  count : UInt32
  /-- The count after shaping. -/
  shaped : UInt32
  /-- The code and its length, if the symbol has a code. -/
  code : Option (UInt16 × UInt8)
deriving DecidableEq, Repr

/-- The tokens of a report with the counts of their codes. -/
structure TokenSection where
  /-- The tokens of the code lengths. -/
  tokens : List Token
  /-- How often each token code occurs. -/
  histogram : Histogram
deriving DecidableEq, Repr

/-- What is said about a code table. -/
structure Report where
  /-- One row per symbol. -/
  rows : List Row
  /-- The number of symbols with a code. -/
  used : Nat
  /-- The longest code length. -/
  longest : UInt8
  /-- The number of bits that all symbols take, as often as they were counted. -/
  payload : Nat
  /-- The tokens, if they are wanted. -/
  tokenSection : Option TokenSection
deriving DecidableEq, Repr

/-- A text moved to the right end of a column. -/
def alignRight (width : Nat) (text : String) : String :=
  String.ofList (text.toList.leftpad width ' ')

namespace Row

/-- The code length that a row shows, zero without a code. -/
def bits (row : Row) : Nat :=
  match row.code with
  | some (_, length) => length.toNat
  | none => 0

/-- The binary digits of the code, or a dash without one. -/
def codeText (row : Row) : List Char :=
  match row.code with
  | some (code, length) => Text.binary length.toNat code.toNat
  | none => ['-']

/-- The heading of all rows. -/
def heading : String :=
  alignRight 6 "symbol" ++ " " ++ alignRight 10 "count" ++ " " ++ alignRight 10 "shaped" ++ " " ++
    alignRight 6 "bits" ++ "  code"

/-- The line of a row. -/
def line (row : Row) : String :=
  alignRight 6 (toString row.symbol) ++ " " ++ alignRight 10 (toString row.count) ++ " " ++
    alignRight 10 (toString row.shaped) ++ " " ++ alignRight 6 (toString row.bits) ++ "  " ++
    String.ofList row.codeText

end Row

namespace TokenSection

/-- The line of a token: its code, and its extra bits behind a plus sign if it has any. -/
def tokenLine (token : Token) : String :=
  let code := "  " ++ alignRight 2 (toString token.code)
  if 0 < token.extraBitCount then
    code ++ " +" ++ String.ofList (Text.binary token.extraBitCount token.extraBits.toNat)
  else code

/-- The line of the token counts. -/
def histogramLine (counts : Histogram) : String :=
  "meta histogram: [" ++ ", ".intercalate (counts.map toString) ++ "]"

/-- The lines of the tokens. -/
def lines (tokenSection : TokenSection) : List String :=
  (toString tokenSection.tokens.length ++ " tokens:") :: tokenSection.tokens.map tokenLine ++
    [histogramLine tokenSection.histogram]

end TokenSection

namespace Report

/-- The rows of a table, one per symbol. A symbol whose code is missing is a fault. -/
def rowsFrom (table : CodeTable) (symbol : Nat) : (counts shaped : Histogram) →
    Except Fault (List Row)
  | count :: counts, shapedCount :: shaped => do
    let code ← table.code? symbol
    let rows ← rowsFrom table (symbol + 1) counts shaped
    return ⟨symbol, count, shapedCount, code⟩ :: rows
  | _, _ => .ok []

/-- The number of bits that each symbol takes, as often as it is counted. -/
def payloads (counts : Histogram) (lengths : List UInt8) : List Nat :=
  List.zipWith (fun count length => count.toNat * length.toNat) counts lengths

/-- The tokens of a table with their counts. -/
def sectionOf (table : CodeTable) : Except Fault TokenSection := do
  let tokens ← table.tokens
  let histogram ← Token.histogram tokens
  return { tokens, histogram }

/-- The report on a table that was built from the given counts. -/
def ofBuilt (counts : Histogram) (built : Built) (withTokens : Bool) : Except Fault Report := do
  let rows ← rowsFrom built.table 0 counts built.counts
  let payload ← (payloads counts built.table.lengths).foldlM addWords 0
  let tokenSection ← if withTokens then (sectionOf built.table).map some else .ok none
  return {
    rows
    used := built.table.usedCount
    longest := built.table.longest
    payload
    tokenSection }

/-- The line that sums a report up. -/
def summary (report : Report) : String :=
  "used " ++ toString report.used ++ " of " ++ toString report.rows.length ++
    " symbols, max length " ++ toString report.longest ++ ", " ++ toString report.payload ++
    " payload bits"

/-- The lines of a report, with an empty line in front of the summary and of the tokens. -/
def lines (report : Report) : List String :=
  Row.heading :: report.rows.map Row.line ++ "" :: report.summary ::
    match report.tokenSection with
    | some tokenSection => "" :: tokenSection.lines
    | none => []

/-- The text of a report. -/
def text (report : Report) : String := String.join (report.lines.map (· ++ "\n"))

end Report

end CanonicalHuffman
