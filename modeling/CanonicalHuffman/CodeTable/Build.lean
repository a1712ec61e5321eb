import CanonicalHuffman.CodeTable.Canonical
import CanonicalHuffman.Histogram.Depths
import CanonicalHuffman.Histogram.Shaping

/-!
# Building a code table

A table is built from a histogram: the counts are shaped if wanted, the used symbols get depths
within a limit, and the depths get their canonical codes. Shaping can give a count to a symbol
that is not used. When the shaped counts no longer fit the limit, the counts are kept as given, so
shaping never makes a table impossible to build.
-/

namespace CanonicalHuffman

/-- How a table is built. -/
structure BuildOptions where
  /-- The longest code length allowed. -/
  maxLength : Nat
  /-- Whether the counts are shaped first. -/
  shaping : Bool
deriving DecidableEq, Repr

namespace BuildOptions

/-- Codes of any length, from shaped counts. -/
def shaped : BuildOptions := ⟨maxCodeLength, true⟩

/-- Codes of any length, from the counts as given. -/
def exact : BuildOptions := ⟨maxCodeLength, false⟩

/-- Counts are shaped unless something else is asked for. -/
instance : Inhabited BuildOptions := ⟨shaped⟩

/-- The same options with another longest code length. -/
def within (options : BuildOptions) (maxLength : Nat) : BuildOptions :=
  { options with maxLength }

end BuildOptions

/-- The counts to build from: the shaped ones if some symbol is used and they fit the limit, and
otherwise the counts as given. -/
def Histogram.shapedWithin (counts : Histogram) (limit : Nat) : Histogram :=
  match counts.shape with
  | ⟨.allZero, _⟩ => counts
  | ⟨.shaped, shaped⟩ => if shaped.fits limit then shaped else counts

/-- A table together with the counts it was built from. -/
structure Built where
  /-- The counts after shaping. -/
  counts : Histogram
  /-- The lengths and codes. -/
  table : CodeTable
deriving DecidableEq, Repr

namespace CodeTable

/-- The counts that a build with the given options starts from. -/
def startingCounts (options : BuildOptions) (counts : Histogram) : Histogram :=
  if options.shaping then counts.shapedWithin options.maxLength else counts

/-- Build a table for a histogram in the place of `previous`, which fixes the size of the alphabet
and whose entries have no effect. -/
def build (options : BuildOptions) (counts : Histogram) (previous : CodeTable) :
    Except Fault Built :=
  if counts.length ≠ previous.lengths.length then
    .error (.tableSize counts.length previous.lengths.length)
  else if previous.codes.length ≠ previous.lengths.length then
    .error (.codesSize previous.codes.length previous.lengths.length)
  else do
    let counts := startingCounts options counts
    let fitting ← counts.fit options.maxLength previous.lengths
    let table ← assignCodes { previous with lengths := fitting.depths }
    return { counts, table }

end CodeTable

end CanonicalHuffman
