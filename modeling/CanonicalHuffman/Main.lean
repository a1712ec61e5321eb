import CanonicalHuffman.Inspection

/-!
# The command line program

The program prints its report and ends with 0, or prints an error and ends with 1. Wrong arguments
end it with 2.
-/

namespace CanonicalHuffman

/-- The failure that the operating system reports. -/
def readFailureOf : IO.Error → ReadFailure
  | .noFileOrDirectory .. => .notFound
  | .permissionDenied _ number reason => ⟨reason, number.toNat⟩
  | .inappropriateType _ number reason => ⟨reason, number.toNat⟩
  | .invalidArgument _ number reason => ⟨reason, number.toNat⟩
  | .resourceExhausted _ number reason => ⟨reason, number.toNat⟩
  | .noSuchThing _ number reason => ⟨reason, number.toNat⟩
  | .otherError number reason => ⟨reason, number.toNat⟩
  | .hardwareFault number reason => ⟨reason, number.toNat⟩
  | error => ⟨toString error, 5⟩

/-- Read a file, or say why it cannot be read. -/
def readFile (path : String) : IO (Except ReadFailure ByteArray) := do
  try return .ok (← IO.FS.readBinFile path)
  catch error => return .error (readFailureOf error)

/-- How to call the program. -/
def usage : String :=
  "usage: canonical-huffman [-l N | --max-length N] [--exact] [-t | --tokens] [-v | --verbose] " ++
    "[COUNT]... | -i FILE"

end CanonicalHuffman

open CanonicalHuffman in
/-- Run the program on its arguments. -/
def main (arguments : List String) : IO UInt32 := do
  match ← run readFile arguments with
  | .printed text =>
    IO.print text
    return 0
  | .failed message =>
    IO.eprintln s!"Error: {message}"
    return 1
  | .misused =>
    IO.eprintln usage
    return 2
