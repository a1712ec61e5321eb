import CanonicalHuffman.Arguments
import CanonicalHuffman.CountText
import CanonicalHuffman.Report

/-!
# Inspecting a code

The program reads counts, builds a code table for them and reports on it. It refuses counts that
have no code within the wanted length before it builds anything; whether the shaped counts fit is
the builder's concern. How a file is read is left to the caller, so the program is a function of
its arguments and of what the files hold.
-/

namespace CanonicalHuffman

attribute [local instance (20000)] instPowNat

/-- Why a file could not be read. -/
structure ReadFailure where
  /-- What went wrong. -/
  reason : String
  /-- The number the operating system gives it. -/
  number : Nat
deriving DecidableEq, Repr

/-- There is no such file. -/
def ReadFailure.notFound : ReadFailure := ⟨"No such file or directory", 2⟩

/-- Why an inspection failed. -/
inductive InspectionFailure where
  /-- The file could not be read. -/
  | unreadable (failure : ReadFailure)
  /-- The file is no text. -/
  | notText
  /-- A count in the file is no count. -/
  | badCount (bad : CountText.BadCount)
  /-- There are no counts. -/
  | noCounts
  /-- More symbols are used than codes of the wanted length can tell apart. -/
  | tooManySymbols (used limit : Nat)
  /-- The table could not be built. -/
  | fault (cause : Fault)
deriving DecidableEq, Repr

/-- The text that reports why an inspection failed. -/
def InspectionFailure.message : InspectionFailure → String
  | unreadable failure => s!"{failure.reason} (os error {failure.number})"
  | notText => "stream did not contain valid UTF-8"
  | badCount bad => bad.message
  | noCounts => "no counts given"
  | tooManySymbols used limit =>
    s!"{used} used symbols do not fit in {limit}-bit codes " ++ s!"(at most {2 ^ limit})"
  | fault cause => cause.message

/-- Read the counts of a file. -/
def countsOfFile (content : Except ReadFailure ByteArray) :
    Except InspectionFailure Histogram :=
  match content with
  | .error failure => .error (.unreadable failure)
  | .ok bytes =>
    match String.fromUTF8? bytes with
    | none => .error .notText
    | some text => (CountText.read text.toList).mapError .badCount

/-- What an inspection found. -/
structure Inspection where
  /-- The table with the counts it was built from. -/
  built : Built
  /-- The report on it. -/
  report : Report
deriving DecidableEq, Repr

/-- Inspect the code for a list of counts. -/
def inspect (counts : Histogram) (maxLength : Nat) (exact withTokens : Bool) :
    Except InspectionFailure Inspection :=
  if counts = [] then .error .noCounts
  else if !counts.fits maxLength then .error (.tooManySymbols counts.used maxLength)
  else Except.mapError .fault do
    let options : BuildOptions := { maxLength, shaping := !exact }
    let built ← CodeTable.build options counts (.empty counts.length)
    let report ← Report.ofBuilt counts built withTokens
    return { built, report }

/-- How a run of the program ends. -/
inductive Ending where
  /-- A text is printed. -/
  | printed (text : String)
  /-- The run fails with a message. -/
  | failed (message : String)
  /-- The arguments are wrong. -/
  | misused
deriving DecidableEq, Repr

/-- How a run with the given arguments ends once the counts have been read. -/
def conclude (arguments : Arguments) (counts : Except InspectionFailure Histogram) : Ending :=
  match counts with
  | .error failure => .failed failure.message
  | .ok counts =>
    match inspect counts arguments.maxLength arguments.exact arguments.tokens with
    | .error failure => .failed failure.message
    | .ok inspection => .printed inspection.report.text

/-- Run the program with a way to read files. Only a file of counts is ever read. -/
def run {m : Type → Type} [Monad m] (readFile : String → m (Except ReadFailure ByteArray))
    (arguments : List String) : m Ending :=
  match Arguments.parse? arguments with
  | none => return .misused
  | some arguments =>
    match arguments.source with
    | .counts counts => return conclude arguments (.ok counts)
    | .file path => return conclude arguments (countsOfFile (← readFile path))

end CanonicalHuffman
