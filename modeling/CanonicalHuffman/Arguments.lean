import CanonicalHuffman.Limits
import CanonicalHuffman.Text.Digits

/-!
# Command line arguments

The counts are positional arguments, each a list of numbers with commas between them, or they come
from a file. A switch stands alone; a setting has a value, which follows in the same argument or
in the next one. Short switches may be joined, and a short setting may end such a group. Nothing
may be given twice. After two dashes alone every argument is positional.

A number may have a sign. Arguments that break a rule are not told apart: there is no value for
them.
-/

namespace CanonicalHuffman

/-- Where the counts come from. -/
inductive Source where
  /-- The counts themselves. -/
  | counts (counts : List UInt32)
  /-- A file of counts. -/
  | file (path : String)
deriving DecidableEq, Repr

/-- What the command line asks for. -/
structure Arguments where
  /-- Where the counts come from. -/
  source : Source
  /-- The longest code length allowed. -/
  maxLength : Nat
  /-- Whether the counts are used as given. -/
  exact : Bool
  /-- Whether the tokens are shown. -/
  tokens : Bool
deriving DecidableEq, Repr

namespace Arguments

/-- An option without a value. -/
inductive Switch where
  /-- Use the counts as given. -/
  | exact
  /-- Show the tokens. -/
  | tokens
  /-- Log the build, which changes nothing of what is printed. -/
  | verbose
deriving DecidableEq, Repr

/-- An option with a value. -/
inductive Setting where
  /-- The file of counts. -/
  | input
  /-- The longest code length allowed. -/
  | maxLength
deriving DecidableEq, Repr

/-- An option. -/
inductive Name where
  /-- An option without a value. -/
  | switch (switch : Switch)
  /-- An option with a value. -/
  | setting (setting : Setting)
deriving DecidableEq, Repr

/-- The option with a long name. -/
def Name.ofLong? (name : String) : Option Name :=
  match name with
  | "exact" => some (.switch .exact)
  | "tokens" => some (.switch .tokens)
  | "verbose" => some (.switch .verbose)
  | "input" => some (.setting .input)
  | "max-length" => some (.setting .maxLength)
  | _ => none

/-- The option with a short name. -/
def Name.ofShort? : Char → Option Name
  | 't' => some (.switch .tokens)
  | 'v' => some (.switch .verbose)
  | 'i' => some (.setting .input)
  | 'l' => some (.setting .maxLength)
  | _ => none

/-- What has been read of the arguments so far. -/
structure Progress where
  /-- The positional counts. -/
  counts : List UInt32 := []
  /-- The file of counts. -/
  input : Option String := none
  /-- The longest code length allowed. -/
  maxLength : Option Nat := none
  /-- Whether the counts are used as given. -/
  exact : Bool := false
  /-- Whether the tokens are shown. -/
  tokens : Bool := false
  /-- Whether the build is logged. -/
  verbose : Bool := false
  /-- The setting whose value comes next. -/
  waiting : Option Setting := none
  /-- Whether every argument from here on is positional. -/
  closed : Bool := false
deriving DecidableEq, Repr

namespace Progress

/-- Take a switch that has not been given yet. -/
def turnOn (progress : Progress) : Switch → Option Progress
  | .exact => if progress.exact then none else some { progress with exact := true }
  | .tokens => if progress.tokens then none else some { progress with tokens := true }
  | .verbose => if progress.verbose then none else some { progress with verbose := true }

/-- Take the value of a setting that has not been given yet. -/
def assign (progress : Progress) (setting : Setting) (value : List Char) : Option Progress :=
  match setting with
  | .input =>
    if progress.input.isSome ∨ value = [] then none
    else some { progress with input := some (String.ofList value), waiting := none }
  | .maxLength => do
    let number ← Text.integer? value
    if progress.maxLength.isSome ∨ number < 1 ∨ maxCodeLength < number then none
    else some { progress with maxLength := some number.toNat, waiting := none }

/-- A number as a count, if it is one. -/
def count? (text : List Char) : Option UInt32 := do
  let number ← Text.integer? text
  if number < 0 ∨ (UInt32.size : Int) ≤ number then none else some number.toNat.toUInt32

/-- Take a positional argument: counts with commas between them. -/
def addCounts (progress : Progress) (text : List Char) : Option Progress := do
  let counts ← (text.splitOn ',').mapM count?
  return { progress with counts := progress.counts ++ counts }

/-- Take what follows two dashes: a long name, and a value behind an equals sign. -/
def takeLong (progress : Progress) (text : List Char) : Option Progress :=
  match Name.ofLong? (String.ofList (text.takeWhile (· ≠ '='))), text.dropWhile (· ≠ '=') with
  | some (.switch switch), [] => progress.turnOn switch
  | some (.setting setting), [] => some { progress with waiting := some setting }
  | some (.setting setting), _ :: value => progress.assign setting value
  | _, _ => none

/-- Take what follows one dash: short names, of which a setting takes the rest as its value. An
equals sign in front of the value is not part of it. -/
def takeShort (progress : Progress) : List Char → Option Progress
  | [] => some progress
  | char :: rest =>
    match Name.ofShort? char with
    | none => none
    | some (.switch switch) => do takeShort (← progress.turnOn switch) rest
    | some (.setting setting) =>
      match rest with
      | [] => some { progress with waiting := some setting }
      | '=' :: value => progress.assign setting value
      | value => progress.assign setting value

/-- Whether an argument is an option and not a value: it has more than a dash in front. -/
def isOption : List Char → Bool
  | '-' :: _ :: _ => true
  | _ => false

/-- Take one argument. -/
def take (progress : Progress) (argument : String) : Option Progress :=
  let text := argument.toList
  if progress.closed then progress.addCounts text
  else match progress.waiting with
    | some setting => if isOption text then none else progress.assign setting text
    | none =>
      match text with
      | ['-', '-'] => some { progress with closed := true }
      | '-' :: '-' :: name => progress.takeLong name
      | '-' :: char :: rest => progress.takeShort (char :: rest)
      | _ => progress.addCounts text

/-- What the arguments ask for, if no value is missing and the counts have one source. -/
def finish (progress : Progress) : Option Arguments :=
  let arguments (source : Source) : Arguments := {
    source
    maxLength := progress.maxLength.getD maxCodeLength
    exact := progress.exact
    tokens := progress.tokens }
  match progress.waiting, progress.input, progress.counts with
  | some _, _, _ => none
  | none, none, counts => some (arguments (.counts counts))
  | none, some path, [] => some (arguments (.file path))
  | none, some _, _ :: _ => none

end Progress

/-- Read a command line. -/
def parse? (arguments : List String) : Option Arguments := do
  let progress ← arguments.foldlM Progress.take {}
  progress.finish

end Arguments

end CanonicalHuffman
