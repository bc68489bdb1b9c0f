import TailScheme.CommandLine

/-!
# The program

Reads files and the standard input, and prints what the library says.
-/
namespace TailScheme

open CommandLine

/-- Prints a line. -/
def printLine : Line → IO Unit
  | .out text => IO.println text
  | .err text => IO.eprintln text

/-- The number that the system gives to a failure. -/
def failureNumber : IO.Error → Option UInt32
  | .noFileOrDirectory _ number _ | .inappropriateType _ number _
  | .invalidArgument _ number _ | .permissionDenied _ number _
  | .resourceExhausted _ number _ | .noSuchThing _ number _ | .otherError number _ => some number
  | _ => none

/-- Why the system gave no file. Some failures come with their number negated. -/
def fileFailure (failure : IO.Error) : FileFailure :=
  let known := (failureNumber failure).bind fun number =>
    FileFailure.ofNumber? (min number.toNat (-number).toNat)
  known.getD (.other (toString failure))

/-- Reads a file. -/
def readContents (name : String) : IO (Except FileFailure String) := do
  try
    return decodeFile (← IO.FS.readBinFile name)
  catch failure =>
    return .error (fileFailure failure)

/-- Runs files up to the first that fails. -/
def runProgramFiles (options : Options) (names : List String) (machine : Machine) : IO Nat := do
  match names with
  | [] => return exitCode true
  | name :: names =>
    let outcome := runFile options name (← readContents name) machine
    outcome.lines.forM printLine
    if outcome.ok then runProgramFiles options names outcome.machine else return exitCode false

/-- Asks for a line of the standard input. -/
def readLine : IO Readline := do
  try
    match Repl.readings (← (← IO.getStdin).getLine) with
    | [] => return .endOfInput
    | reading :: _ => return reading
  catch failure =>
    return .failed (toString failure)

/-- Runs the interactive loop on the standard input, line by line. -/
partial def runLoop (options : Options) (repl : Repl) : IO Nat := do
  let (printed, standing) :=
    repl.respond options.config ample options.comments (← readLine)
  printed.forM printLine
  match standing with
  | .goesOn repl => runLoop options repl
  | .ends ok => return exitCode ok

/-- Runs the files that the options name, or the interactive loop if there are none. -/
def interpret (options : Options) : IO Nat := do
  if options.files.isEmpty then
    Repl.banner.forM printLine
    runLoop options Repl.start
  else runProgramFiles options options.files Machine.initial

/-- Runs the interpreter until it leaves an exit code or breaks off. -/
def supervise (options : Options) : IO ThreadEnd := do
  try
    return .finished (← interpret options)
  catch failure =>
    return .panicked (some (toString failure))

end TailScheme

open TailScheme CommandLine in
/-- Does what the arguments ask for. -/
def main (arguments : List String) : IO UInt32 := do
  match parse arguments with
  | .help =>
    helpLines.forM printLine
    return 0
  | .refused =>
    refusedLines.forM printLine
    return 2
  | .run options =>
    let (code, printed) := (← supervise options).conclude
    printed.forM printLine
    return code.toUInt32
