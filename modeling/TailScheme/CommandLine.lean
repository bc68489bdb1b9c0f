import TailScheme.Repl
import TailScheme.Files

/-!
# The command line

The program runs the files it is given, one after the other on one machine, and stops at the
first failure. Without files it starts the interactive loop on its input. Three options set how
programs are read and run; each may be given once, anywhere before a `--`, after which every
argument is a file.
-/
namespace TailScheme.CommandLine

/-- The frame limit of the command line. -/
def standardDepth : Nat := 10000

/-- How many deferred calls one frame may go on with. No run of the program comes near it. -/
def ample : Nat := 4611686018427387904

/-- What the arguments ask for. -/
structure Options where
  files : List String
  tailCalls : Bool
  maxDepth : Option Nat
  comments : Bool

/-- What is to be done. -/
inductive Request where
  /-- Shows how the program is used. -/
  | help
  /-- Refuses the arguments. -/
  | refused
  /-- Runs programs. -/
  | run (options : Options)

/-- The options before the first argument. -/
def Options.default : Options := ⟨[], true, none, true⟩

/-- How programs are run under these options. -/
def Options.config (options : Options) : Config :=
  ⟨options.tailCalls, options.maxDepth.getD standardDepth⟩

/-- The number that an argument denotes: decimal digits after an optional plus sign, below
the size of a machine word. -/
def count? (text : List Char) : Option Nat :=
  let digits := match text with
    | '+' :: rest => rest
    | all => all
  if digits.isEmpty || !digits.all Char.isDigit then none
  else if Text.ofDigits digits < UInt64.size then some (Text.ofDigits digits)
  else none

/-- The option that sets the frame limit. -/
def depthOption : List Char := "--max-depth".toList

/-- Reads the arguments after those that `options` tells of. -/
def parseFrom (options : Options) : List String → Request
  | [] => .run options
  | argument :: rest =>
    if argument = "--" then .run { options with files := options.files ++ rest }
    else if argument = "--no-tail-calls" then
      if options.tailCalls then parseFrom { options with tailCalls := false } rest else .refused
    else if argument = "--no-comments" then
      if options.comments then parseFrom { options with comments := false } rest else .refused
    else if argument = "--help" ∨ argument = "-h" then .help
    else if argument = "--max-depth" then
      match options.maxDepth, rest with
      | none, value :: rest =>
        match count? value.toList with
        | some limit => parseFrom { options with maxDepth := some limit } rest
        | none => .refused
      | _, _ => .refused
    else if (depthOption ++ ['=']).isPrefixOf argument.toList then
      match options.maxDepth, count? (argument.toList.drop (depthOption.length + 1)) with
      | none, some limit => parseFrom { options with maxDepth := some limit } rest
      | _, _ => .refused
    else if argument.toList.head? = some '-' ∧ argument ≠ "-" then .refused
    else parseFrom { options with files := options.files ++ [argument] } rest

/-- Reads the arguments. -/
def parse (arguments : List String) : Request := parseFrom .default arguments

/-- How the program is used. -/
def helpLines : List Line :=
  [.out "A small Scheme-like interpreter with proper tail calls",
    .out "",
    .out "Usage: tramlisp [OPTIONS] [FILE]...",
    .out "",
    .out "Arguments:",
    .out "  [FILE]...  Source files to run in order; starts a REPL when none are given",
    .out "",
    .out "Options:",
    .out "      --no-tail-calls  Give every call its own frame, tail calls included",
    .out ("      --max-depth <N>  Maximum number of live procedure frames [default: "
      ++ toString standardDepth ++ "]"),
    .out "      --no-comments    Treat ';' as an ordinary character instead of a comment",
    .out "  -h, --help           Print help"]

/-- What is said about arguments that are refused. -/
def refusedLines : List Line :=
  [.err "error: the arguments are not understood",
    .err "",
    .err "Usage: tramlisp [OPTIONS] [FILE]...",
    .err "",
    .err "For more information, try '--help'."]

/-- Runs a file. -/
def runFile (options : Options) (name : String) (contents : Except FileFailure String)
    (machine : Machine) : Outcome :=
  match contents with
  | .error failure => ⟨[failureLine (name ++ ": " ++ failure.message)], false, machine⟩
  | .ok text => runText options.config ample options.comments text machine

/-- Runs files up to the first that fails. -/
def runFiles (options : Options) (contents : String → Except FileFailure String) :
    List String → Machine → Outcome
  | [], machine => ⟨[], true, machine⟩
  | name :: names, machine =>
    let outcome := runFile options name (contents name) machine
    if outcome.ok then
      let rest := runFiles options contents names outcome.machine
      ⟨outcome.lines ++ rest.lines, rest.ok, rest.machine⟩
    else outcome

/-- The exit code of a run that went well or not. -/
def exitCode (ok : Bool) : Nat := if ok then 0 else 1

/-- The exit code and the printed lines of a run with these arguments, where files are as
`contents` tells and the line editor comes to what `editor` tells. -/
def runWith (arguments : List String) (contents : String → Except FileFailure String)
    (editor : Except String (List Readline)) : Nat × List Line :=
  match parse arguments with
  | .help => (0, helpLines)
  | .refused => (2, refusedLines)
  | .run options =>
    if options.files.isEmpty then
      let (lines, ok) := Repl.interact options.config ample options.comments editor
      (exitCode ok, lines)
    else
      let outcome := runFiles options contents options.files Machine.initial
      (exitCode outcome.ok, outcome.lines)

/-- The exit code and the printed lines of a run with these arguments, where files are as
`contents` tells and `input` is piped into the standard input. -/
def run (arguments : List String) (contents : String → Except FileFailure String)
    (input : String) : Nat × List Line :=
  runWith arguments contents (.ok (Repl.readings input))

/-- What the thread that runs the interpreter comes to. -/
inductive ThreadEnd where
  /-- It leaves an exit code. -/
  | finished (code : Nat)
  /-- It breaks off, and says why if it can be put into words. -/
  | panicked (reason : Option String)
  /-- The system does not start it. -/
  | notStarted (reason : String)

/-- The exit code of the program, and what it prints after the thread has come to its end. -/
def ThreadEnd.conclude : ThreadEnd → Nat × List Line
  | .finished code => (code, [])
  | .panicked reason =>
    (exitCode false,
      [.err "The interpreter encountered an unexpected error and must exit.",
        .err ("Error: " ++ reason.getD "Unknown panic occurred")])
  | .notStarted reason =>
    (exitCode false, [.err ("Could not start the interpreter thread: " ++ reason)])

end TailScheme.CommandLine
