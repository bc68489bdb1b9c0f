import TailScheme.Evaluation

/-!
# What a program prints

Running a program prints the value of every expression, except for the empty list, which
definitions, assignments and branches without a choice evaluate to. The first failure is
reported on the error output and ends the run.
-/
namespace TailScheme

/-- One printed line. -/
inductive Line where
  /-- On the standard output. -/
  | out (text : String)
  /-- On the error output. -/
  | err (text : String)

/-- The lines of the standard output, each with its line end. -/
def standardOutput : List Line → String
  | [] => ""
  | .out text :: rest => text ++ "\n" ++ standardOutput rest
  | .err _ :: rest => standardOutput rest

/-- The lines of the error output, each with its line end. -/
def errorOutput : List Line → String
  | [] => ""
  | .out _ :: rest => errorOutput rest
  | .err text :: rest => text ++ "\n" ++ errorOutput rest

/-- The report of a failure. -/
def failureLine (message : String) : Line := .err ("! " ++ message)

/-- Why an evaluation ended without a value, in words. -/
def Stop.message : Stop → String
  | .failed error => error.message
  | .outOfBudget => "evaluation budget exhausted"

/-- What a value prints on the standard output. -/
def valueLines (heap : Heap) (value : Value) : List Line :=
  if value.isNil then [] else [.out (heap.text value)]

/-- The outcome of running expressions: the lines printed, whether all went well, and the
machine afterwards. -/
structure Outcome where
  lines : List Line
  ok : Bool
  machine : Machine

/-- Runs what a reader hands out, up to the first failure. -/
def runItems (config : Config) (budget : Nat) :
    List (Except ReadError Expr) → Machine → Outcome
  | [], machine => ⟨[], true, machine⟩
  | .error error :: _, machine =>
    ⟨[failureLine (Error.read error).message], false, machine⟩
  | .ok raw :: items, machine =>
    match evalDatum config budget raw machine with
    | .error stop machine => ⟨[failureLine stop.message], false, machine⟩
    | .ok value machine =>
      let shown := valueLines machine.heap value
      let rest := runItems config budget items machine
      ⟨shown ++ rest.lines, rest.ok, rest.machine⟩

/-- Runs a program text. -/
def runText (config : Config) (budget : Nat) (comments : Bool) (text : String)
    (machine : Machine) : Outcome :=
  runItems config budget (Reader.ofString comments text).items machine

end TailScheme
