import TailScheme.Transcript
import TailScheme.Text.Backspace

/-!
# The interactive loop

The loop takes lines and collects them until they can be read, or cannot be read whatever
follows; such a run of lines is an entry. At the start of an entry, lines of blanks are passed
over and a few words with a colon are commands. An entry that cannot be read does nothing; the
expressions of any other entry run in order up to the first that fails. How the loop takes a
line is decided by `classify` alone, from the line and the lines collected before it.

The loop asks a line editor, which comes back with a line, with an interrupt, with the end of the
input or with a failure of its own (`Readline`). An interrupt drops the entry that is not complete,
and ends the loop where there is none. Nothing is assumed about the editor: `interact` starts from
what it comes to, whatever that is, and from whether there is an editor at all.

An input is a run of typed lines. A line reaches the loop when its backspaces have done their
work; `session` starts from such lines and `run` from the input.
-/
namespace TailScheme

/-- What the loop does with a line. -/
inductive Reaction where
  /-- Passes over a line of blanks. -/
  | blank
  /-- Shows the help text. -/
  | help
  /-- Lists the bindings of the top level. -/
  | environment
  /-- Ends the loop. -/
  | quit
  /-- Collects the line and waits for the rest of the entry. -/
  | collect
  /-- Refuses the entry that the line completes. -/
  | refuse (error : ReadError)
  /-- Runs the entry that the line completes. -/
  | run (entry : List Expr)

/-- What the line editor comes to when it is asked for a line. -/
inductive Readline where
  /-- A line. -/
  | line (text : String)
  /-- An interrupt from the keyboard. -/
  | interrupted
  /-- The end of the input. -/
  | endOfInput
  /-- A failure of the editor, as it is described. -/
  | failed (reason : String)

/-- The interactive loop between two lines. -/
structure Repl where
  machine : Machine
  /-- The lines of the entry that is not complete, in order. -/
  collected : List String
  /-- Whether the loop was asked to end. -/
  closed : Bool

namespace Repl

/-- The loop before the first line. -/
def start : Repl := ⟨Machine.initial, [], false⟩

/-- The text of lines. -/
def entryText (lines : List String) : String := String.join (lines.map (· ++ "\n"))

/-- All expressions of a text, or the failure that ends it. -/
def expressions : List (Except ReadError Expr) → Except ReadError (List Expr)
  | [] => .ok []
  | .error error :: _ => .error error
  | .ok e :: items =>
    match expressions items with
    | .error error => .error error
    | .ok rest => .ok (e :: rest)

/-- What a line does at the start of an entry, if it is not part of one. -/
def command? (line : String) : Option Reaction :=
  let word := Text.trim line
  if word = "" then some .blank
  else if word = ":help" then some .help
  else if word = ":env" then some .environment
  else if word = ":quit" ∨ word = ":exit" then some .quit
  else none

/-- What an entry of these lines does. -/
def entry (comments : Bool) (lines : List String) : Reaction :=
  match expressions (Reader.ofString comments (entryText lines)).items with
  | .ok entry => .run entry
  | .error error => if error.cause = .unfinished then .collect else .refuse error

/-- How the loop takes a line after the lines collected before it. -/
def classify (comments : Bool) (collected : List String) (line : String) : Reaction :=
  match collected, command? line with
  | [], some reaction => reaction
  | _, _ => entry comments (collected ++ [line])

/-- How things stand with the loop when it has heard from the line editor. -/
inductive Standing where
  /-- It goes on. -/
  | goesOn (repl : Repl)
  /-- It ends, in good order or because the editor failed. -/
  | ends (ok : Bool)

/-- What the loop prints before the first line. -/
def banner : List Line :=
  [.out "tramlisp: a small Scheme with proper tail calls",
    .out "Enter expressions like: (define sq (lambda (x) (* x x)))",
    .out "Type :help for more commands, or Ctrl+D to exit.",
    .out ""]

/-- What the loop prints when it ends. -/
def farewell : List Line := [.out "Goodbye!"]

/-- The help text. -/
def helpLines : List Line :=
  [.out "tramlisp commands:",
    .out "  :help      - Show this help message",
    .out "  :env       - Show current environment bindings",
    .out "  :quit      - Exit the interpreter",
    .out "  :exit      - Exit the interpreter",
    .out "  Ctrl+C     - Abandon an unfinished entry, or exit",
    .out "",
    .out "Special forms:",
    .out "  (define <id> <value>)      (set! <id> <value>)",
    .out "  (lambda (<id> ...) <body> ...)",
    .out "  (cond (<condition> <body> ...) ... (else <body> ...))",
    .out "  (quote <datum>) or '<datum>",
    .out "",
    .out "Builtins:",
    .out "  Arithmetic: + - * / %",
    .out "  Comparison: = < <= > >=",
    .out "  Logic: && || !",
    .out "  Lists: cons car cdr list null? eq? equal?",
    .out "",
    .out "Examples:",
    .out "  (+ 1 2 3)",
    .out ("  (define fact (lambda (n acc) (cond ((= n 0) acc) "
      ++ "(else (fact (- n 1) (* n acc))))))"),
    .out "  (fact 20 1)",
    .out ""]

/-- A name in a column of fifteen characters, after a margin. -/
def cell (name : String) : String :=
  "  " ++ name ++ String.ofList (List.replicate (15 - name.length) ' ')

/-- Names in rows of four columns. -/
def rows : List String → List Line
  | first :: second :: third :: fourth :: rest =>
    .out (cell first ++ cell second ++ cell third ++ cell fourth) :: rows rest
  | [] => []
  | rest => [.out (String.join (rest.map cell))]

/-- Whether a value is a builtin procedure. -/
def isBuiltin : Value → Bool
  | .builtin _ => true
  | _ => false

/-- The listing of all bindings of the top level: the names bound to builtins, and then all
other names with their values. -/
def environmentLines (heap : Heap) : List Line :=
  let bindings := heap.bindings Heap.root
  let (builtins, others) := bindings.partition fun (_, value) => isBuiltin value
  let builtinLines :=
    if builtins.isEmpty then []
    else
      .out ("Builtin procedures (" ++ toString builtins.length ++ "):")
        :: rows (builtins.map Prod.fst) ++ [.out ""]
  let otherLines :=
    if others.isEmpty then []
    else
      .out ("User-defined values (" ++ toString others.length ++ "):")
        :: others.map fun (name, value) => .out ("  " ++ name ++ " = " ++ heap.text value)
  if bindings.isEmpty then [.out "Environment is empty."]
  else
    .out ("Environment bindings (" ++ toString bindings.length ++ " total):") :: .out ""
      :: builtinLines ++ otherLines

/-- Takes one line: what is printed, and the loop afterwards. -/
def feed (config : Config) (budget : Nat) (comments : Bool) (repl : Repl) (line : String) :
    List Line × Repl :=
  match classify comments repl.collected line with
  | .blank => ([], repl)
  | .help => (helpLines, repl)
  | .environment => (environmentLines repl.machine.heap, repl)
  | .quit => ([], { repl with closed := true })
  | .collect => ([], { repl with collected := repl.collected ++ [line] })
  | .refuse error => ([failureLine (Error.read error).message], { repl with collected := [] })
  | .run entry =>
    let outcome := runItems config budget (entry.map .ok) repl.machine
    (outcome.lines, { repl with machine := outcome.machine, collected := [] })

/-- What the loop does when the line editor comes back: what is printed, and how things stand
then. -/
def respond (config : Config) (budget : Nat) (comments : Bool) (repl : Repl) :
    Readline → List Line × Standing
  | .line text =>
    let (printed, repl) := feed config budget comments repl text
    if repl.closed then (printed ++ farewell, .ends true) else (printed, .goesOn repl)
  | .interrupted =>
    if repl.collected.isEmpty then (farewell, .ends true)
    else ([], .goesOn { repl with collected := [] })
  | .endOfInput => (farewell, .ends true)
  | .failed reason => ([failureLine reason], .ends false)

/-- Asks the line editor until the loop ends: what is printed, and whether the editor never failed.
After the readings that are given, the input is at its end. -/
def converse (config : Config) (budget : Nat) (comments : Bool) :
    Repl → List Readline → List Line × Bool
  | _, [] => (farewell, true)
  | repl, reading :: readings =>
    match respond config budget comments repl reading with
    | (printed, .ends ok) => (printed, ok)
    | (printed, .goesOn repl) =>
      let (more, ok) := converse config budget comments repl readings
      (printed ++ more, ok)

/-- All that the loop prints, and whether all went well with the line editor, when the editor comes
to these readings or, with this reason, cannot be started. -/
def interact (config : Config) (budget : Nat) (comments : Bool) :
    Except String (List Readline) → List Line × Bool
  | .error reason => (banner ++ [.err ("Could not initialize REPL: " ++ reason)], false)
  | .ok readings =>
    let (printed, ok) := converse config budget comments start readings
    (banner ++ printed, ok)

/-- What the loop prints for lines, up to its farewell. -/
def runLines (config : Config) (budget : Nat) (comments : Bool) (repl : Repl)
    (lines : List String) : List Line :=
  (converse config budget comments repl (lines.map .line)).1

/-- The lines of an input, given the line before the cursor in reverse: lines end at a line
feed, and one carriage return before it belongs to the line end. -/
def linesFrom (current : List Char) : List Char → List String
  | [] => if current.isEmpty then [] else [String.ofList current.reverse]
  | c :: rest =>
    if c = '\n' then
      match current with
      | '\r' :: line => String.ofList line.reverse :: linesFrom [] rest
      | line => String.ofList line.reverse :: linesFrom [] rest
    else linesFrom (c :: current) rest

/-- The lines of an input as they are typed. -/
def typedLines (input : String) : List String := linesFrom [] input.toList

/-- The lines of an input as they stand when their backspaces have done their work. -/
def inputLines (input : String) : List String := (typedLines input).map Text.settled

/-- What the line editor comes to when the input is piped into it. -/
def readings (input : String) : List Readline := (inputLines input).map .line

/-- All that the loop prints when it is given these lines. -/
def session (config : Config) (budget : Nat) (comments : Bool) (lines : List String) :
    List Line :=
  (interact config budget comments (.ok (lines.map .line))).1

/-- All that the loop prints for an input. -/
def run (config : Config) (budget : Nat) (comments : Bool) (input : String) : List Line :=
  session config budget comments (inputLines input)

section

variable (config : Config) (budget : Nat) (comments : Bool) (repl : Repl)

/-- The loop takes a line, and goes on if it is not asked to end. -/
theorem converse_line (line : String) (readings : List Readline) :
    converse config budget comments repl (.line line :: readings) =
      let (printed, repl) := feed config budget comments repl line
      if repl.closed then (printed ++ farewell, true)
      else
        let (more, ok) := converse config budget comments repl readings
        (printed ++ more, ok) := by
  rw [converse, respond]
  cases closed : (feed config budget comments repl line).2.closed <;> simp [closed]

/-- The loop takes the first line, and the others if it goes on. -/
theorem runLines_cons (line : String) (lines : List String) :
    runLines config budget comments repl (line :: lines) =
      let (printed, repl) := feed config budget comments repl line
      if repl.closed then printed ++ farewell
      else printed ++ runLines config budget comments repl lines := by
  rw [runLines, List.map_cons, converse_line]
  dsimp only
  split <;> rfl

/-- As long as lines come, the line editor does not fail. -/
theorem converse_lines (lines : List String) :
    converse config budget comments repl (lines.map .line) =
      (runLines config budget comments repl lines, true) := by
  refine Prod.ext rfl ?_
  induction lines generalizing repl with
  | nil => rfl
  | cons line lines ih =>
    rw [List.map_cons, converse_line]
    dsimp only
    split
    · rfl
    · exact ih _

/-- A session prints its banner first. -/
theorem session_eq (lines : List String) :
    session config budget comments lines = banner ++ runLines config budget comments start lines :=
  rfl

/-- With a piped input, the line editor does not fail. -/
theorem interact_readings (input : String) :
    interact config budget comments (.ok (readings input)) =
      (run config budget comments input, true) := by
  rw [interact, readings, converse_lines]
  rfl

end

/-- Without backspaces the lines are those that are typed. -/
theorem inputLines_eq_typedLines {input : String}
    (plain : ∀ line ∈ typedLines input, Text.backspace ∉ line.toList) :
    inputLines input = typedLines input := by
  rw [inputLines]
  exact (List.map_congr_left fun line among => Text.settled_eq_self (plain line among)).trans
    (List.map_id _)

end Repl

end TailScheme
