import TailScheme.Proofs.Successive
import TailScheme.Repl
import Mathlib.Data.List.Induction

/-!
# What the interactive loop does with its lines

The lines of an input fall into exchanges: lines of blanks, commands, and entries, which are refused
or accepted (`Repl.Exchange`). Which exchange comes next is told by the lines alone. While an entry
is open, whatever has been collected of it is unfinished, and it ends with the first line after
which that is no longer so (`Repl.Collected`). So there is one way only to divide the lines
(`Repl.division_unique`).

Between two exchanges the loop has nothing collected (`Repl.feedAll_of_effect`), and only accepted
entries change the machine. Their expressions are evaluated up to the first that fails, so that what
stands after it might as well not be there.
-/
namespace TailScheme

open Reader

section

variable (config : Config) (budget : Nat)

/-- All expressions have values when they are evaluated one after the other: what is printed of
them, and the machine after the last. -/
inductive Succeeds : List Expr → Machine → List Line → Machine → Prop where
  | nil (machine : Machine) : Succeeds [] machine [] machine
  | cons {raw : Expr} {rest : List Expr} {machine middle after : Machine} {value : Value}
      {lines : List Line} (evaluated : evalDatum config budget raw machine = .ok value middle)
      (others : Succeeds rest middle lines after) :
      Succeeds (raw :: rest) machine (valueLines middle.heap value ++ lines) after

variable {config budget} {es : List Expr} {machine after : Machine} {lines : List Line}

/-- After expressions that have values, a run goes on. -/
theorem Succeeds.runItems_append (succeeds : Succeeds config budget es machine lines after)
    (items : List (Except ReadError Expr)) :
    runItems config budget (es.map .ok ++ items) machine =
      let rest := runItems config budget items after
      ⟨lines ++ rest.lines, rest.ok, rest.machine⟩ := by
  induction succeeds with
  | nil machine => rfl
  | cons evaluated others ih =>
    rw [List.map_cons, List.cons_append, runItems, evaluated]
    dsimp only
    rw [ih, List.append_assoc]

/-- Expressions that have values run well. -/
theorem Succeeds.runItems_eq (succeeds : Succeeds config budget es machine lines after) :
    runItems config budget (es.map .ok) machine = ⟨lines, true, after⟩ := by
  have run := succeeds.runItems_append []
  simpa only [List.append_nil, runItems] using run

/-- A run ends with the first expression that fails, whatever stands after it. -/
theorem Succeeds.runItems_of_failure {failing : Expr} {stop : Stop} {middle : Machine}
    (succeeds : Succeeds config budget es machine lines middle)
    (fails : evalDatum config budget failing middle = .error stop after) (skipped : List Expr) :
    runItems config budget ((es ++ failing :: skipped).map .ok) machine =
      ⟨lines ++ [failureLine stop.message], false, after⟩ := by
  rw [List.map_append, succeeds.runItems_append, List.map_cons, runItems, fails]

variable (config budget es machine) in
/-- Either all expressions have values, or one of them is the first that fails. -/
theorem succeeds_or_fails :
    (∃ lines after, Succeeds config budget es machine lines after) ∨
      ∃ ran failing skipped lines middle stop after, es = ran ++ failing :: skipped ∧
        Succeeds config budget ran machine lines middle ∧
        evalDatum config budget failing middle = .error stop after := by
  induction es generalizing machine with
  | nil => exact .inl ⟨[], machine, .nil machine⟩
  | cons raw es ih =>
    cases evaluated : evalDatum config budget raw machine with
    | error stop after =>
      exact .inr ⟨[], raw, es, [], machine, stop, after, rfl, .nil machine, evaluated⟩
    | ok value middle =>
      rcases ih middle with ⟨lines, after, others⟩ | ⟨ran, failing, skipped, lines, last, stop,
        after, rfl, others, fails⟩
      · exact .inl ⟨_, after, .cons evaluated others⟩
      · exact .inr ⟨raw :: ran, failing, skipped, _, last, stop, after, rfl,
          .cons evaluated others, fails⟩

end

namespace Repl

/-- The lines that are no part of an entry where none is open, without the blanks at their ends. -/
def words : List String := ["", ":help", ":env", ":quit", ":exit"]

/-- The expressions of lines, or why they cannot be read. -/
def reading (comments : Bool) (lines : List String) : Except ReadError (List Expr) :=
  expressions (Reader.ofString comments (entryText lines)).items

/-- What lines are read as is told by what the reader hands out. -/
theorem reading_of_calls {comments : Bool} {lines : List String}
    (items : List (Except ReadError Expr))
    (handed : ((ofString comments (entryText lines)).calls (items.length + 1)).map Prod.fst =
      items.map some ++ [none]) : reading comments lines = expressions items := by
  rw [reading, items_eq_iff.mpr handed]

/-- The lines can be read once more lines follow. -/
def Unfinished (comments : Bool) (lines : List String) : Prop :=
  ∃ error, reading comments lines = .error error ∧ error.cause = .unfinished

/-- The lines are collected one after the other from the start of an entry: the first is none that
stands for itself, and the entry is unfinished before the last. -/
structure Collected (comments : Bool) (lines : List String) : Prop where
  begins : ∀ first ∈ lines.head?, Text.trim first ∉ words
  unfinished : ∀ front, front <+: lines → front ≠ [] → front ≠ lines → Unfinished comments front

/-- The lines are collected, and the loop waits for another one. -/
structure Pending (comments : Bool) (lines : List String) : Prop where
  collected : Collected comments lines
  unfinished : lines ≠ [] → Unfinished comments lines

/-- What the loop takes in from the start of an entry to the next one. -/
inductive Exchange where
  /-- A line of blanks. -/
  | blank (line : String)
  /-- A request for the help text. -/
  | help (line : String)
  /-- A request for the bindings of the top level. -/
  | environment (line : String)
  /-- An entry that cannot be read. -/
  | refused (entered : List String) (error : ReadError)
  /-- An entry that is read as these expressions. -/
  | accepted (entered : List String) (entry : List Expr)

namespace Exchange

/-- The lines that are taken in. -/
def lines : Exchange → List String
  | .blank line | .help line | .environment line => [line]
  | .refused entered _ | .accepted entered _ => entered

/-- What the loop does at the last of the lines. -/
def reaction : Exchange → Reaction
  | .blank _ => .blank
  | .help _ => .help
  | .environment _ => .environment
  | .refused _ error => .refuse error
  | .accepted _ entry => .run entry

/-- The exchange is what comes of its lines. -/
def Arises (comments : Bool) : Exchange → Prop
  | .blank line => Text.trim line = ""
  | .help line => Text.trim line = ":help"
  | .environment line => Text.trim line = ":env"
  | .refused entered error => entered ≠ [] ∧ Collected comments entered ∧
      reading comments entered = .error error ∧ error.cause ≠ .unfinished
  | .accepted entered entry => entered ≠ [] ∧ Collected comments entered ∧
      reading comments entered = .ok entry

/-- What an exchange prints and makes of the machine. -/
inductive Effect (config : Config) (budget : Nat) :
    Exchange → Machine → List Line → Machine → Prop where
  | blank (line : String) (machine : Machine) :
      Effect config budget (.blank line) machine [] machine
  | help (line : String) (machine : Machine) :
      Effect config budget (.help line) machine helpLines machine
  | environment (line : String) (machine : Machine) :
      Effect config budget (.environment line) machine (environmentLines machine.heap) machine
  | refused (entered : List String) (error : ReadError) (machine : Machine) :
      Effect config budget (.refused entered error) machine
        [failureLine (Error.read error).message] machine
  | succeeds {entered : List String} {entry : List Expr} {machine after : Machine}
      {printed : List Line} (succeeds : Succeeds config budget entry machine printed after) :
      Effect config budget (.accepted entered entry) machine printed after
  | fails {entered : List String} {ran skipped : List Expr} {failing : Expr}
      {machine middle after : Machine} {printed : List Line} {stop : Stop}
      (succeeds : Succeeds config budget ran machine printed middle)
      (fails : evalDatum config budget failing middle = .error stop after) :
      Effect config budget (.accepted entered (ran ++ failing :: skipped)) machine
        (printed ++ [failureLine stop.message]) after

end Exchange

/-- How the loop ends. -/
inductive Ending where
  /-- It is asked to; further lines are not read. -/
  | quit (line : String) (unread : List String)
  /-- The input ends, with these lines still collected. -/
  | input (collected : List String)

namespace Ending

/-- The lines from the last exchange on. -/
def lines : Ending → List String
  | .quit line unread => line :: unread
  | .input collected => collected

/-- The lines that are still collected. -/
def collected : Ending → List String
  | .quit _ _ => []
  | .input collected => collected

/-- Whether the loop was asked to end. -/
def closes : Ending → Bool
  | .quit _ _ => true
  | .input _ => false

/-- The ending is what comes of its lines. -/
def Arises (comments : Bool) : Ending → Prop
  | .quit line _ => Text.trim line = ":quit" ∨ Text.trim line = ":exit"
  | .input collected => Pending comments collected

end Ending

/-- Exchanges that take place one after the other: what is printed, and the machine after the
last. -/
inductive Exchanges (config : Config) (budget : Nat) :
    List Exchange → Machine → List Line → Machine → Prop where
  | nil (machine : Machine) : Exchanges config budget [] machine [] machine
  | cons {exchange : Exchange} {rest : List Exchange} {machine middle after : Machine}
      {printed more : List Line} (effect : exchange.Effect config budget machine printed middle)
      (others : Exchanges config budget rest middle more after) :
      Exchanges config budget (exchange :: rest) machine (printed ++ more) after

/-- Takes lines as long as the loop is not asked to end: what is printed, and the loop
afterwards. -/
def feedAll (config : Config) (budget : Nat) (comments : Bool) : Repl → List String →
    List Line × Repl
  | repl, [] => ([], repl)
  | repl, line :: lines =>
    if repl.closed then ([], repl)
    else
      let taken := feed config budget comments repl line
      let others := feedAll config budget comments taken.2 lines
      (taken.1 ++ others.1, others.2)

section

variable {config : Config} {budget : Nat} {comments : Bool}

variable (config budget comments) in
/-- Lines are taken one after the other. -/
theorem feedAll_append (repl : Repl) (lines more : List String) :
    feedAll config budget comments repl (lines ++ more) =
      let first := feedAll config budget comments repl lines
      let others := feedAll config budget comments first.2 more
      (first.1 ++ others.1, others.2) := by
  induction lines generalizing repl with
  | nil => simp [feedAll]
  | cons line lines ih =>
    rw [List.cons_append, feedAll, feedAll]
    split
    · next closed => cases more <;> simp [feedAll, closed]
    · dsimp only
      rw [ih, List.append_assoc]

variable (config budget comments) in
/-- Whatever the line editor comes to after lines, the loop hears of it with what it has made of the
lines, unless they ask it to end. -/
theorem converse_append {repl : Repl} (not_closed : repl.closed = false) (lines : List String)
    (later : List Readline) :
    converse config budget comments repl (lines.map .line ++ later) =
      let (printed, repl) := feedAll config budget comments repl lines
      if repl.closed then (printed ++ farewell, true)
      else
        let (more, ok) := converse config budget comments repl later
        (printed ++ more, ok) := by
  induction lines generalizing repl with
  | nil => simp [feedAll, not_closed]
  | cons line lines ih =>
    rw [List.map_cons, List.cons_append, converse_line, feedAll, if_neg (by simp [not_closed])]
    by_cases closed : (feed config budget comments repl line).2.closed = true
    · cases lines <;> simp [feedAll, closed]
    · dsimp only
      rw [if_neg closed, ih (Bool.eq_false_iff.mpr closed)]
      dsimp only
      split <;> simp [List.append_assoc]

variable (config budget comments) in
/-- The loop prints what it prints for its lines, and then takes its leave. -/
theorem runLines_eq_feedAll {repl : Repl} (not_closed : repl.closed = false) (lines : List String) :
    runLines config budget comments repl lines =
      (feedAll config budget comments repl lines).1 ++ farewell := by
  have whole := converse_append config budget comments not_closed lines []
  rw [List.append_nil] at whole
  rw [runLines, whole]
  dsimp only
  split <;> rfl

/-- Nothing is collected at the start of an entry. -/
theorem Pending.nil (comments : Bool) : Pending comments [] where
  collected :=
    { begins := by simp
      unfinished := fun front within some_line _ => absurd (List.prefix_nil.mp within) some_line }
  unfinished := fun some_line => absurd rfl some_line

/-- Lines are collected if the loop waits before the last one, which is none that stands for
itself. -/
theorem collected_concat_iff {front : List String} {last : String} :
    Collected comments (front ++ [last]) ↔
      Pending comments front ∧ (front = [] → Text.trim last ∉ words) := by
  constructor
  · intro collected
    have shorter : front ≠ front ++ [last] := by simp
    refine ⟨⟨⟨fun first among => ?_, fun part within some_line _ => ?_⟩, fun some_line => ?_⟩, ?_⟩
    · exact collected.begins first (List.mem_head?_append_of_mem_head? among)
    · refine collected.unfinished part (within.trans (List.prefix_append front [last])) some_line ?_
      rintro rfl
      exact absurd within.length_le (by simp)
    · exact collected.unfinished front (List.prefix_append front [last]) some_line shorter
    · rintro rfl
      exact collected.begins last rfl
  · rintro ⟨pending, no_word⟩
    refine ⟨fun first among => ?_, fun part within some_line shorter => ?_⟩
    · cases front with
      | nil =>
        obtain rfl : last = first := by simpa using among
        exact no_word rfl
      | cons line front => exact pending.collected.begins first among
    · have within_front := (List.prefix_concat_iff.mp within).resolve_left shorter
      by_cases same : part = front
      · exact same ▸ pending.unfinished (same ▸ some_line)
      · exact pending.collected.unfinished part within_front some_line same

/-- A line that does not stand for itself is no command. -/
theorem command?_of_not_mem {line : String} (no_word : Text.trim line ∉ words) :
    command? line = none := by
  simp only [words, List.mem_cons, List.not_mem_nil, or_false, not_or] at no_word
  obtain ⟨not_empty, not_help, not_env, not_quit, not_exit⟩ := no_word
  simp [command?, not_empty, not_help, not_env, not_quit, not_exit]

/-- A line that is collected is taken for a part of its entry. -/
theorem classify_of_collected {front : List String} {last : String}
    (collected : Collected comments (front ++ [last])) :
    classify comments front last = entry comments (front ++ [last]) := by
  have no_word := (collected_concat_iff.mp collected).2
  cases front with
  | nil => simp only [classify, command?_of_not_mem (no_word rfl)]
  | cons first front => rfl

/-- Unfinished lines are collected. -/
theorem entry_of_unfinished {lines : List String} (unfinished : Unfinished comments lines) :
    entry comments lines = .collect := by
  obtain ⟨error, failed, cause⟩ := unfinished
  rw [reading] at failed
  rw [entry, failed]
  exact if_pos cause

/-- Lines that cannot be read are refused. -/
theorem entry_of_error {lines : List String} {error : ReadError}
    (failed : reading comments lines = .error error) (finished : error.cause ≠ .unfinished) :
    entry comments lines = .refuse error := by
  rw [reading] at failed
  rw [entry, failed]
  exact if_neg finished

/-- Lines that are read are run. -/
theorem entry_of_ok {lines : List String} {es : List Expr}
    (read : reading comments lines = .ok es) : entry comments lines = .run es := by
  rw [reading] at read
  rw [entry, read]

variable (config budget) in
/-- One line is taken. -/
theorem feedAll_singleton {repl : Repl} (not_closed : repl.closed = false) (line : String) :
    feedAll config budget comments repl [line] = feed config budget comments repl line := by
  simp [feedAll, not_closed]

variable (config budget) in
/-- While lines are collected, nothing is printed and nothing is evaluated. -/
theorem feedAll_of_pending {lines : List String} (pending : Pending comments lines)
    (machine : Machine) :
    feedAll config budget comments ⟨machine, [], false⟩ lines = ([], ⟨machine, lines, false⟩) := by
  induction lines using List.reverseRecOn with
  | nil => rfl
  | append_singleton front last ih =>
    have front_pending := (collected_concat_iff.mp pending.collected).1
    have unfinished := pending.unfinished (by simp)
    rw [feedAll_append, ih front_pending]
    dsimp only
    rw [feedAll_singleton config budget rfl, feed, classify_of_collected pending.collected,
      entry_of_unfinished unfinished]
    rfl

/-- The loop waits for the last line of an exchange and reacts to it. -/
theorem Exchange.Arises.classify_eq {exchange : Exchange} (arises : exchange.Arises comments) :
    ∃ front last, exchange.lines = front ++ [last] ∧ Pending comments front ∧
      classify comments front last = exchange.reaction := by
  have entered {lines : List String} (some_line : lines ≠ [])
      (collected : Collected comments lines) :
      ∃ front last, lines = front ++ [last] ∧ Pending comments front ∧
        classify comments front last = entry comments lines := by
    obtain ⟨front, last, rfl⟩ := (List.eq_nil_or_concat' lines).resolve_left some_line
    exact ⟨front, last, rfl, (collected_concat_iff.mp collected).1, classify_of_collected collected⟩
  cases exchange with
  | blank line | help line | environment line =>
    refine ⟨[], line, rfl, .nil comments, ?_⟩
    simp [classify, command?, show Text.trim line = _ from arises, reaction]
  | refused lines error =>
    obtain ⟨some_line, collected, failed, finished⟩ := arises
    rw [reaction, ← entry_of_error failed finished]
    exact entered some_line collected
  | accepted lines entry =>
    obtain ⟨some_line, collected, read⟩ := arises
    rw [reaction, ← entry_of_ok read]
    exact entered some_line collected

/-- The lines of an exchange have its effect, and nothing is collected after them. -/
theorem feedAll_of_effect {exchange : Exchange} {machine after : Machine} {printed : List Line}
    (arises : exchange.Arises comments)
    (effect : exchange.Effect config budget machine printed after) :
    feedAll config budget comments ⟨machine, [], false⟩ exchange.lines =
      (printed, ⟨after, [], false⟩) := by
  obtain ⟨front, last, whole, pending, classified⟩ := arises.classify_eq
  rw [whole, feedAll_append, feedAll_of_pending config budget pending]
  dsimp only
  rw [feedAll_singleton config budget rfl, feed, classified, List.nil_append]
  have front_eq {line : String} (only : [line] = front ++ [last]) : front = [] := by
    simpa using congrArg List.length only
  cases effect with
  | blank line | help line | environment line =>
    rw [front_eq whole]
    rfl
  | refused entered error => rfl
  | succeeds succeeds =>
    dsimp only [Exchange.reaction]
    rw [succeeds.runItems_eq]
  | @fails _ _ skipped _ _ _ _ _ _ succeeds fails =>
    dsimp only [Exchange.reaction]
    rw [succeeds.runItems_of_failure fails skipped]

/-- At the start of an entry, the loop ends at a request to do so. -/
theorem classify_of_quit {line : String}
    (asked : Text.trim line = ":quit" ∨ Text.trim line = ":exit") :
    classify comments [] line = .quit := by
  rcases asked with word | word <;> simp [classify, command?, word]

/-- The lines with which the loop ends are collected, or none is. -/
theorem feedAll_of_ending {ending : Ending} (arises : ending.Arises comments) (machine : Machine) :
    feedAll config budget comments ⟨machine, [], false⟩ ending.lines =
      ([], ⟨machine, ending.collected, ending.closes⟩) := by
  cases ending with
  | quit line unread =>
    rw [Ending.lines, feedAll, if_neg Bool.false_ne_true, feed, classify_of_quit arises]
    cases unread <;> rfl
  | input collected => exact feedAll_of_pending config budget arises machine

variable (config budget) in
/-- Every exchange has an effect. -/
theorem exists_effect (exchange : Exchange) (machine : Machine) :
    ∃ printed after, exchange.Effect config budget machine printed after := by
  cases exchange with
  | blank line => exact ⟨_, _, .blank line machine⟩
  | help line => exact ⟨_, _, .help line machine⟩
  | environment line => exact ⟨_, _, .environment line machine⟩
  | refused entered error => exact ⟨_, _, .refused entered error machine⟩
  | accepted entered entry =>
    rcases succeeds_or_fails config budget entry machine with ⟨printed, after, succeeds⟩ |
      ⟨ran, failing, skipped, printed, middle, stop, after, rfl, succeeds, fails⟩
    · exact ⟨printed, after, .succeeds succeeds⟩
    · exact ⟨_, after, .fails succeeds fails⟩

variable (config budget) in
/-- Exchanges can take place one after the other. -/
theorem exists_exchanges (exchanges : List Exchange) (machine : Machine) :
    ∃ printed after, Exchanges config budget exchanges machine printed after := by
  induction exchanges generalizing machine with
  | nil => exact ⟨[], machine, .nil machine⟩
  | cons exchange exchanges ih =>
    obtain ⟨printed, middle, effect⟩ := exists_effect config budget exchange machine
    obtain ⟨more, after, others⟩ := ih middle
    exact ⟨printed ++ more, after, .cons effect others⟩

/-- Of exchanges that take place one after the other, the first ones take place. -/
theorem Exchanges.of_append {done rest : List Exchange} {machine after : Machine}
    {printed : List Line}
    (exchanges : Exchanges config budget (done ++ rest) machine printed after) :
    ∃ shown middle, Exchanges config budget done machine shown middle := by
  induction done generalizing machine printed with
  | nil => exact ⟨[], machine, .nil machine⟩
  | cons exchange done ih =>
    cases exchanges with
    | cons effect others =>
      obtain ⟨shown, middle, first⟩ := ih others
      exact ⟨_, middle, .cons effect first⟩

/-- The lines of exchanges have their effects, and nothing is collected after them. -/
theorem feedAll_of_exchanges {exchanges : List Exchange} {machine after : Machine}
    {printed : List Line} (arise : ∀ exchange ∈ exchanges, exchange.Arises comments)
    (effects : Exchanges config budget exchanges machine printed after) :
    feedAll config budget comments ⟨machine, [], false⟩ (exchanges.flatMap Exchange.lines) =
      (printed, ⟨after, [], false⟩) := by
  induction effects with
  | nil machine => rfl
  | cons effect others ih =>
    rw [List.forall_mem_cons] at arise
    rw [List.flatMap_cons, feedAll_append, feedAll_of_effect arise.1 effect]
    dsimp only
    rw [ih arise.2]

end

/-- The lines are divided into those of exchanges and those of an ending, and each of these is what
comes of its lines. -/
structure Division (comments : Bool) (lines : List String) (exchanges : List Exchange)
    (ending : Ending) : Prop where
  whole : lines = exchanges.flatMap Exchange.lines ++ ending.lines
  arise : ∀ exchange ∈ exchanges, exchange.Arises comments
  ends : ending.Arises comments

section

variable {comments : Bool} {exchanges : List Exchange} {ending : Ending} {rest : List String}

/-- An exchange stands before others. -/
theorem Division.cons {exchange : Exchange} (arises : exchange.Arises comments)
    (division : Division comments rest exchanges ending) :
    Division comments (exchange.lines ++ rest) (exchange :: exchanges) ending where
  whole := by rw [List.flatMap_cons, List.append_assoc, ← division.whole]
  arise := List.forall_mem_cons.mpr ⟨arises, division.arise⟩
  ends := division.ends

/-- A line that stands for itself is a division with any that follows, or ends the loop. -/
theorem exists_division_of_word {line : String} (word : Text.trim line ∈ words)
    (division : Division comments rest exchanges ending) :
    ∃ exchanges ending, Division comments (line :: rest) exchanges ending := by
  have quits (asked : Text.trim line = ":quit" ∨ Text.trim line = ":exit") :
      ∃ exchanges ending, Division comments (line :: rest) exchanges ending :=
    ⟨[], .quit line rest, ⟨rfl, List.forall_mem_nil _, asked⟩⟩
  simp only [words, List.mem_cons, List.not_mem_nil, or_false] at word
  rcases word with empty | help | environment | quit | exit
  · have blank : (Exchange.blank line).Arises comments := empty
    exact ⟨_, ending, division.cons blank⟩
  · have request : (Exchange.help line).Arises comments := help
    exact ⟨_, ending, division.cons request⟩
  · have request : (Exchange.environment line).Arises comments := environment
    exact ⟨_, ending, division.cons request⟩
  · exact quits (.inl quit)
  · exact quits (.inr exit)

/-- All lines can be divided, also after lines that are collected. -/
theorem exists_division {collected : List String} (pending : Pending comments collected)
    (rest : List String) :
    ∃ exchanges ending, Division comments (collected ++ rest) exchanges ending := by
  induction rest generalizing collected with
  | nil =>
    exact ⟨[], .input collected, ⟨List.append_nil _, List.forall_mem_nil _, pending⟩⟩
  | cons line rest ih =>
    obtain ⟨exchanges, ending, division⟩ := ih (.nil comments)
    by_cases word : collected = [] ∧ Text.trim line ∈ words
    · obtain ⟨rfl, word⟩ := word
      exact exists_division_of_word word division
    · have entered : Collected comments (collected ++ [line]) :=
        collected_concat_iff.mpr ⟨pending, fun start among => word ⟨start, among⟩⟩
      have some_line : collected ++ [line] ≠ [] := by simp
      rw [List.append_cons]
      cases read : reading comments (collected ++ [line]) with
      | ok entry =>
        have arises : (Exchange.accepted (collected ++ [line]) entry).Arises comments :=
          ⟨some_line, entered, read⟩
        exact ⟨_, ending, division.cons arises⟩
      | error error =>
        by_cases unfinished : error.cause = .unfinished
        · exact ih ⟨entered, fun _ => ⟨error, read, unfinished⟩⟩
        · have arises : (Exchange.refused (collected ++ [line]) error).Arises comments :=
            ⟨some_line, entered, read, unfinished⟩
          exact ⟨_, ending, division.cons arises⟩

/-- Whatever stands at the start of lines for whose end the loop waits, it waits for its end. -/
theorem Pending.of_start {front lines : List String} (pending : Pending comments lines)
    (within : front <+: lines) : Pending comments front := by
  have unfinished {part : List String} (part_within : part <+: lines) (some_line : part ≠ []) :
      Unfinished comments part := by
    by_cases same : part = lines
    · exact same ▸ pending.unfinished (same ▸ some_line)
    · exact pending.collected.unfinished part part_within some_line same
  refine ⟨⟨fun first among => ?_, fun part part_within some_line _ => ?_⟩, unfinished within⟩
  · obtain ⟨back, rfl⟩ := within
    exact pending.collected.begins first (List.mem_head?_append_of_mem_head? among)
  · exact unfinished (part_within.trans within) some_line

variable {exchange other : Exchange} {last : Ending}

/-- The loop does not wait after the lines of an exchange. -/
theorem Exchange.Arises.not_pending {lines : List String} (arises : exchange.Arises comments)
    (within : exchange.lines <+: lines) : ¬ Pending comments lines := by
  intro pending
  obtain ⟨front, line, whole, -, classified⟩ := arises.classify_eq
  rw [whole] at within
  have waits := pending.of_start within
  have unfinished := waits.unfinished (by simp)
  rw [classify_of_collected waits.collected, entry_of_unfinished unfinished] at classified
  cases exchange <;> cases classified

/-- Exchanges of the same lines, to which the loop reacts in the same way, are the same. -/
theorem Exchange.eq_of_reaction (same_lines : exchange.lines = other.lines)
    (same_reaction : exchange.reaction = other.reaction) : exchange = other := by
  cases exchange <;> cases other <;> simp_all [Exchange.lines, Exchange.reaction]

/-- Of two exchanges, none starts with the lines of the other. -/
theorem Exchange.Arises.eq_of_start (arises : exchange.Arises comments)
    (others : other.Arises comments) (within : exchange.lines <+: other.lines) :
    exchange = other := by
  obtain ⟨front, line, whole, -, classified⟩ := arises.classify_eq
  obtain ⟨other_front, other_line, other_whole, waits, other_classified⟩ := others.classify_eq
  have same : exchange.lines = other_front ++ [other_line] := by
    by_contra shorter
    rw [other_whole] at within
    exact arises.not_pending ((List.prefix_concat_iff.mp within).resolve_left shorter) waits
  obtain ⟨rfl, same_line⟩ := List.append_inj' (whole.symm.trans same) rfl
  obtain rfl := List.singleton_inj.mp same_line
  exact Exchange.eq_of_reaction (same.trans other_whole.symm)
    (classified.symm.trans other_classified)

/-- A request to end the loop is not collected. -/
theorem Collected.no_quit {line : String} {unread : List String}
    (collected : Collected comments (line :: unread)) :
    ¬ (Text.trim line = ":quit" ∨ Text.trim line = ":exit") := by
  intro asked
  have no_word := collected.begins line rfl
  rcases asked with word | word <;> simp [words, word] at no_word

/-- An exchange is no ending. -/
theorem Exchange.Arises.lines_ne_ending (arises : exchange.Arises comments)
    (ends : ending.Arises comments) (rest : List String) :
    exchange.lines ++ rest ≠ ending.lines := by
  intro same
  cases ending with
  | input collected => exact arises.not_pending ⟨rest, same⟩ ends
  | quit line unread =>
    obtain ⟨front, last, whole, waits, classified⟩ := arises.classify_eq
    rw [whole, Ending.lines] at same
    cases front with
    | cons first front =>
      obtain rfl : first = line := (List.cons.inj same).1
      exact waits.collected.no_quit ends
    | nil =>
      obtain rfl : last = line := (List.cons.inj same).1
      rw [classify_of_quit ends] at classified
      cases exchange <;> cases classified

/-- The lines from the last exchange on tell how the loop ends. -/
theorem Ending.Arises.unique (ends : ending.Arises comments) (others : last.Arises comments)
    (same : ending.lines = last.lines) : ending = last := by
  cases ending with
  | quit line unread =>
    cases last with
    | quit other_line other_unread =>
      obtain ⟨rfl, rfl⟩ := List.cons.inj same
      rfl
    | input collected =>
      obtain rfl : line :: unread = collected := same
      exact absurd ends others.collected.no_quit
  | input collected =>
    cases last with
    | quit line unread =>
      obtain rfl : collected = line :: unread := same
      exact absurd others ends.collected.no_quit
    | input others_collected =>
      obtain rfl : collected = others_collected := same
      rfl

/-- There is only one way to divide lines. -/
theorem division_unique {lines : List String} {others : List Exchange}
    (first : Division comments lines exchanges ending)
    (second : Division comments lines others last) : exchanges = others ∧ ending = last := by
  induction exchanges generalizing lines others with
  | nil =>
    have first_whole : lines = ending.lines := first.whole
    cases others with
    | nil => exact ⟨rfl, first.ends.unique second.ends (first_whole.symm.trans second.whole)⟩
    | cons other others =>
      have second_whole := second.whole
      rw [List.flatMap_cons, List.append_assoc] at second_whole
      have arises := second.arise other List.mem_cons_self
      exact absurd (second_whole.symm.trans first_whole) (arises.lines_ne_ending first.ends _)
  | cons exchange exchanges ih =>
    have first_whole := first.whole
    rw [List.flatMap_cons, List.append_assoc] at first_whole
    have arises := first.arise exchange List.mem_cons_self
    cases others with
    | nil =>
      exact absurd (first_whole.symm.trans second.whole) (arises.lines_ne_ending second.ends _)
    | cons other others =>
      have second_whole := second.whole
      rw [List.flatMap_cons, List.append_assoc] at second_whole
      have other_arises := second.arise other List.mem_cons_self
      have same_lines := first_whole.symm.trans second_whole
      have same : exchange = other := by
        rcases List.prefix_or_prefix_of_prefix (List.prefix_append _ _)
          (same_lines ▸ List.prefix_append _ _) with within | within
        · exact (other_arises.eq_of_start arises within).symm
        · exact arises.eq_of_start other_arises within
      subst same
      have first_rest : Division comments _ exchanges ending :=
        ⟨rfl, fun exchange among => first.arise exchange (List.mem_cons_of_mem _ among), first.ends⟩
      have second_rest : Division comments _ others last :=
        ⟨List.append_cancel_left same_lines,
          fun exchange among => second.arise exchange (List.mem_cons_of_mem _ among), second.ends⟩
      obtain ⟨rfl, same_ending⟩ := ih first_rest second_rest
      exact ⟨rfl, same_ending⟩

end

section

variable {config : Config} {budget : Nat} {comments : Bool} {lines : List String}
  {exchanges : List Exchange} {ending : Ending} {machine after : Machine} {printed : List Line}

/-- The lines of a division have the effects of its exchanges, and its ending is where the loop
stands then. -/
theorem Division.feedAll_eq (division : Division comments lines exchanges ending)
    (effects : Exchanges config budget exchanges machine printed after) :
    feedAll config budget comments ⟨machine, [], false⟩ lines =
      (printed, ⟨after, ending.collected, ending.closes⟩) := by
  rw [division.whole, feedAll_append, feedAll_of_exchanges division.arise effects]
  dsimp only
  rw [feedAll_of_ending division.ends, List.append_nil]

/-- When lines are interrupted inside an entry, what is collected of it is dropped, and whatever
comes later is taken as if it had not been typed. -/
theorem converse_of_interrupt {first : String} {collected : List String}
    (division : Division comments lines exchanges (.input (first :: collected)))
    (effects : Exchanges config budget exchanges machine printed after) (later : List Readline) :
    converse config budget comments ⟨machine, [], false⟩
        (lines.map .line ++ .interrupted :: later) =
      converse config budget comments ⟨machine, [], false⟩
        ((exchanges.flatMap Exchange.lines).map .line ++ later) := by
  have short : Division comments (exchanges.flatMap Exchange.lines) exchanges (.input []) :=
    ⟨(List.append_nil _).symm, division.arise, .nil comments⟩
  rw [converse_append config budget comments rfl, converse_append config budget comments rfl,
    division.feedAll_eq effects, short.feedAll_eq effects]
  rfl

/-- Between two entries, an interrupt ends the loop as the end of the input does. -/
theorem converse_of_interrupt_between
    (division : Division comments lines exchanges (.input []))
    (effects : Exchanges config budget exchanges machine printed after) (later : List Readline) :
    converse config budget comments ⟨machine, [], false⟩
        (lines.map .line ++ .interrupted :: later) = (printed ++ farewell, true) := by
  rw [converse_append config budget comments rfl, division.feedAll_eq effects]
  rfl

/-- A failure of the line editor is reported after all that the lines before it have printed, and
ends the loop without its leave. -/
theorem converse_of_failure {collected : List String}
    (division : Division comments lines exchanges (.input collected))
    (effects : Exchanges config budget exchanges machine printed after) (reason : String)
    (later : List Readline) :
    converse config budget comments ⟨machine, [], false⟩
        (lines.map .line ++ .failed reason :: later) =
      (printed ++ [failureLine reason], false) := by
  rw [converse_append config budget comments rfl, division.feedAll_eq effects]
  rfl

end

/-- For all lines there is one way to divide them into blank lines, commands and entries, each of
which is collected as long as it is unfinished, and a rest: lines that are still collected at the
end of the input, or what stands from the request to end the loop on. The loop takes in one exchange
after the other and has nothing collected in between. What is piped into the loop comes to its
lines.

Only accepted entries change the machine; their expressions are evaluated up to the first that
fails, and one line reports the failure. What stands after it in the entry has no effect on the
later lines, whatever they are. -/
theorem loop_takes_every_line_once (config : Config) (budget : Nat) (comments : Bool) :
    (∀ lines, ∃ exchanges ending printed after,
      Division comments lines exchanges ending ∧
      (∀ others last, Division comments lines others last →
        exchanges = others ∧ ending = last) ∧
      Exchanges config budget exchanges .initial printed after ∧
      session config budget comments lines = banner ++ printed ++ farewell ∧
      feedAll config budget comments start lines =
        (printed, ⟨after, ending.collected, ending.closes⟩) ∧
      ∀ done rest, exchanges = done ++ rest → ∃ shown middle,
        Exchanges config budget done .initial shown middle ∧
        feedAll config budget comments start (done.flatMap Exchange.lines) =
          (shown, ⟨middle, [], false⟩)) ∧
    (∀ input, interact config budget comments (.ok (readings input)) =
      (session config budget comments (inputLines input), true)) ∧
    ∀ (machine middle after : Machine) (shown : List Line) (stop : Stop) (ran skipped : List Expr)
      (failing : Expr) (entered shorter : List String),
      Succeeds config budget ran machine shown middle →
      evalDatum config budget failing middle = .error stop after →
      (Exchange.accepted entered (ran ++ failing :: skipped)).Arises comments →
      (Exchange.accepted shorter (ran ++ [failing])).Arises comments →
      ∀ later, feedAll config budget comments ⟨machine, [], false⟩ (entered ++ later) =
        feedAll config budget comments ⟨machine, [], false⟩ (shorter ++ later) := by
  refine ⟨fun lines => ?_, interact_readings config budget comments, ?_⟩
  · obtain ⟨exchanges, ending, division⟩ := exists_division (.nil comments) lines
    rw [List.nil_append] at division
    obtain ⟨printed, after, effects⟩ := exists_exchanges config budget exchanges .initial
    have taken : feedAll config budget comments start lines =
        (printed, ⟨after, ending.collected, ending.closes⟩) := division.feedAll_eq effects
    refine ⟨exchanges, ending, printed, after, division,
      fun others last => division_unique division, effects, ?_, taken, ?_⟩
    · rw [session_eq, runLines_eq_feedAll config budget comments rfl, taken, List.append_assoc]
    · rintro done rest rfl
      obtain ⟨shown, middle, first⟩ := effects.of_append
      have arise := fun exchange among => division.arise exchange (List.mem_append_left rest among)
      exact ⟨shown, middle, first, feedAll_of_exchanges arise first⟩
  · intro machine middle after shown stop ran skipped failing entered shorter succeeds fails
      arises shorter_arises later
    have longer := feedAll_of_effect arises (.fails succeeds fails)
    have short := feedAll_of_effect shorter_arises (.fails succeeds fails)
    rw [Exchange.lines] at longer short
    rw [feedAll_append, feedAll_append, longer, short]

/-- An entry over two lines fails in the middle, and the next one cannot be read; what stands after
the failure need not have been typed. -/
theorem loop_takes_every_line_once_of_failures :
    let sum : Expr := .list [.ident "+", .int 1, .int 2]
    let exchanges : List Exchange :=
      [.accepted ["(+ 1", "2) x 5"] [sum, .ident "x", .int 5], .blank " ",
        .refused [")"] ⟨.unexpected 0, some ")\\n"⟩]
    let input := "(+ 1\n2) x 5\n \n)\n:quit\n7"
    Division true (inputLines input) exchanges (.quit ":quit" ["7"]) ∧
      (∃ printed after, Exchanges ⟨true, 9⟩ 0 exchanges .initial printed after ∧
        run ⟨true, 9⟩ 0 true input = banner ++ printed ++ farewell) ∧
      ∀ later, feedAll ⟨true, 9⟩ 0 true start (["(+ 1", "2) x 5"] ++ later) =
        feedAll ⟨true, 9⟩ 0 true start (["(+ 1 2) x"] ++ later) := by
  intro sum exchanges input
  have open_line : reading true ["(+ 1"] = .error ⟨.unfinished, none⟩ :=
    reading_of_calls [.error ⟨.unfinished, none⟩] (by decide +kernel)
  have both_lines : reading true ["(+ 1", "2) x 5"] = .ok [sum, .ident "x", .int 5] :=
    reading_of_calls [.ok sum, .ok (.ident "x"), .ok (.int 5)] (by decide +kernel)
  have short_line : reading true ["(+ 1 2) x"] = .ok [sum, .ident "x"] :=
    reading_of_calls [.ok sum, .ok (.ident "x")] (by decide +kernel)
  have bad_line : reading true [")"] = .error ⟨.unexpected 0, some ")\\n"⟩ :=
    reading_of_calls [.error ⟨.unexpected 0, some ")\\n"⟩] (by decide +kernel)
  have alone {line : String} (no_word : Text.trim line ∉ words) : Collected true [line] :=
    (@collected_concat_iff true [] line).mpr ⟨.nil true, fun _ => no_word⟩
  have first_line : Pending true ["(+ 1"] :=
    ⟨alone (by decide), fun _ => ⟨_, open_line, rfl⟩⟩
  have entered : Collected true ["(+ 1", "2) x 5"] :=
    (@collected_concat_iff true ["(+ 1"] _).mpr ⟨first_line, fun no_line => by simp at no_line⟩
  have accepted : (Exchange.accepted ["(+ 1", "2) x 5"] [sum, .ident "x", .int 5]).Arises true :=
    ⟨List.cons_ne_nil _ _, entered, both_lines⟩
  have refused : (Exchange.refused [")"] ⟨.unexpected 0, some ")\\n"⟩).Arises true :=
    ⟨List.cons_ne_nil _ _, alone (by decide), bad_line, by simp⟩
  have shorter : (Exchange.accepted ["(+ 1 2) x"] [sum, .ident "x"]).Arises true :=
    ⟨List.cons_ne_nil _ _, alone (by decide), short_line⟩
  have blank : (Exchange.blank " ").Arises true := by
    change Text.trim " " = ""
    decide
  have division : Division true (inputLines input) exchanges (.quit ":quit" ["7"]) :=
    { whole := by decide +kernel
      arise := by simp [exchanges, accepted, refused, blank]
      ends := .inl (by decide) }
  obtain ⟨in_order, -, skips⟩ := loop_takes_every_line_once ⟨true, 9⟩ 0 true
  obtain ⟨_, _, printed, after, _, only, effects, prints, -⟩ := in_order (inputLines input)
  obtain ⟨rfl, rfl⟩ := only exchanges _ division
  exact ⟨division, ⟨printed, after, effects, prints⟩,
    skips .initial _ _ _ _ [sum] [.int 5] (.ident "x") _ _ (.cons rfl (.nil _)) rfl accepted
      shorter⟩

end Repl

end TailScheme
