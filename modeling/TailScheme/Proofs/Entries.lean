import TailScheme.Proofs.LineEnds
import TailScheme.CommandLine
import Mathlib.Data.List.DropRight

/-!
# Entries of the interactive loop

A program that reaches the interactive loop line by line runs as it does in one piece. The loop is
always at the start of an entry, or it has collected lines at whose end something is open
(`Repl.Waits`). The next line of a readable text either completes what is open, so that the loop
runs what it has and goes on with the rest of the text, or is collected too
(`Repl.feed_of_sequence`). For this no more may be open anywhere than the limit for nesting leaves
room for (`Grammar.Shallow`).

No line of a readable text is taken for a command at the start of an entry: the commands start with
a colon, which starts no datum, and lines of blanks hold nothing (`Repl.command?_of_breaksOff`).
-/
namespace TailScheme

open Reader Grammar

namespace Text

/-- The tabulated ranges lie between the blanks. -/
theorem alphanumericRanges_between_blanks :
    (alphanumericRanges.toList.all fun (low, high) =>
      0x3000 < low || (0xA0 < low && high < 0x1680) || (0x1680 < low && high < 0x2000) ||
        (0x205F < low && high < 0x3000) || (0x200A < low && high < 0x2028)) = true := by
  decide +kernel

/-- No blank is part of an atom. -/
theorem continuesAtom_of_isBlank {c : Char} (blank : isBlank c = true) :
    continuesAtom c = false := by
  simp only [isBlank, Bool.or_eq_true, Bool.and_eq_true, decide_eq_true_eq] at blank
  by_cases ascii : c.toNat < 128
  · have code : c.toNat ∈ [9, 10, 11, 12, 13, 32] := by
      simp only [List.mem_cons, List.not_mem_nil, or_false]
      omega
    have none_continues : ∀ code ∈ [9, 10, 11, 12, 13, 32],
        continuesAtom (Char.ofNat code) = false := by decide
    have no_part := none_continues c.toNat code
    rwa [Char.ofNat_toNat] at no_part
  · have outside : inRanges alphanumericRanges c = false := by
      rw [Bool.eq_false_iff, inRanges, ← Array.any_toList]
      intro inside
      obtain ⟨⟨low, high⟩, among, within⟩ := List.any_eq_true.mp inside
      have between := List.all_eq_true.mp alphanumericRanges_between_blanks _ among
      simp only [Bool.or_eq_true, Bool.and_eq_true, decide_eq_true_eq] at between within
      omega
    have no_mark : identifierMarks.contains c = false := by
      rw [Bool.eq_false_iff]
      intro mark
      have small : identifierMarks.all (fun mark => mark.toNat < 128) = true := by decide
      have below := List.all_eq_true.mp small c (List.contains_iff_mem.mp mark)
      exact ascii (of_decide_eq_true below)
    have no_hash : (c == '#') = false := by
      rw [beq_eq_false_iff_ne]
      rintro rfl
      exact ascii (by decide)
    rw [continuesAtom, isIdentifierChar, isAlphanumeric, if_neg ascii, outside, no_mark, no_hash]
    rfl

/-- What is left of a text without the blanks at its ends stands in it after blanks. -/
theorem exists_blanks (text : String) :
    ∃ front back, text.toList = front ++ (trim text).toList ++ back ∧
      (∀ c ∈ front, isBlank c = true) ∧ ∀ c ∈ back, isBlank c = true := by
  let kept := text.toList.dropWhile isBlank
  have trimmed : (trim text).toList = kept.rdropWhile isBlank := by
    rw [trim, String.toList_ofList]
    rfl
  have ends : kept = kept.rdropWhile isBlank ++ kept.rtakeWhile isBlank := by
    rw [List.rdropWhile_append_rtakeWhile]
  refine ⟨text.toList.takeWhile isBlank, kept.rtakeWhile isBlank, ?_, ?_, ?_⟩
  · rw [trimmed, List.append_assoc, ← ends, List.takeWhile_append_dropWhile]
  · exact fun c among => List.mem_takeWhile_imp among
  · exact fun c among => List.mem_rtakeWhile_imp among

end Text

namespace Grammar

variable {comments : Bool} {level depth : Nat} {text front rest : List Char} {found : List Expr}

/-- Blanks in front of a text are skipped up to the first that is no space. -/
theorem skipTrivia_blanks (blanks : ∀ c ∈ front, Text.isBlank c = true) :
    skipTrivia comments (front ++ rest) = skipTrivia comments rest ∨
      ∃ c tail, skipTrivia comments (front ++ rest) = c :: tail ∧ Text.isBlank c = true := by
  induction front with
  | nil => exact .inl rfl
  | cons c front ih =>
    rw [List.forall_mem_cons] at blanks
    have no_comment : c ≠ ';' := by
      rintro rfl
      exact absurd blanks.1 (by decide)
    by_cases space : isSpace c = true
    · have skipped : skipTrivia comments (c :: front ++ rest) =
          skipTrivia comments (front ++ rest) := by simp [skipTrivia, skipWithin, space]
      rw [skipped]
      exact ih blanks.2
    · have kept : skipTrivia comments (c :: front ++ rest) = c :: (front ++ rest) :=
        skipTrivia_of_start (Bool.eq_false_iff.mpr space) no_comment
      exact .inr ⟨c, front ++ rest, kept, blanks.1⟩

/-- A datum starts with a quote mark, with a parenthesis or with a part of an atom. -/
theorem Datum.exists_start {e : Expr} (datum : Datum comments level text e rest) :
    ∃ c tail, text = c :: tail ∧ (c = '\'' ∨ c = '(' ∨ continuesAtom c = true) := by
  cases datum with
  | atom room is_atom delimited =>
    obtain ⟨c, tail, rfl, continues⟩ := is_atom.exists_cons
    exact ⟨c, _, List.cons_append, .inr (.inr continues)⟩
  | quote room trivia inner => exact ⟨'\'', _, rfl, .inl rfl⟩
  | list room elements => exact ⟨'(', _, rfl, .inr (.inl rfl)⟩

/-- A text that breaks off is blank or starts as a datum does. -/
theorem BreaksOff.start (breaks : BreaksOff comments level text found depth) :
    (skipTrivia comments text = [] ∧ found = [] ∧ depth = level) ∨
      ∃ c tail, skipTrivia comments text = c :: tail ∧
        (c = '\'' ∨ c = '(' ∨ continuesAtom c = true) := by
  obtain ⟨rest, data, begun⟩ := breaks
  cases data with
  | none _ =>
    cases begun with
    | blank trivia => exact .inl ⟨skipTrivia_of_trivia trivia, rfl, rfl⟩
    | quote room trivia begun =>
      have skipped := (skipTrivia_of_trivia trivia).trans (skipTrivia_of_start rfl (by decide))
      exact .inr ⟨_, _, skipped, .inl rfl⟩
    | list room trivia data begun =>
      have skipped := (skipTrivia_of_trivia trivia).trans (skipTrivia_of_start rfl (by decide))
      exact .inr ⟨_, _, skipped, .inr (.inl rfl)⟩
  | datum trivia datum more =>
    have skipped := (skipTrivia_of_trivia trivia).trans datum.skipTrivia_eq
    obtain ⟨c, tail, rfl, starts⟩ := datum.exists_start
    exact .inr ⟨c, tail, skipped, starts⟩

/-- Where a datum may start there is neither a blank nor a colon. -/
theorem no_blank_of_start {c : Char} (starts : c = '\'' ∨ c = '(' ∨ continuesAtom c = true) :
    Text.isBlank c = false ∧ c ≠ ':' := by
  rcases starts with rfl | rfl | continues
  · decide
  · decide
  · refine ⟨?_, ?_⟩
    · rw [Bool.eq_false_iff]
      intro blank
      rw [Text.continuesAtom_of_isBlank blank] at continues
      cases continues
    · rintro rfl
      exact absurd continues (by decide)

/-- A text of blanks that breaks off is complete and holds nothing. -/
theorem BreaksOff.of_blanks (breaks : BreaksOff comments level text found depth)
    (blanks : ∀ c ∈ text, Text.isBlank c = true) : found = [] ∧ depth = level := by
  rcases breaks.start with ⟨-, nothing, same⟩ | ⟨c, tail, skipped, starts⟩
  · exact ⟨nothing, same⟩
  · have no_blank := (no_blank_of_start starts).1
    have blank : Text.isBlank c = true := by
      have within := (trivia_skipTrivia comments text).exists_front
      obtain ⟨front, whole⟩ := within
      rw [skipped] at whole
      exact blanks c (by simp [whole])
    rw [blank] at no_blank
    cases no_blank

/-- A text that breaks off does not start with a colon after blanks. -/
theorem BreaksOff.no_colon (breaks : BreaksOff comments level (front ++ ':' :: rest) found depth)
    (blanks : ∀ c ∈ front, Text.isBlank c = true) : False := by
  have colon : skipTrivia comments (':' :: rest) = ':' :: rest :=
    skipTrivia_of_start rfl (by decide)
  obtain ⟨d, skipped_tail, skipped, no_start⟩ : ∃ c tail,
      skipTrivia comments (front ++ ':' :: rest) = c :: tail ∧
        (Text.isBlank c = true ∨ c = ':') := by
    rcases @skipTrivia_blanks comments front (':' :: rest) blanks with
      skipped | ⟨c, tail, skipped, blank⟩
    · exact ⟨':', rest, skipped.trans colon, .inr rfl⟩
    · exact ⟨c, tail, skipped, .inl blank⟩
  rcases breaks.start with ⟨ended, -, -⟩ | ⟨c, tail, started, starts⟩
  · rw [ended] at skipped
    cases skipped
  · obtain ⟨rfl, -⟩ := List.cons.inj (skipped.symm.trans started)
    obtain ⟨no_blank, no_colon⟩ := no_blank_of_start starts
    rcases no_start with blank | colon
    · rw [blank] at no_blank
      cases no_blank
    · exact no_colon colon

end Grammar

section

variable (config : Config) (budget : Nat)

/-- Running expressions in a row is running the first ones and, if all goes well, the others. -/
theorem runItems_append (es : List Expr) (more : List (Except ReadError Expr)) (machine : Machine) :
    runItems config budget (es.map .ok ++ more) machine =
      let first := runItems config budget (es.map .ok) machine
      let rest := runItems config budget more first.machine
      if first.ok then ⟨first.lines ++ rest.lines, rest.ok, rest.machine⟩ else first := by
  induction es generalizing machine with
  | nil => rfl
  | cons raw es ih =>
    rw [List.map_cons, List.cons_append, runItems, runItems]
    cases evalDatum config budget raw machine with
    | error stop after => rfl
    | ok value after =>
      dsimp only
      rw [ih after]
      dsimp only
      split
      · next all_well => simp [List.append_assoc]
      · next failed => simp [failed]

/-- What is evaluated to its end has been read and runs well, and it prints on the standard output
only. -/
theorem runItems_of_evalItems {items : List (Except ReadError Expr)} {last value : Value}
    {machine after : Machine}
    (ends : evalItems config budget last items machine = .ok value after) :
    (∃ es : List Expr, items = es.map .ok) ∧
      (runItems config budget items machine).ok = true ∧
      ∀ line ∈ (runItems config budget items machine).lines, ∃ text, line = .out text := by
  induction items generalizing last machine with
  | nil => exact ⟨⟨[], rfl⟩, rfl, List.forall_mem_nil _⟩
  | cons item items ih =>
    cases item with
    | error error => cases ends
    | ok raw =>
      rw [evalItems_ok_cons] at ends
      rw [runItems]
      cases outcome : evalDatum config budget raw machine with
      | error stop middle =>
        rw [outcome] at ends
        cases ends
      | ok shown middle =>
        rw [outcome] at ends
        obtain ⟨⟨es, rfl⟩, well, all_out⟩ := ih ends
        refine ⟨⟨raw :: es, rfl⟩, well, List.forall_mem_append.mpr ⟨?_, all_out⟩⟩
        intro line among
        unfold valueLines at among
        split at among
        · cases among
        · exact ⟨_, List.mem_singleton.mp among⟩

end

namespace Repl

variable {comments : Bool} {collected : List String} {line : String} {found : List Expr}
  {depth : Nat}

/-- The only command that starts a text that breaks off is to pass over blanks. -/
theorem command?_of_breaksOff {reaction : Reaction}
    (breaks : BreaksOff comments 0 (line.toList ++ ['\n']) found depth)
    (commanded : command? line = some reaction) :
    reaction = .blank ∧ found = [] ∧ depth = 0 := by
  obtain ⟨front, back, whole, blanks, blank_end⟩ := Text.exists_blanks line
  have no_colon : ∀ word, (Text.trim line).toList ≠ ':' :: word := by
    intro word same
    rw [whole, same] at breaks
    have text_eq : front ++ ':' :: word ++ back ++ ['\n'] =
        front ++ ':' :: (word ++ back ++ ['\n']) := by simp
    rw [text_eq] at breaks
    exact breaks.no_colon blanks
  by_cases empty : Text.trim line = ""
  · have all_blank : ∀ c ∈ line.toList ++ ['\n'], Text.isBlank c = true := by
      rw [whole, empty]
      simp only [List.mem_append, List.mem_singleton]
      rintro c (((in_front | ⟨⟨⟩⟩) | in_back) | rfl)
      · exact blanks c in_front
      · exact blank_end c in_back
      · decide
    simp only [command?, if_pos empty, Option.some.injEq] at commanded
    exact ⟨commanded.symm, breaks.of_blanks all_blank⟩
  · have no_word : ∀ word : String, word.toList.head? = some ':' → Text.trim line ≠ word := by
      rintro word starts rfl
      obtain ⟨tail, same⟩ := List.head?_eq_some_iff.mp starts
      exact no_colon tail same
    simp only [command?, if_neg empty, if_neg (no_word ":help" rfl), if_neg (no_word ":env" rfl)]
      at commanded
    rw [if_neg] at commanded
    · cases commanded
    · rintro (quits | exits)
      · exact no_word ":quit" rfl quits
      · exact no_word ":exit" rfl exits

/-- A line with which an entry breaks off belongs to it, but for blanks at its start. -/
theorem classify_of_breaksOff
    (breaks : BreaksOff comments 0 (entryText (collected ++ [line])).toList found depth) :
    classify comments collected line = entry comments (collected ++ [line]) ∨
      classify comments collected line = .blank ∧ collected = [] ∧ found = [] ∧ depth = 0 := by
  cases collected with
  | cons first rest => exact .inl rfl
  | nil =>
    rcases commanded : command? line with _ | reaction
    · exact .inl (by simp only [classify, commanded])
    · have line_text : (entryText ([] ++ [line])).toList = line.toList ++ ['\n'] := by
        simp [entryText]
      rw [line_text] at breaks
      obtain ⟨rfl, nothing, closed⟩ := command?_of_breaksOff breaks commanded
      exact .inr ⟨by simp only [classify, commanded], rfl, nothing, closed⟩

/-- Lines that break off are run if they are complete, and collected otherwise. -/
theorem feed_of_breaksOff (config : Config) (budget : Nat) (machine : Machine)
    (breaks : BreaksOff comments 0 (entryText (collected ++ [line])).toList found depth)
    (room : depth < nestingLimit) :
    feed config budget comments ⟨machine, collected, false⟩ line =
      if depth = 0 then
        let outcome := runItems config budget (found.map .ok) machine
        (outcome.lines, ⟨outcome.machine, [], false⟩)
      else ([], ⟨machine, collected ++ [line], false⟩) := by
  rcases classify_of_breaksOff breaks with classified | ⟨classified, rfl, rfl, rfl⟩
  · rw [feed, classified, entry_of_breaksOff breaks]
    by_cases complete : depth = 0
    · rw [if_pos complete, if_pos complete]
    · rw [if_neg complete, if_neg complete, if_pos room]
  · rw [feed, classified]
    rfl

/-- A character within a line belongs to it. -/
theorem linesFrom_of_ne {c : Char} (within : c ≠ '\n') (current rest : List Char) :
    linesFrom current (c :: rest) = linesFrom (c :: current) rest := by
  rw [linesFrom.eq_def]
  exact if_neg within

/-- A line feed ends a line, together with a carriage return before it. -/
theorem linesFrom_feed (current rest : List Char) : ∃ typed : String,
    Unreturned (current.reverse ++ ['\n']) (typed.toList ++ ['\n']) ∧
      linesFrom current ('\n' :: rest) = typed :: linesFrom [] rest := by
  rw [linesFrom.eq_def]
  dsimp only
  rw [if_pos rfl]
  split
  · next others =>
    refine ⟨String.ofList others.reverse, ?_, rfl⟩
    have dropped := (Unreturned.refl others.reverse).append (.drop .nil)
    simpa using dropped
  · refine ⟨String.ofList current.reverse, ?_, rfl⟩
    rw [String.toList_ofList]
    exact .refl _

/-- A line of an input is typed as it stands there, but for a carriage return at its end. -/
theorem exists_typed {line : List Char} (current rest : List Char) (no_feed : '\n' ∉ line) :
    ∃ typed : String, Unreturned (current.reverse ++ line ++ ['\n']) (typed.toList ++ ['\n']) ∧
      linesFrom current (line ++ '\n' :: rest) = typed :: linesFrom [] rest := by
  induction line generalizing current with
  | nil =>
    obtain ⟨typed, unreturned, lines⟩ := linesFrom_feed current rest
    exact ⟨typed, by simpa using unreturned, lines⟩
  | cons c line ih =>
    rw [List.mem_cons, not_or] at no_feed
    obtain ⟨typed, unreturned, lines⟩ := ih (c :: current) no_feed.2
    refine ⟨typed, by simpa using unreturned, ?_⟩
    rw [List.cons_append, linesFrom_of_ne (Ne.symm no_feed.1), lines]

/-- What stands after the last line feed of an input is a line if it is anything. -/
theorem linesFrom_last {line : List Char} (current : List Char) (no_feed : '\n' ∉ line)
    (nonempty : current.reverse ++ line ≠ []) :
    linesFrom current line = [String.ofList (current.reverse ++ line)] := by
  induction line generalizing current with
  | nil =>
    rw [List.append_nil] at nonempty ⊢
    have some_current : current.isEmpty = false := by simpa using nonempty
    rw [linesFrom, some_current]
    rfl
  | cons c line ih =>
    rw [List.mem_cons, not_or] at no_feed
    rw [linesFrom_of_ne (Ne.symm no_feed.1), ih (c :: current) no_feed.2 (by simp)]
    simp

end Repl

namespace Grammar

variable {comments : Bool} {depth : Nat} {text start rest : List Char} {es found : List Expr}

/-- At no point of the text are as many lists and quote marks open as the limit for nesting
allows. -/
def Shallow (comments : Bool) (text : List Char) : Prop :=
  ∀ front back found depth, text = front ++ back → BreaksOff comments 0 front found depth →
    depth < nestingLimit

/-- The lines after a sequence nest no deeper than the whole text. -/
theorem Shallow.of_sequence (shallow : Shallow comments (start ++ '\n' :: rest))
    (first : Sequence comments (start ++ ['\n']) found) : Shallow comments rest := by
  intro front back items depth whole breaks
  refine shallow (start ++ '\n' :: front) back (found ++ items) depth ?_
    (first.then_breaksOff breaks)
  simp [whole]

/-- Nothing is open at the end of a sequence. -/
theorem Sequence.depth_eq_zero (sequence : Sequence comments text es)
    (breaks : BreaksOff comments 0 text found depth) : depth = 0 := by
  rw [← String.toList_ofList (l := text)] at sequence breaks
  have handed := (items_of_breaksOff breaks).symm.trans (items_eq_ok_iff.mpr sequence)
  obtain ⟨front, back, -, -, nothing⟩ := List.map_eq_append_iff.mp handed.symm
  by_contra open_still
  rw [finish, if_neg open_still] at nothing
  split at nothing <;> cases back <;> simp at nothing

/-- No data are in an empty text. -/
theorem Sequence.of_nil (sequence : Sequence comments [] es) : es = [] := by
  have handed : Reader.items ⟨comments, [], []⟩ = es.map .ok :=
    items_eq_ok_iff_sequence.mpr sequence
  rw [items_of_next_none rfl] at handed
  exact List.map_eq_nil_iff.mp handed.symm

end Grammar

namespace Repl

/-- The lines collected are those from the start of an entry to here, and the entry is empty or
something is open in it. -/
structure Waits (comments : Bool) (before : List Char) (collected : List String) : Prop where
  entered : Unreturned before (entryText collected).toList
  unfinished : before = [] ∨ ∃ found depth, 0 < depth ∧ BreaksOff comments 0 before found depth

/-- At the start of an entry the loop waits for its first line. -/
theorem Waits.start (comments : Bool) : Waits comments [] [] := ⟨.nil, .inl rfl⟩

section

variable (config : Config) (budget : Nat) {comments : Bool} {before rest line later : List Char}
  {collected : List String} {typed : String} {es : List Expr} {machine : Machine}

/-- A line more of the input is a line more of the entry. -/
theorem Waits.entered_line (waits : Waits comments before collected)
    (unreturned : Unreturned (line ++ ['\n']) (typed.toList ++ ['\n'])) :
    Unreturned (before ++ line ++ ['\n']) (entryText (collected ++ [typed])).toList := by
  rw [entryText_append, String.toList_append, List.append_assoc]
  exact waits.entered.append (by simpa [entryText] using unreturned)

/-- The loop runs the data that a line completes, and is then at the start of an entry; if a line
completes nothing, the loop waits for the next one. -/
theorem feed_of_sequence (machine : Machine)
    (sequence : Sequence comments (before ++ line ++ '\n' :: later) es)
    (shallow : Shallow comments (before ++ line ++ '\n' :: later))
    (waits : Waits comments before collected)
    (unreturned : Unreturned (line ++ ['\n']) (typed.toList ++ ['\n'])) :
    (∃ found others, es = found ++ others ∧ Sequence comments later others ∧
      Shallow comments later ∧
        let outcome := runItems config budget (found.map .ok) machine
        feed config budget comments ⟨machine, collected, false⟩ typed =
          (outcome.lines, ⟨outcome.machine, [], false⟩)) ∨
      Waits comments (before ++ line ++ ['\n']) (collected ++ [typed]) ∧
        feed config budget comments ⟨machine, collected, false⟩ typed =
          ([], ⟨machine, collected ++ [typed], false⟩) := by
  obtain ⟨found, depth, breaks⟩ := sequence.breaksOff_of_feed
  have room : depth < nestingLimit := shallow _ later found depth (by simp) breaks
  have entered := waits.entered_line unreturned
  have taken := feed_of_breaksOff config budget machine (breaks.unreturned entered) room
  by_cases complete : depth = 0
  · subst complete
    have first := breaks.sequence
    obtain ⟨others, rfl, last⟩ := first.split sequence
    exact .inl ⟨found, others, rfl, last, shallow.of_sequence first, taken⟩
  · rw [if_neg complete] at taken
    exact .inr ⟨⟨entered, .inr ⟨found, depth, Nat.pos_of_ne_zero complete, breaks⟩⟩, taken⟩

/-- What stands after the last line feed completes the data, if it is anything. -/
theorem runLines_of_last (machine : Machine) (sequence : Sequence comments (before ++ rest) es)
    (waits : Waits comments before collected) (no_feed : '\n' ∉ rest) :
    runLines config budget comments ⟨machine, collected, false⟩ (linesFrom [] rest) =
      (runItems config budget (es.map .ok) machine).lines ++ farewell := by
  by_cases ended : rest = []
  · subst ended
    rw [List.append_nil] at sequence
    rcases waits.unfinished with rfl | ⟨found, depth, open_still, breaks⟩
    · obtain rfl := sequence.of_nil
      rfl
    · exact absurd (sequence.depth_eq_zero breaks) (Nat.ne_of_gt open_still)
  · have closed : Sequence comments (before ++ rest ++ ['\n']) es := by
      have nothing : Sequence comments [] [] := ⟨[], .none [], .none []⟩
      simpa using nothing.after_feed sequence
    have unreturned : Unreturned (rest ++ ['\n']) ((String.ofList rest).toList ++ ['\n']) := by
      rw [String.toList_ofList]
      exact .refl _
    have taken := feed_of_breaksOff config budget machine
      (closed.breaksOff.unreturned (waits.entered_line unreturned)) (by decide)
    have line_eq : String.ofList ([].reverse ++ rest) = String.ofList rest := rfl
    rw [linesFrom_last [] no_feed (by simpa using ended), line_eq, runLines_cons, taken, if_pos rfl]
    rfl

/-- The loop runs the lines of a sequence of data as the data are run one after the other. -/
theorem runLines_of_sequence (sequence : Sequence comments (before ++ rest) es)
    (shallow : Shallow comments (before ++ rest)) (waits : Waits comments before collected)
    (well : (runItems config budget (es.map .ok) machine).ok = true) :
    runLines config budget comments ⟨machine, collected, false⟩ (linesFrom [] rest) =
      (runItems config budget (es.map .ok) machine).lines ++ farewell := by
  induction measured : rest.length using Nat.strongRecOn
    generalizing before rest collected es machine with
  | _ size ih =>
    by_cases feeds : '\n' ∈ rest
    · obtain ⟨line, later, rfl, no_feed⟩ := List.eq_append_cons_of_mem feeds
      obtain ⟨typed, unreturned, lines⟩ := exists_typed [] later no_feed
      rw [← List.append_assoc] at sequence shallow
      have shorter : later.length < size := by
        rw [← measured, List.length_append, List.length_cons]
        omega
      rcases feed_of_sequence config budget machine sequence shallow waits unreturned with
        ⟨found, others, rfl, last, shallow_there, taken⟩ | ⟨waits_there, taken⟩
      · rw [List.map_append, runItems_append] at well ⊢
        dsimp only at well ⊢
        split at well
        · next first_well =>
          have at_start : Sequence comments ([] ++ later) others := last
          rw [lines, runLines_cons, taken, if_pos first_well, List.append_assoc,
            ← ih later.length shorter at_start shallow_there (.start comments) well rfl]
          rfl
        · next failed => exact absurd well failed
      · have feed_eq : before ++ line ++ '\n' :: later = before ++ line ++ ['\n'] ++ later := by
          simp
        rw [feed_eq] at sequence shallow
        rw [lines, runLines_cons, taken,
          ← ih later.length shorter sequence shallow waits_there well rfl]
        rfl
    · exact runLines_of_last config budget machine sequence waits feeds

end

/-- Typed line by line, a text that nests within the limit and is evaluated to its end prints what
it prints in one run. -/
theorem session_of_evalProgram (config : Config) (budget : Nat) {comments : Bool} {text : String}
    {value : Value} {after : Machine} (shallow : Shallow comments text.toList)
    (ends : evalProgram config budget comments text .initial = .ok value after) :
    session config budget comments (typedLines text) =
      banner ++ (runText config budget comments text .initial).lines ++ farewell := by
  obtain ⟨⟨es, handed⟩, well, -⟩ := runItems_of_evalItems config budget ends
  have sequence : Sequence comments ([] ++ text.toList) es := items_eq_ok_iff.mp handed
  rw [handed] at well
  rw [session_eq, runText, handed, List.append_assoc]
  congr 1
  exact runLines_of_sequence config budget sequence shallow (.start comments) well

end Repl

namespace Grammar

variable {comments : Bool} {level depth : Nat} {text : List Char}

/-- Whatever is open has been opened by a character. -/
theorem Begun.depth_le_length (begun : Begun comments level text depth) :
    depth ≤ level + text.length := by
  induction begun with
  | blank trivia => exact Nat.le_add_right _ _
  | quote room trivia begun ih =>
    obtain ⟨front, rfl⟩ := trivia.exists_front
    rw [List.length_append, List.length_cons]
    omega
  | list room trivia data begun ih =>
    obtain ⟨front, rfl⟩ := trivia.exists_front
    obtain ⟨taken, rfl, -⟩ := data.exists_front
    rw [List.length_append, List.length_cons, List.length_append]
    omega

/-- A text of fewer characters than the limit for nesting stays within it. -/
theorem Shallow.of_length (short : text.length < nestingLimit) : Shallow comments text := by
  rintro front back found depth rfl ⟨rest, data, begun⟩
  obtain ⟨taken, rfl, -⟩ := data.exists_front
  have opened := begun.depth_le_length
  rw [List.length_append, List.length_append] at short
  omega

end Grammar

/-- Nothing is on the error output if all lines are on the standard output. -/
theorem errorOutput_of_out {lines : List Line}
    (all_out : ∀ line ∈ lines, ∃ text, line = .out text) : errorOutput lines = "" := by
  induction lines with
  | nil => rfl
  | cons line lines ih =>
    rw [List.forall_mem_cons] at all_out
    obtain ⟨⟨text, rfl⟩, others⟩ := all_out
    exact ih others

namespace CommandLine

/-- To run one file is to run files. -/
theorem runFiles_singleton (options : Options) (contents : String → Except FileFailure String)
    (name : String) (machine : Machine) :
    runFiles options contents [name] machine = runFile options name (contents name) machine := by
  rw [runFiles]
  generalize runFile options name (contents name) machine = outcome
  obtain ⟨lines, ok, after⟩ := outcome
  cases ok with
  | false => rfl
  | true => simp [runFiles]

/-- Run from a file, a program that is evaluated to its end leaves the exit code zero. -/
theorem run_of_evalProgram {options : Options} {arguments : List String} {name text : String}
    {contents : String → Except FileFailure String} {value : Value} {after : Machine}
    (with_file : parse arguments = .run { options with files := [name] })
    (there : contents name = .ok text)
    (ends : evalProgram options.config ample options.comments text .initial = .ok value after)
    (input : String) :
    run arguments contents input =
      (0, (runText options.config ample options.comments text .initial).lines) := by
  have well : (runText options.config ample options.comments text .initial).ok = true :=
    (runItems_of_evalItems options.config ample ends).2.1
  have one_file : runFiles { options with files := [name] } contents [name] .initial =
      runText options.config ample options.comments text .initial := by
    rw [runFiles_singleton, there]
    rfl
  rw [run, runWith, with_file]
  simp only [List.isEmpty_cons, Bool.false_eq_true, if_false, one_file, well, exitCode, if_true]

/-- A program that nests within the limit and is evaluated to its end prints the same, whether it is
piped into the interactive loop or run from a file: the loop adds its banner and its farewell.
Nothing is on the error output and the exit code is zero both times. The loop is taken to get the
lines of the program as they are typed, as it does if no backspaces are in them. -/
theorem piped_program_prints_as_file {options : Options} {arguments fileArguments : List String}
    {name text : String} {contents : String → Except FileFailure String}
    (interactive : parse arguments = .run options) (no_files : options.files = [])
    (with_file : parse fileArguments = .run { options with files := [name] })
    (there : contents name = .ok text) (shallow : Shallow options.comments text.toList)
    (ends : ∃ value after,
      evalProgram options.config ample options.comments text .initial = .ok value after)
    (input : String) :
    let piped := Repl.session options.config ample options.comments (Repl.typedLines text)
    let filed := run fileArguments contents input
    filed.1 = 0 ∧ piped = Repl.banner ++ filed.2 ++ Repl.farewell ∧
      errorOutput filed.2 = "" ∧ errorOutput piped = "" ∧
      (run arguments contents text).1 = 0 ∧
      (Repl.inputLines text = Repl.typedLines text → (run arguments contents text).2 = piped) := by
  intro piped filed
  obtain ⟨value, after, ends⟩ := ends
  have filed_eq : filed =
      (0, (runText options.config ample options.comments text .initial).lines) :=
    run_of_evalProgram with_file there ends input
  have piped_eq : piped = Repl.banner ++ filed.2 ++ Repl.farewell := by
    rw [filed_eq]
    exact Repl.session_of_evalProgram options.config ample shallow ends
  have looped : run arguments contents text =
      (0, Repl.run options.config ample options.comments text) := by
    rw [run, runWith, interactive]
    simp only [no_files, List.isEmpty_nil, if_true, Repl.interact_readings, exitCode]
  have filed_out : ∀ line ∈ filed.2, ∃ shown, line = .out shown := by
    rw [filed_eq]
    exact (runItems_of_evalItems options.config ample ends).2.2
  have piped_out : ∀ line ∈ piped, ∃ shown, line = .out shown := by
    rw [piped_eq, List.forall_mem_append, List.forall_mem_append]
    exact ⟨⟨by simp [Repl.banner], filed_out⟩, by simp [Repl.farewell]⟩
  refine ⟨by rw [filed_eq], piped_eq, errorOutput_of_out filed_out, errorOutput_of_out piped_out,
    by rw [looped], ?_⟩
  intro as_typed
  rw [looped, Repl.run, as_typed]

/-- A quote mark, a list and a call are continued on other lines, after a carriage return, a comment
and a line of nothing. -/
theorem piped_program_prints_as_file_of_lines :
    let text := "'\r\n(a ; )\r\n b)\n\n(+ 1\n\n2) 3"
    run ["--max-depth=50", "p"] (fun _ => .ok text) "" = (0, [.out "(a b)", .out "3", .out "3"]) ∧
      run ["--max-depth", "50"] (fun _ => .ok text) text =
        (0, Repl.banner ++ [.out "(a b)", .out "3", .out "3"] ++ Repl.farewell) := by
  intro text
  let options : Options := ⟨[], true, some 50, true⟩
  have read : (ofString true text).items =
      [Expr.list [.ident "quote", .list [.ident "a", .ident "b"]],
        .list [.ident "+", .int 1, .int 2], .int 3].map .ok := items_eq_iff.mpr (by decide +kernel)
  have ends : ∃ value after,
      evalProgram options.config ample options.comments text .initial = .ok value after := by
    rw [evalProgram, read]
    exact ⟨_, _, rfl⟩
  have shown : (run ["--max-depth=50", "p"] (fun _ => .ok text) "").2 =
      [.out "(a b)", .out "3", .out "3"] := by
    have parsed : parse ["--max-depth=50", "p"] = .run { options with files := ["p"] } := rfl
    rw [run, runWith, parsed]
    simp only [List.isEmpty_cons, Bool.false_eq_true, if_false, runFiles_singleton]
    rw [runFile, runText, read]
    rfl
  obtain ⟨code, printed, -, -, loop_code, looped⟩ := @piped_program_prints_as_file options
    ["--max-depth", "50"] ["--max-depth=50", "p"] "p" text (fun _ => .ok text) rfl rfl rfl rfl
    (.of_length (by decide)) ends ""
  rw [shown] at printed
  have as_typed : Repl.inputLines text = Repl.typedLines text :=
    Repl.inputLines_eq_typedLines (by decide +kernel)
  exact ⟨Prod.ext code shown, Prod.ext loop_code ((looped as_typed).trans printed)⟩

end CommandLine

end TailScheme
