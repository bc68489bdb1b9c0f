import TailScheme.Proofs.Unfinished
import TailScheme.Proofs.RoundTrip

/-!
# Where a text cannot go on

The place that a failure to read names is the first one at which the text went wrong: what comes
before it is the front of a text that can be read. For up to that place the text breaks off with
fewer lists and quote marks open than the limit allows, and then a line feed, one more atom and the
closing parentheses complete it. A text that is unfinished breaks off like this at its end.

Whatever goes wrong, the message shows what stands at that place in the text (`Reader.PointsInto`).
-/
namespace TailScheme

open Reader Grammar

namespace Grammar

variable {comments : Bool} {level depth room : Nat} {text front middle rest : List Char} {e : Expr}
  {items : List Expr}

/-- After trivia there is no space. -/
theorem no_space_skipTrivia (comments : Bool) (text : List Char) :
    ∀ c ∈ (skipTrivia comments text).head?, isSpace c = false := by
  intro c first
  obtain ⟨tail, start⟩ := List.head?_eq_some_iff.mp first
  rw [Bool.eq_false_iff]
  intro space
  -- Otherwise more would be skipped, and the text would be shorter than it is.
  have again := skipTrivia_of_trivia (trivia_skipTrivia comments text)
  rw [start, skipTrivia_of_trivia (.space space (.none tail))] at again
  have bound := length_skipTrivia_le comments tail
  rw [← again, List.length_cons] at bound
  omega

/-- Trivia is trivia in front of the part of a text that is kept. -/
theorem Trivia.keep (trivia : Trivia comments text (front ++ rest))
    (no_space : ∀ c ∈ (front ++ rest).head?, isSpace c = false) :
    ∃ before, text = before ++ rest ∧ Trivia comments before front := by
  cases whole : front ++ rest with
  | nil =>
    obtain ⟨rfl, rfl⟩ := List.append_eq_nil_iff.mp whole
    exact ⟨text, (List.append_nil text).symm, trivia⟩
  | cons c tail =>
    rw [whole] at trivia no_space
    obtain ⟨blank, rfl, before⟩ := trivia.exists_front_of_token (no_space c rfl)
    exact ⟨blank ++ front, by rw [← whole, List.append_assoc], before front⟩

/-- Where elements fail, data come before the one that fails. -/
theorem data_of_failure {failure : Failure} (limit : room + level = nestingLimit)
    (failed : elements comments (datum comments room) text = .error failure) :
    ∃ items middle, Data comments level text items middle ∧
      datum comments room (skipTrivia comments middle) = .error failure := by
  induction size : text.length using Nat.strong_induction_on generalizing text with
  | _ count ih =>
    obtain ⟨-, first | ⟨e, next, reads, later⟩⟩ := elements_eq_error_iff.mp failed
    · exact ⟨[], text, .none text, first⟩
    · have datum := datum_of_reads limit reads
      obtain ⟨shorter, -⟩ := reads
      have bound := length_skipTrivia_le comments text
      obtain ⟨items, middle, data, failed_there⟩ := ih next.length (by omega) later rfl
      exact ⟨e :: items, middle, .datum (trivia_skipTrivia comments text) datum data, failed_there⟩

/-- A text that stops where no datum can go on: it begins a datum and leaves room for more, or it is
a whole one. -/
def Stops (comments : Bool) (level : Nat) (text : List Char) : Prop :=
  (∃ depth < nestingLimit, Begun comments level text depth) ∨ ∃ e, Datum comments level text e []

/-- Data and the place where the next one stops break off. -/
theorem Stops.breaksOff (stops : Stops comments level front)
    (data : Data comments level text items middle)
    (start : skipTrivia comments middle = front ++ rest) :
    ∃ before found depth, text = before ++ rest ∧ depth < nestingLimit ∧
      BreaksOff comments level before found depth := by
  have trivia := trivia_skipTrivia comments middle
  have no_space := no_space_skipTrivia comments middle
  rw [start] at trivia no_space
  obtain ⟨last, rfl, kept⟩ := trivia.keep no_space
  obtain ⟨before, rfl, alike⟩ := data.exists_front
  have data_there := alike last fun delimited => delimited.of_append
  rw [← List.append_assoc]
  rcases stops with ⟨depth, room, begun⟩ | ⟨e, datum⟩
  · exact ⟨before ++ last, items, depth, rfl, room, last, data_there, begun.after_trivia kept⟩
  · exact ⟨before ++ last, items ++ [e], level, rfl, datum.room, [],
      data_there.trans (.datum kept datum (.none [])), .blank (.none [])⟩

/-- Where an atom fails, the text before that place stops there. -/
theorem stops_of_atom (room_left : level < nestingLimit)
    (no_space : ∀ c ∈ text.head?, isSpace c = false)
    (failed : atom text = .error (.unexpected rest)) :
    (∀ c ∈ rest.head?, isSpace c = false) ∧
      ∃ front, text = front ++ rest ∧ Stops comments level front := by
  unfold atom at failed
  split at failed
  · cases failed
    exact ⟨no_space, [], rfl, .inl ⟨level, room_left, .blank (.none [])⟩⟩
  · next e after found =>
    split at failed
    · next continues =>
      cases failed
      obtain ⟨name, whole, is_atom⟩ := atom_of_atom? found
      have datum : Datum comments level (name ++ []) e [] :=
        .atom room_left is_atom delimited_nil
      rw [List.append_nil] at datum
      refine ⟨?_, name, whole, .inr ⟨e, datum⟩⟩
      intro c first
      rw [first, Option.any_some] at continues
      exact (no_delimiter continues).1
    · cases failed

/-- What is left after trivia ends the text. -/
theorem Trivia.suffix (trivia : Trivia comments text rest) : rest <:+ text := by
  obtain ⟨front, rfl⟩ := trivia.exists_front
  exact List.suffix_append front rest

/-- What is left after data ends the text. -/
theorem Data.suffix (data : Data comments level text items rest) : rest <:+ text := by
  obtain ⟨front, rfl, -⟩ := data.exists_front
  exact List.suffix_append front rest

/-- Where a datum fails, the text before that place stops there. -/
theorem stops_of_failure (limit : room + level = nestingLimit)
    (no_space : ∀ c ∈ text.head?, isSpace c = false)
    (failed : datum comments room text = .error (.unexpected rest)) :
    (∀ c ∈ rest.head?, isSpace c = false) ∧
      ∃ front, text = front ++ rest ∧ Stops comments level front := by
  induction room generalizing level text with
  | zero => cases failed
  | succ room ih =>
    have room_left : level < nestingLimit := by omega
    have deeper : room + (level + 1) = nestingLimit := by omega
    cases text with
    | nil => exact stops_of_atom room_left no_space failed
    | cons c text =>
      by_cases quote : c = '\''
      · subst quote
        have no_space_there := no_space_skipTrivia comments text
        obtain ⟨no_space_rest, front, start, stops⟩ :=
          ih deeper no_space_there (quote_eq_error_iff.mp failed)
        have trivia := trivia_skipTrivia comments text
        rw [start] at trivia no_space_there
        obtain ⟨last, rfl, kept⟩ := trivia.keep no_space_there
        refine ⟨no_space_rest, '\'' :: last, rfl, ?_⟩
        rcases stops with ⟨depth, room, begun⟩ | ⟨e, datum⟩
        · exact .inl ⟨depth, room, .quote room_left (.none _) (begun.after_trivia kept)⟩
        · exact .inr ⟨_, .quote room_left kept datum⟩
      · by_cases list : c = '('
        · subst list
          obtain ⟨items, middle, data, failed_there⟩ :=
            data_of_failure deeper (list_eq_error_iff.mp failed)
          obtain ⟨no_space_rest, front, start, stops⟩ :=
            ih deeper (no_space_skipTrivia comments middle) failed_there
          obtain ⟨before, found, depth, rfl, room, last, data_there, begun⟩ :=
            stops.breaksOff data start
          exact ⟨no_space_rest, '(' :: before, rfl,
            .inl ⟨depth, room, .list room_left (.none _) data_there begun⟩⟩
        · rw [datum_eq_atom quote list] at failed
          exact stops_of_atom room_left no_space failed

/-- What stands where an atom fails ends the text. -/
theorem suffix_of_atom {failure : Failure} (failed : atom text = .error failure) :
    failure.rest <:+ text := by
  unfold atom at failed
  split at failed
  · cases failed
    exact List.suffix_refl _
  · next e after found =>
    split at failed
    · cases failed
      obtain ⟨name, whole, -⟩ := atom_of_atom? found
      exact ⟨name, whole.symm⟩
    · cases failed

/-- What stands where a datum fails ends the text. -/
theorem suffix_of_failure {failure : Failure} (limit : room + level = nestingLimit)
    (failed : datum comments room text = .error failure) : failure.rest <:+ text := by
  induction room generalizing level text with
  | zero =>
    cases failed
    exact List.suffix_refl _
  | succ room ih =>
    have deeper : room + (level + 1) = nestingLimit := by omega
    cases text with
    | nil => exact suffix_of_atom failed
    | cons c text =>
      by_cases quote : c = '\''
      · subst quote
        have within := ih deeper (quote_eq_error_iff.mp failed)
        have skipped := (trivia_skipTrivia comments text).suffix
        exact (within.trans skipped).trans (List.suffix_cons _ _)
      · by_cases list : c = '('
        · subst list
          obtain ⟨items, middle, data, failed_there⟩ :=
            data_of_failure deeper (list_eq_error_iff.mp failed)
          have within := ih deeper failed_there
          have skipped := (trivia_skipTrivia comments middle).suffix
          exact ((within.trans skipped).trans data.suffix).trans (List.suffix_cons _ _)
        · rw [datum_eq_atom quote list] at failed
          exact suffix_of_atom failed

/-- A beginning that leaves room for more is completed on the next line. -/
theorem Begun.completed (begun : Begun comments level text depth) (room : depth < nestingLimit) :
    ∃ more e, ∀ rest, Delimited rest →
      ∃ first, Trivia comments (text ++ '\n' :: (more ++ rest)) first ∧
        Datum comments level first e rest := by
  induction begun with
  | blank trivia =>
    have atom : Atom ['x'] (.ident "x") := .identifier (by decide) (by decide) (by decide)
    exact ⟨['x'], .ident "x", fun rest delimited =>
      ⟨'x' :: rest, trivia.append_feed _, .atom room atom delimited⟩⟩
  | quote room_left trivia begun ih =>
    obtain ⟨more, e, completes⟩ := ih room
    obtain ⟨blank, rfl, before⟩ := trivia.exists_front_of_token rfl
    refine ⟨more, .list [.ident "quote", e], fun rest delimited => ?_⟩
    obtain ⟨first, trivia_there, datum⟩ := completes rest delimited
    rw [List.append_assoc]
    exact ⟨_, before _, .quote room_left trivia_there datum⟩
  | @list level depth text inner last items room_left trivia data begun ih =>
    obtain ⟨more, e, completes⟩ := ih room
    obtain ⟨blank, rfl, before⟩ := trivia.exists_front_of_token rfl
    obtain ⟨front, rfl, alike⟩ := data.exists_front
    refine ⟨more ++ [')'], .list (items ++ [e]), fun rest _ => ?_⟩
    obtain ⟨first, trivia_there, datum⟩ := completes (')' :: rest) (delimited_close rest)
    have data_there := alike (last ++ '\n' :: (more ++ ')' :: rest)) fun delimited =>
      delimited.append_feed _
    have elements := data_there.elements (.element trivia_there datum (.close (.none _)))
    have text_eq : blank ++ '(' :: (front ++ last) ++ '\n' :: (more ++ [')'] ++ rest) =
        blank ++ '(' :: (front ++ (last ++ '\n' :: (more ++ ')' :: rest))) := by simp
    rw [text_eq]
    exact ⟨_, before _, .list room_left elements⟩

/-- A text that breaks off and leaves room for more is completed on the next line. -/
theorem BreaksOff.completed (breaks : BreaksOff comments 0 text items depth)
    (room : depth < nestingLimit) :
    ∃ more e, Sequence comments (text ++ '\n' :: more) (items ++ [e]) := by
  obtain ⟨rest, data, begun⟩ := breaks
  obtain ⟨more, e, completes⟩ := begun.completed room
  obtain ⟨first, trivia, datum⟩ := completes [] delimited_nil
  obtain ⟨front, rfl, alike⟩ := data.exists_front
  have data_there := alike (rest ++ '\n' :: (more ++ [])) fun delimited => delimited.append_feed _
  have all_data := data_there.trans (.datum trivia datum (.none []))
  rw [← List.append_assoc, List.append_nil] at all_data
  exact ⟨more, e, [], all_data, .none []⟩

end Grammar

namespace Reader

variable {comments : Bool} {text : String}

/-- A failure other than for the nesting has a text before it that breaks off and leaves room for
more. -/
theorem breaksOff_of_failure {error : ReadError}
    (failed : .error error ∈ (ofString comments text).items) (shallow : error.cause ≠ .tooDeep) :
    ∃ before rest found depth, text.toList = before ++ rest ∧
      (∀ c ∈ rest.head?, isSpace c = false) ∧ depth < nestingLimit ∧
      BreaksOff comments 0 before found depth ∧
      error = (Failure.unexpected rest).report text.toList := by
  obtain ⟨es, middle, data, ⟨-, items⟩ | ⟨failure, -, failed_there, items⟩⟩ :=
    (ofString comments text).items_cases
  · rw [items] at failed
    simp at failed
  · obtain rfl : error = failure.report text.toList := by
      rw [items] at failed
      simpa [ofString] using failed
    cases failure with
    | tooDeep rest => exact absurd rfl shallow
    | unexpected rest =>
      obtain ⟨no_space, front, start, stops⟩ := stops_of_failure (Nat.add_zero nestingLimit)
        (no_space_skipTrivia _ middle) failed_there
      obtain ⟨before, found, depth, whole, room, breaks⟩ := stops.breaksOff data start
      exact ⟨before, rest, found, depth, whole, no_space, room, breaks, rfl⟩

/-- A failure at the end is reported as unfinished, and any other one at its byte. -/
theorem report_unexpected (before rest : List Char) :
    (Failure.unexpected rest).report (before ++ rest) =
      if rest.all Text.isBlank then ⟨.unfinished, none⟩
      else ⟨.unexpected (Text.byteSize before), Text.snippet rest⟩ := by
  rw [Failure.report, Text.byteSize_append, Nat.add_sub_cancel]

/-- The error shows what stands at a byte of the text, the one that it names if it names any; or it
is that the text ends too early, and shows nothing. -/
def PointsInto (error : ReadError) (text : List Char) : Prop :=
  (error.cause = .unfinished ∨ error.cause = .missing) ∧ error.snippet = none ∨
    ∃ before rest, text = before ++ rest ∧
      error.snippet = Text.context? text (Text.byteSize before) ∧
      (error.cause = .unexpected (Text.byteSize before) ∨ error.cause = .tooDeep ∨
        error.cause = .trailing)

/-- The report of a failure shows what stands where it happened. -/
theorem pointsInto_report {failure : Failure} {chars : List Char}
    (within : failure.rest <:+ chars) : PointsInto (failure.report chars) chars := by
  obtain ⟨before, rfl⟩ := within
  have shown := Text.context?_byteSize before failure.rest
  cases failure with
  | tooDeep rest => exact .inr ⟨before, rest, rfl, shown.symm, .inr (.inl rfl)⟩
  | unexpected rest =>
    have report := report_unexpected before rest
    simp only [Failure.rest] at shown ⊢
    rw [report]
    split
    · exact .inl ⟨.inl rfl, rfl⟩
    · exact .inr ⟨before, rest, rfl, shown.symm, .inl rfl⟩

/-- All that goes wrong with reading a text points into it. -/
theorem pointsInto_of_failure {error : ReadError}
    (failed : .error error ∈ (ofString comments text).items ∨
      single comments text = .error error) : PointsInto error text.toList := by
  rcases failed with among | alone
  · obtain ⟨es, middle, data, ⟨-, items⟩ | ⟨failure, -, failed_there, items⟩⟩ :=
      (ofString comments text).items_cases
    · rw [items] at among
      simp at among
    · obtain rfl : error = failure.report text.toList := by
        rw [items] at among
        simpa [ofString] using among
      have within := suffix_of_failure (Nat.add_zero nestingLimit) failed_there
      have skipped := (trivia_skipTrivia comments middle).suffix
      exact pointsInto_report ((within.trans skipped).trans data.suffix)
  · rcases (ofString comments text).next_cases with ⟨-, next⟩ |
      ⟨failure, -, failed_there, next⟩ | ⟨first, e, last, trivia, datum, next⟩
    · rw [single, next] at alone
      cases alone
      exact .inl ⟨.inr rfl, rfl⟩
    · rw [single, next] at alone
      cases alone
      have within := suffix_of_failure (Nat.add_zero nestingLimit) failed_there
      exact pointsInto_report (within.trans (trivia_skipTrivia comments text.toList).suffix)
    · rw [single, next] at alone
      dsimp only at alone
      split at alone
      · cases alone
      · cases alone
        have read : Data comments 0 text.toList [e] last := .datum trivia datum (.none last)
        obtain ⟨before, whole⟩ := (trivia_skipTrivia comments last).suffix.trans read.suffix
        have shown := Text.context?_byteSize before (skipTrivia comments last)
        rw [whole] at shown
        exact .inr ⟨before, _, whole.symm, shown.symm, .inr (.inr rfl)⟩

/-- Where only blanks are left that do not start with a space, nothing is left, if every blank is a
space. -/
theorem eq_nil_of_blanks {chars rest : List Char}
    (plain : ∀ c ∈ chars, Text.isBlank c = true → isSpace c = true) (within : rest ⊆ chars)
    (no_space : ∀ c ∈ rest.head?, isSpace c = false) (blank : rest.all Text.isBlank = true) :
    rest = [] := by
  cases rest with
  | nil => rfl
  | cons c tail =>
    have blank_first := List.all_eq_true.mp blank c List.mem_cons_self
    have space := plain c (within List.mem_cons_self) blank_first
    rw [no_space c rfl] at space
    cases space

/-- A sequence goes on with what completes it. -/
theorem items_of_sequence_append {more : List Char} {es : List Expr}
    (sequence : Sequence comments (text.toList ++ more) es) :
    (ofString comments (text ++ String.ofList more)).items = es.map .ok := by
  apply items_eq_ok_iff.mpr
  rwa [String.toList_append, String.toList_ofList]

/-- Up to the byte that a failure names, a text is the front of one that can be read. -/
theorem items_of_unexpected {position : Nat} {snippet : Option String}
    (failed : .error ⟨.unexpected position, snippet⟩ ∈ (ofString comments text).items) :
    ∃ before after more es, text = before ++ after ∧ after ≠ "" ∧
      before.utf8ByteSize = position ∧
      (ofString comments (before ++ more)).items = List.map .ok es := by
  obtain ⟨before, rest, found, depth, whole, -, room, breaks, error_eq⟩ :=
    breaksOff_of_failure failed nofun
  rw [whole, report_unexpected] at error_eq
  split at error_eq
  · cases error_eq
  · next some_left =>
    cases error_eq
    obtain ⟨more, e, sequence⟩ := breaks.completed room
    rw [← String.toList_ofList (l := before)] at sequence
    refine ⟨String.ofList before, String.ofList rest, _, _, ?_, ?_, ?_,
      items_of_sequence_append sequence⟩
    · rw [← String.ofList_append, ← whole, String.ofList_toList]
    · intro nothing
      obtain rfl : rest = [] := by simpa using congrArg String.toList nothing
      exact some_left rfl
    · exact (Text.byteSize_ofList before).symm

/-- A text with an unfinished expression is the front of one that can be read. -/
theorem items_of_unfinished {error : ReadError}
    (plain : ∀ c ∈ text.toList, Text.isBlank c = true → isSpace c = true)
    (failed : .error error ∈ (ofString comments text).items)
    (unfinished : error.cause = .unfinished) :
    ∃ more es, (ofString comments (text ++ more)).items = List.map .ok es := by
  obtain ⟨before, rest, found, depth, whole, no_space, room, breaks, error_eq⟩ :=
    breaksOff_of_failure failed (by rw [unfinished]; nofun)
  rw [whole, report_unexpected] at error_eq
  split at error_eq
  · next blank =>
    have within : rest ⊆ text.toList := whole ▸ List.subset_append_right before rest
    obtain rfl := eq_nil_of_blanks plain within no_space blank
    obtain ⟨more, e, sequence⟩ := breaks.completed room
    rw [List.append_nil] at whole
    rw [← whole] at sequence
    exact ⟨_, _, items_of_sequence_append sequence⟩
  · rw [error_eq] at unfinished
    cases unfinished

/-- A text that begins one expression is completed to it. -/
theorem single_of_begun {depth : Nat} (begun : Begun comments 0 text.toList depth)
    (room : depth < nestingLimit) : ∃ more e, single comments (text ++ more) = .ok e := by
  have breaks : BreaksOff comments 0 text.toList [] depth := ⟨_, .none _, begun⟩
  obtain ⟨more, e, sequence⟩ := breaks.completed room
  refine ⟨String.ofList ('\n' :: more), e, single_of_program (sequence_singleton_iff.mp ?_)⟩
  rwa [String.toList_append, String.toList_ofList]

/-- A text without an expression or with an unfinished one is completed to one. -/
theorem single_of_incomplete {error : ReadError}
    (plain : ∀ c ∈ text.toList, Text.isBlank c = true → isSpace c = true)
    (failed : single comments text = .error error)
    (incomplete : error.cause = .unfinished ∨ error.cause = .missing) :
    ∃ more e, single comments (text ++ more) = .ok e := by
  have trivia := trivia_skipTrivia comments text.toList
  rcases (ofString comments text).next_cases with ⟨ended, -⟩ |
    ⟨failure, -, failed_there, next⟩ | ⟨first, e, last, -, -, next⟩
  · exact single_of_begun (.blank (trivia_to_end_iff.mpr ended)) (by decide)
  · obtain rfl : failure.report text.toList = error := by
      rw [single, next] at failed
      exact Except.error.inj failed
    cases failure with
    | tooDeep rest => rcases incomplete with wrong | wrong <;> cases wrong
    | unexpected rest =>
      have no_space_there := no_space_skipTrivia comments text.toList
      obtain ⟨no_space, front, start, stops⟩ :=
        stops_of_failure (Nat.add_zero nestingLimit) no_space_there failed_there
      obtain ⟨before, whole⟩ := trivia.exists_front
      have start_there : skipTrivia comments text.toList = front ++ rest := start
      rw [start_there, ← List.append_assoc] at whole
      rw [whole, report_unexpected] at incomplete
      split at incomplete
      · next blank =>
        have within : rest ⊆ text.toList := whole ▸ List.subset_append_right _ rest
        obtain rfl := eq_nil_of_blanks plain within no_space blank
        rw [start_there, List.append_nil] at trivia
        rcases stops with ⟨depth, room, begun⟩ | ⟨e, datum⟩
        · exact single_of_begun (begun.after_trivia trivia) room
        · refine ⟨"", e, single_of_program ⟨front, [], ?_, datum, .none []⟩⟩
          rwa [String.append_empty]
      · rcases incomplete with wrong | wrong <;> cases wrong
  · rw [single, next] at failed
    dsimp only at failed
    split at failed
    · cases failed
    · cases failed
      rcases incomplete with wrong | wrong <;> cases wrong

end Reader

/-- Up to the byte that a failure names, a text is the front of one that can be read. And if it has
no blanks other than those between tokens, a text that is unfinished or has no expression is the
front of one that can be read, and of a single expression if one is asked for. -/
theorem failures_are_viable (comments : Bool) (text : String) :
    (∀ position snippet,
      .error ⟨.unexpected position, snippet⟩ ∈ (ofString comments text).items →
        ∃ before after more es, text = before ++ after ∧ after ≠ "" ∧
          before.utf8ByteSize = position ∧
          (ofString comments (before ++ more)).items = List.map .ok es) ∧
      ((∀ c ∈ text.toList, Text.isBlank c = true → isSpace c = true) →
        (∀ error, .error error ∈ (ofString comments text).items → error.cause = .unfinished →
          ∃ more es, (ofString comments (text ++ more)).items = List.map .ok es) ∧
        ∀ error, single comments text = .error error →
          error.cause = .unfinished ∨ error.cause = .missing →
            ∃ more e, single comments (text ++ more) = .ok e) := by
  refine ⟨fun position snippet failed => items_of_unexpected failed, fun plain => ⟨?_, ?_⟩⟩
  · exact fun error failed unfinished => items_of_unfinished plain failed unfinished
  · exact fun error failed incomplete => single_of_incomplete plain failed incomplete

/-- Letters after digits are no integer, and an open list and a quote mark are unfinished. -/
theorem failures_are_viable_of_digits :
    (∃ before after more es, "(a 12b" = before ++ after ∧ after ≠ "" ∧ before.utf8ByteSize = 5 ∧
      (ofString true (before ++ more)).items = List.map .ok es) ∧
    (∃ more es, (ofString true ("(a ;" ++ more)).items = List.map .ok es) ∧
    ∃ more e, single true ("'" ++ more) = .ok e := by
  have digits : (ofString true "(a 12b").items = [.error ⟨.unexpected 5, some "b"⟩] :=
    items_eq_iff.mpr (by decide +kernel)
  have open_list : (ofString true "(a ;").items = [.error ⟨.unfinished, none⟩] :=
    items_eq_iff.mpr (by decide +kernel)
  have quote : single true "'" = .error ⟨.unfinished, none⟩ := by decide +kernel
  refine ⟨?_, ?_, ?_⟩
  · exact (failures_are_viable true _).1 5 (some "b") (digits ▸ List.mem_singleton_self _)
  · exact ((failures_are_viable true _).2 (by simp [Text.isBlank, isSpace])).1 ⟨.unfinished, none⟩
      (open_list ▸ List.mem_singleton_self _) rfl
  · exact ((failures_are_viable true _).2 (by simp [Text.isBlank, isSpace])).2 _ quote (.inl rfl)

end TailScheme
