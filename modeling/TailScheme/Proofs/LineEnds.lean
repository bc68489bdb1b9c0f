import TailScheme.Proofs.Concatenation

/-!
# Line ends

A carriage return in front of a line feed may be left out of a text: the text stays the same
sequence of data, and what breaks off still does so where the same lists and quote marks are open
(`Grammar.Unreturned`). Such a carriage return ends a comment together with the line feed, and
everywhere else it is a space.

A text is read line by line if each of its lines ends what is complete by then: what has been read
is a sequence of data, and so is the rest (`Grammar.Sequence.split`).
-/
namespace TailScheme

open Reader

namespace Grammar

/-- A text, and the same text without some of the carriage returns that stand in front of line
feeds. -/
inductive Unreturned : List Char → List Char → Prop where
  | nil : Unreturned [] []
  | keep (c : Char) {text other : List Char} (more : Unreturned text other) :
      Unreturned (c :: text) (c :: other)
  | drop {text other : List Char} (more : Unreturned text other) :
      Unreturned ('\r' :: '\n' :: text) ('\n' :: other)

section

variable {comments : Bool} {level depth : Nat} {text rest other start back : List Char}
  {e : Expr} {items later : List Expr}

/-- All carriage returns may be kept. -/
theorem Unreturned.refl (text : List Char) : Unreturned text text := by
  induction text with
  | nil => exact .nil
  | cons c text ih => exact .keep c ih

/-- Texts may lose carriage returns one after the other. -/
theorem Unreturned.append {more last : List Char} (unreturned : Unreturned text other)
    (later : Unreturned more last) : Unreturned (text ++ more) (other ++ last) := by
  induction unreturned with
  | nil => exact later
  | keep c _ ih => exact .keep c ih
  | drop _ ih => exact .drop ih

/-- What has no carriage returns loses none. -/
theorem Unreturned.front {front : List Char} (unreturned : Unreturned (front ++ text) other)
    (plain : '\r' ∉ front) : ∃ last, other = front ++ last ∧ Unreturned text last := by
  induction front generalizing other with
  | nil => exact ⟨other, rfl, unreturned⟩
  | cons c front ih =>
    rw [List.mem_cons, not_or] at plain
    rw [List.cons_append] at unreturned
    generalize tail_eq : front ++ text = tail at unreturned
    cases unreturned with
    | keep _ more =>
      subst tail_eq
      obtain ⟨last, rfl, after⟩ := ih more plain.2
      exact ⟨last, rfl, after⟩
    | drop more => exact absurd rfl plain.1

/-- What may follow an atom may still do so. -/
theorem Delimited.unreturned (delimited : Delimited text) (unreturned : Unreturned text other) :
    Delimited other := by
  cases unreturned with
  | nil => exact delimited
  | keep c more => exact delimited
  | drop more => exact delimited_feed _

/-- A line that ends still does so. -/
theorem LineEnd.unreturned (ends : LineEnd text) (unreturned : Unreturned text other) :
    LineEnd other := by
  cases ends with
  | feed after =>
    cases unreturned with
    | keep _ more => exact .feed _
  | carriage after =>
    cases unreturned with
    | keep _ more =>
      cases more with
      | keep _ more => exact .carriage _
    | drop more => exact .feed _
  | finish =>
    cases unreturned with
    | nil => exact .finish

/-- Trivia is still trivia. -/
theorem Trivia.unreturned (trivia : Trivia comments text rest)
    (unreturned : Unreturned text other) : ∃ last, Trivia comments other last ∧ Unreturned rest last := by
  induction trivia generalizing other with
  | none rest => exact ⟨other, .none other, unreturned⟩
  | space space more ih =>
    cases unreturned with
    | keep c unreturned =>
      obtain ⟨last, trivia, unreturned⟩ := ih unreturned
      exact ⟨last, .space space trivia, unreturned⟩
    | drop unreturned => exact ih (.keep '\n' unreturned)
  | @comment line text rest enabled plain ends more ih =>
    have no_return : '\r' ∉ ';' :: line := by
      rintro (_ | ⟨_, member⟩)
      exact (plain _ member).1 rfl
    obtain ⟨text_there, rfl, after⟩ := Unreturned.front unreturned no_return
    obtain ⟨last, trivia, unreturned_rest⟩ := ih after
    exact ⟨last, .comment enabled plain (ends.unreturned after) trivia, unreturned_rest⟩

mutual

/-- A datum is still the same datum. -/
theorem Datum.unreturned {level : Nat} {text rest other : List Char} {e : Expr}
    (unreturned : Unreturned text other) : Datum comments level text e rest →
      ∃ last, Datum comments level other e last ∧ Unreturned rest last
  | .atom room is_atom delimited => by
    have no_return : '\r' ∉ _ := fun member => absurd (is_atom.continues _ member) (by decide)
    obtain ⟨last, rfl, after⟩ := unreturned.front no_return
    exact ⟨last, .atom room is_atom (delimited.unreturned after), after⟩
  | .quote room trivia datum => by
    cases unreturned with
    | keep _ unreturned =>
      obtain ⟨first, trivia, unreturned⟩ := trivia.unreturned unreturned
      obtain ⟨last, datum, unreturned⟩ := datum.unreturned unreturned
      exact ⟨last, .quote room trivia datum, unreturned⟩
  | .list room elements => by
    cases unreturned with
    | keep _ unreturned =>
      obtain ⟨last, elements, unreturned⟩ := elements.unreturned unreturned
      exact ⟨last, .list room elements, unreturned⟩

/-- Elements are still the same elements. -/
theorem Elements.unreturned {level : Nat} {text rest other : List Char} {items : List Expr}
    (unreturned : Unreturned text other) : Elements comments level text items rest →
      ∃ last, Elements comments level other items last ∧ Unreturned rest last
  | .close trivia => by
    obtain ⟨first, trivia, unreturned⟩ := trivia.unreturned unreturned
    cases unreturned with
    | keep _ unreturned => exact ⟨_, .close trivia, unreturned⟩
  | .element trivia datum more => by
    obtain ⟨first, trivia, unreturned⟩ := trivia.unreturned unreturned
    obtain ⟨next, datum, unreturned⟩ := datum.unreturned unreturned
    obtain ⟨last, more, unreturned⟩ := more.unreturned unreturned
    exact ⟨last, .element trivia datum more, unreturned⟩

end

/-- Data are still the same data. -/
theorem Data.unreturned (data : Data comments level text items rest)
    (unreturned : Unreturned text other) :
    ∃ last, Data comments level other items last ∧ Unreturned rest last := by
  induction data generalizing other with
  | none rest => exact ⟨other, .none other, unreturned⟩
  | datum trivia datum _ ih =>
    obtain ⟨first, trivia, unreturned⟩ := trivia.unreturned unreturned
    obtain ⟨next, datum, unreturned⟩ := datum.unreturned unreturned
    obtain ⟨last, more, unreturned⟩ := ih unreturned
    exact ⟨last, .datum trivia datum more, unreturned⟩

/-- Trivia up to the end is so still. -/
theorem Trivia.unreturned_to_end (trivia : Trivia comments text [])
    (unreturned : Unreturned text other) : Trivia comments other [] := by
  obtain ⟨last, trivia, unreturned⟩ := trivia.unreturned unreturned
  cases unreturned with
  | nil => exact trivia

/-- The same lists and quote marks are still open at the end of a beginning. -/
theorem Begun.unreturned (begun : Begun comments level text depth)
    (unreturned : Unreturned text other) : Begun comments level other depth := by
  induction begun generalizing other with
  | blank trivia => exact .blank (trivia.unreturned_to_end unreturned)
  | quote room trivia begun ih =>
    obtain ⟨first, trivia, unreturned⟩ := trivia.unreturned unreturned
    cases unreturned with
    | keep _ unreturned => exact .quote room trivia (ih unreturned)
  | list room trivia data begun ih =>
    obtain ⟨first, trivia, unreturned⟩ := trivia.unreturned unreturned
    cases unreturned with
    | keep _ unreturned =>
      obtain ⟨last, data, unreturned⟩ := data.unreturned unreturned
      exact .list room trivia data (ih unreturned)

/-- A text that breaks off still does so with the same lists and quote marks open. -/
theorem BreaksOff.unreturned (breaks : BreaksOff comments level text items depth)
    (unreturned : Unreturned text other) : BreaksOff comments level other items depth := by
  obtain ⟨rest, data, begun⟩ := breaks
  obtain ⟨last, data, unreturned⟩ := data.unreturned unreturned
  exact ⟨last, data, begun.unreturned unreturned⟩

/-- A sequence breaks off with nothing open. -/
theorem Sequence.breaksOff (sequence : Sequence comments text items) :
    BreaksOff comments 0 text items 0 := by
  obtain ⟨rest, data, ends⟩ := sequence
  exact ⟨rest, data, .blank ends⟩

/-- Data never take up the end of a line. -/
theorem Data.feed_left (data : Data comments level text items rest)
    (within : level ≤ nestingLimit) (whole : text = start ++ ['\n']) :
    ∃ left, rest = left ++ ['\n'] := by
  obtain ⟨room, limit⟩ : ∃ room, room + level = nestingLimit := ⟨nestingLimit - level, by omega⟩
  induction data generalizing start with
  | none rest => exact ⟨start, whole⟩
  | @datum text first next rest e items trivia datum _ ih =>
    have skipped := (skipTrivia_of_trivia trivia).trans datum.skipTrivia_eq
    have reads := reads_of_datum limit datum
    obtain ⟨c, tail, rfl, no_space, no_comment, -⟩ := datum.exists_cons
    rcases trivia.cut whole with ⟨left, first_eq, before⟩ | ends
    · rcases datum.cut first_eq with ⟨after, next_eq, -⟩ | ⟨depth, begun⟩
      · exact ih next_eq
      · -- The datum is complete at the end of the line, so it does not break off there.
        have failed := begun.fails limit
        rw [← first_eq, skipTrivia_of_start no_space no_comment] at failed
        obtain ⟨shorter, read⟩ := reads
        rw [read] at failed
        cases failed
    · rw [whole, trivia_to_end_iff.mp ends] at skipped
      cases skipped

/-- Trivia up to the end of a line is trivia in front of more lines. -/
theorem Trivia.go_on (trivia : Trivia comments text []) (whole : text = start ++ ['\n'])
    (more : List Char) : Trivia comments (start ++ '\n' :: more) more := by
  generalize finish : [] = last at trivia
  induction trivia generalizing start with
  | none last =>
    rw [← finish] at whole
    simp at whole
  | @space c text last space _ ih =>
    cases start with
    | nil => exact .space rfl (.none more)
    | cons d start =>
      obtain ⟨rfl, tail⟩ := List.cons.inj whole
      exact .space space (ih tail finish)
  | @comment line text last enabled plain ends _ ih =>
    have no_feed : '\n' ∉ ';' :: line := by
      rintro (_ | ⟨_, member⟩)
      exact (plain _ member).2 rfl
    obtain ⟨after, rfl, tail⟩ := after_front no_feed whole
    have ends_there : LineEnd (after ++ '\n' :: more) := LineEnd.cut (tail ▸ ends) more
    have comment := Trivia.comment enabled plain ends_there (ih tail finish)
    simpa using comment

/-- The data of a sequence of lines are the same data in front of more lines. -/
theorem Sequence.go_on (sequence : Sequence comments (start ++ ['\n']) items) (more : List Char) :
    ∃ last, Data comments 0 (start ++ '\n' :: more) items last ∧ Trivia comments last more := by
  obtain ⟨rest, data, ends⟩ := sequence
  obtain ⟨left, rfl⟩ := data.feed_left (Nat.zero_le _) rfl
  obtain ⟨front, whole, alike⟩ := data.exists_front
  have start_eq : start = front ++ left := by
    rw [← List.append_assoc] at whole
    exact List.append_cancel_right whole
  have data_there := alike (left ++ '\n' :: more) fun delimited =>
    delimited.append fun _ => delimited_feed more
  rw [start_eq, List.append_assoc]
  exact ⟨_, data_there, ends.go_on rfl more⟩

/-- What comes after the lines of a sequence is the rest of the sequence. -/
theorem Sequence.split {found : List Expr} (first : Sequence comments (start ++ ['\n']) found)
    (whole : Sequence comments (start ++ '\n' :: rest) items) :
    ∃ later, items = found ++ later ∧ Sequence comments rest later := by
  obtain ⟨last, data, trivia⟩ := first.go_on rest
  let source := start ++ '\n' :: rest
  have handed : found.map .ok ++ Reader.items ⟨comments, source, rest⟩ = items.map .ok := by
    rw [← items_of_trivia trivia, ← items_of_data data]
    exact items_eq_ok_iff_sequence.mpr whole
  obtain ⟨front, later, items_eq, front_eq, later_eq⟩ := List.map_eq_append_iff.mp handed.symm
  have same : front = found := List.map_injective_iff.mpr (fun _ _ => Except.ok.inj) front_eq
  rw [same] at items_eq
  exact ⟨later, items_eq, items_eq_ok_iff_sequence.mp later_eq.symm⟩

/-- What breaks off on the lines after a sequence breaks off after all of it. -/
theorem Sequence.then_breaksOff {found : List Expr}
    (first : Sequence comments (start ++ ['\n']) found)
    (breaks : BreaksOff comments 0 rest items depth) :
    BreaksOff comments 0 (start ++ '\n' :: rest) (found ++ items) depth := by
  obtain ⟨last, data, begun⟩ := breaks
  obtain ⟨left, data_there, trivia⟩ := first.go_on rest
  cases data with
  | none _ =>
    rw [List.append_nil]
    exact ⟨left, data_there, begun.after_trivia trivia⟩
  | datum blank datum more =>
    exact ⟨last, data_there.trans (.datum (trivia.trans blank) datum more), begun⟩

end

end Grammar

end TailScheme
