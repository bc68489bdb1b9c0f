import TailScheme.Proofs.Successive
import TailScheme.Repl

/-!
# Unfinished texts

A text that breaks off is described by the grammar too: it is a sequence of data and then the
beginning of one more, and at its end a number of lists and quote marks are open
(`Grammar.BreaksOff`). The reader finds such a text unfinished, with one exception: when the lists
and quote marks that are open take up all the room for nesting, it reports that they nest too deep,
because it looks at the room before it looks at the text.

The lines that a readable text begins with break off (`Grammar.Sequence.breaksOff_of_feed`). So the
interactive loop collects them, again with that exception.
-/
namespace TailScheme

open Reader Grammar

namespace Grammar

/-- The beginning of a datum inside `level` lists and quote marks, with trivia in front of it, that
breaks off between tokens where `depth` lists and quote marks are open. -/
inductive Begun (comments : Bool) : (level : Nat) → List Char → (depth : Nat) → Prop where
  | blank {level : Nat} {text : List Char} (trivia : Trivia comments text []) :
      Begun comments level text level
  | quote {level depth : Nat} {text inner : List Char} (room : level < nestingLimit)
      (trivia : Trivia comments text ('\'' :: inner))
      (begun : Begun comments (level + 1) inner depth) : Begun comments level text depth
  | list {level depth : Nat} {text inner rest : List Char} {items : List Expr}
      (room : level < nestingLimit) (trivia : Trivia comments text ('(' :: inner))
      (data : Data comments (level + 1) inner items rest)
      (begun : Begun comments (level + 1) rest depth) : Begun comments level text depth

/-- A text that is data and the beginning of one more, inside `level` lists and quote marks. -/
def BreaksOff (comments : Bool) (level : Nat) (text : List Char) (items : List Expr)
    (depth : Nat) : Prop :=
  ∃ rest, Data comments level text items rest ∧ Begun comments level rest depth

section

variable {comments : Bool} {level depth : Nat} {text first middle rest start back : List Char}
  {e : Expr} {items more : List Expr}

/-- What is open around a beginning is open at its end. -/
theorem Begun.level_le (begun : Begun comments level text depth) : level ≤ depth := by
  induction begun with
  | blank trivia => exact Nat.le_refl _
  | quote room trivia begun ih => exact Nat.le_of_succ_le ih
  | list room trivia data begun ih => exact Nat.le_of_succ_le ih

/-- No more lists and quote marks are open than the limit allows. -/
theorem Begun.depth_le (begun : Begun comments level text depth) (within : level ≤ nestingLimit) :
    depth ≤ nestingLimit := by
  induction begun with
  | blank trivia => exact within
  | quote room trivia begun ih => exact ih room
  | list room trivia data begun ih => exact ih room

/-- Trivia in front of a beginning belongs to it. -/
theorem Begun.after_trivia (begun : Begun comments level middle depth)
    (trivia : Trivia comments text middle) : Begun comments level text depth := by
  cases begun with
  | blank ends => exact .blank (trivia.trans ends)
  | quote room start begun => exact .quote room (trivia.trans start) begun
  | list room start data begun => exact .list room (trivia.trans start) data begun

/-- Outside of everything, a text that breaks off with nothing open is complete. -/
theorem BreaksOff.sequence (breaks : BreaksOff comments 0 text items 0) :
    Sequence comments text items := by
  obtain ⟨rest, data, begun⟩ := breaks
  cases begun with
  | blank trivia => exact ⟨rest, data, trivia⟩
  | quote room trivia begun => exact absurd begun.level_le (Nat.not_succ_le_zero 0)
  | list room trivia inner begun => exact absurd begun.level_le (Nat.not_succ_le_zero 0)

/-- A beginning does not close a list. -/
theorem Begun.open_still (begun : Begun comments level text depth) (after : List Char) :
    skipTrivia comments text ≠ ')' :: after := by
  intro closes
  cases begun with
  | blank trivia =>
    rw [trivia_to_end_iff.mp trivia] at closes
    cases closes
  | quote room trivia begun =>
    rw [skipTrivia_of_trivia trivia, skipTrivia_of_start rfl (by decide)] at closes
    cases closes
  | list room trivia data begun =>
    rw [skipTrivia_of_trivia trivia, skipTrivia_of_start rfl (by decide)] at closes
    cases closes

/-- A quote mark fails with the datum after it. -/
theorem quote_eq_error_iff {room : Nat} {failure : Failure} :
    datum comments (room + 1) ('\'' :: text) = .error failure ↔
      datum comments room (skipTrivia comments text) = .error failure := by
  rw [datum, if_pos rfl]
  split
  · next other failed => rw [failed, Except.error.injEq, Except.error.injEq]
  · next read => simp [read]

/-- A list fails with its elements. -/
theorem list_eq_error_iff {room : Nat} {failure : Failure} :
    datum comments (room + 1) ('(' :: text) = .error failure ↔
      elements comments (datum comments room) text = .error failure := by
  rw [datum, if_neg (by decide), if_pos rfl]
  split
  · next other failed => rw [failed, Except.error.injEq, Except.error.injEq]
  · next read => simp [read]

/-- Elements fail with the first one or with those after it. -/
theorem elements_eq_error_iff
    {item : (text : List Char) → Except Failure (Expr × Rest text)} {failure : Failure} :
    elements comments item text = .error failure ↔
      (∀ after, skipTrivia comments text ≠ ')' :: after) ∧
        (item (skipTrivia comments text) = .error failure ∨
          ∃ e next, Reads (item (skipTrivia comments text)) e next ∧
            elements comments item next = .error failure) := by
  rw [elements]
  split
  · next after start =>
    constructor
    · rintro ⟨⟩
    · rintro ⟨open_still, -⟩
      exact absurd start (open_still after)
  · next open_still =>
    constructor
    · intro failed
      split at failed
      · next other first_failed =>
        cases failed
        exact ⟨open_still, .inl first_failed⟩
      · next e next shorter read =>
        dsimp only at failed
        split at failed
        · next other later_failed =>
          cases failed
          exact ⟨open_still, .inr ⟨e, next, ⟨shorter, read⟩, later_failed⟩⟩
        · cases failed
    · rintro ⟨-, first_failed | ⟨e, next, ⟨shorter, read⟩, later_failed⟩⟩
      · simp only [first_failed]
      · simp only [read, later_failed]

/-- Elements fail where the data in front of them end and the next one fails. -/
theorem elements_of_failure {room : Nat} {failure : Failure} (limit : room + level = nestingLimit)
    (data : Data comments level text items rest)
    (open_still : ∀ after, skipTrivia comments rest ≠ ')' :: after)
    (failed : datum comments room (skipTrivia comments rest) = .error failure) :
    elements comments (datum comments room) text = .error failure := by
  induction data with
  | none rest => exact elements_eq_error_iff.mpr ⟨open_still, .inl failed⟩
  | @datum text first next rest e items trivia derived _ ih =>
    have reads := reads_of_datum limit derived
    have skipped := (skipTrivia_of_trivia trivia).trans derived.skipTrivia_eq
    obtain ⟨c, tail, rfl, -, -, no_close⟩ := derived.exists_cons
    rw [← skipped] at reads
    refine elements_eq_error_iff.mpr ⟨?_, .inr ⟨e, next, reads, ih open_still failed⟩⟩
    intro after closes
    rw [skipped] at closes
    exact no_close (List.cons.inj closes).1

/-- A beginning that opens something starts with a token. -/
theorem Begun.skipTrivia_ne_nil (begun : Begun comments level text depth) (inside : level < depth) :
    skipTrivia comments text ≠ [] := by
  cases begun with
  | blank trivia => exact absurd inside (Nat.lt_irrefl _)
  | quote room trivia begun =>
    rw [skipTrivia_of_trivia trivia, skipTrivia_of_start rfl (by decide)]
    exact List.cons_ne_nil _ _
  | list room trivia data begun =>
    rw [skipTrivia_of_trivia trivia, skipTrivia_of_start rfl (by decide)]
    exact List.cons_ne_nil _ _

/-- How reading fails at the end of a text where `depth` lists and quote marks are open. -/
def failureAtEnd (depth : Nat) : Failure :=
  if depth < nestingLimit then .unexpected [] else .tooDeep []

/-- A beginning fails at its end. -/
theorem Begun.fails {room : Nat} (begun : Begun comments level text depth)
    (limit : room + level = nestingLimit) :
    datum comments room (skipTrivia comments text) = .error (failureAtEnd depth) := by
  induction begun generalizing room with
  | @blank level text trivia =>
    rw [trivia_to_end_iff.mp trivia, failureAtEnd]
    cases room with
    | zero =>
      rw [if_neg (by omega)]
      rfl
    | succ room =>
      rw [if_pos (by omega)]
      rfl
  | quote room_left trivia begun ih =>
    obtain ⟨room, rfl⟩ : ∃ less, room = less + 1 := ⟨room - 1, by omega⟩
    rw [skipTrivia_of_trivia trivia, skipTrivia_of_start rfl (by decide)]
    exact quote_eq_error_iff.mpr (ih (by omega))
  | list room_left trivia data begun ih =>
    obtain ⟨room, rfl⟩ : ∃ less, room = less + 1 := ⟨room - 1, by omega⟩
    rw [skipTrivia_of_trivia trivia, skipTrivia_of_start rfl (by decide)]
    exact list_eq_error_iff.mpr
      (elements_of_failure (by omega) data begun.open_still (ih (by omega)))

end

end Grammar

/-- What reading a text that breaks off with `depth` lists and quote marks open ends with. -/
def Reader.finish (depth : Nat) : List (Except ReadError Expr) :=
  if depth = 0 then []
  else if depth < nestingLimit then [.error ⟨.unfinished, none⟩]
  else [.error ⟨.tooDeep, none⟩]

/-- A text that breaks off is read up to its end, which is a failure if something is open there. -/
theorem Reader.items_of_breaksOff {comments : Bool} {text : String} {items : List Expr}
    {depth : Nat} (breaks : BreaksOff comments 0 text.toList items depth) :
    (ofString comments text).items = items.map .ok ++ finish depth := by
  by_cases nothing : depth = 0
  · subst nothing
    rw [items_eq_ok_iff.mpr breaks.sequence, finish, if_pos rfl, List.append_nil]
  · obtain ⟨rest, data, begun⟩ := breaks
    have more := begun.skipTrivia_ne_nil (Nat.pos_of_ne_zero nothing)
    have failed := begun.fails (Nat.add_zero nestingLimit)
    have failure := @items_of_failure ⟨comments, text.toList, rest⟩ _ more failed
    rw [ofString, items_of_data data, failure, finish, if_neg nothing, failureAtEnd]
    split <;> rfl

namespace Grammar

section

variable {comments : Bool} {level : Nat} {text rest start back name : List Char} {e : Expr}
  {items : List Expr}

/-- Every character of an atom could continue one. -/
theorem Atom.continues (atom : Atom name e) : ∀ c ∈ name, continuesAtom c = true := by
  have decimal : ∀ digits : List Char, (∀ c ∈ digits, c.isDigit = true) →
      ∀ c ∈ digits, continuesAtom c = true := fun digits each c member =>
    continuesAtom_of_isIdentifierChar (isIdentifierChar_of_isDigit (each c member))
  cases atom with
  | natural nonempty digits denotes => exact decimal _ digits
  | negative nonempty digits denotes =>
    exact List.forall_mem_cons.mpr ⟨by decide, decimal _ digits⟩
  | hashTrue => exact List.all_eq_true.mp rfl
  | hashFalse => exact List.all_eq_true.mp rfl
  | wordTrue => exact List.all_eq_true.mp rfl
  | wordFalse => exact List.all_eq_true.mp rfl
  | identifier valid not_true not_false =>
    simp only [isIdentifier, Bool.and_eq_true, List.all_eq_true] at valid
    exact fun c member => continuesAtom_of_isIdentifierChar (valid.2 c member)

/-- No line ends within an atom. -/
theorem Atom.no_feed (atom : Atom name e) : '\n' ∉ name :=
  fun member => absurd (atom.continues _ member) (by decide)

/-- A line that ends before a line feed ends there whatever follows. -/
theorem LineEnd.cut (ends : LineEnd (start ++ '\n' :: back)) (other : List Char) :
    LineEnd (start ++ '\n' :: other) := by
  generalize whole : start ++ '\n' :: back = text at ends
  cases ends with
  | feed after =>
    cases start with
    | nil => exact .feed other
    | cons c start =>
      obtain rfl := (List.cons.inj whole).1
      exact .feed _
  | carriage after =>
    cases start with
    | nil => exact absurd (List.cons.inj whole).1 (by decide)
    | cons c start =>
      obtain ⟨rfl, feed⟩ := List.cons.inj whole
      cases start with
      | nil => exact .carriage other
      | cons d start =>
        obtain rfl := (List.cons.inj feed).1
        exact .carriage _
  | finish => simp at whole

/-- A line feed that is not within the front of a text comes after it. -/
theorem after_front {front : List Char} (no_feed : '\n' ∉ front)
    (whole : front ++ rest = start ++ '\n' :: back) :
    ∃ left, start = front ++ left ∧ rest = left ++ '\n' :: back := by
  rcases List.append_eq_append_iff.mp whole with ⟨left, rfl, rest_eq⟩ | ⟨cut, rfl, within⟩
  · exact ⟨left, rfl, rest_eq⟩
  · cases cut with
    | nil => exact ⟨[], by simp, by simpa using within.symm⟩
    | cons c cut =>
      obtain rfl := (List.cons.inj within).1
      simp at no_feed

/-- Trivia cut after a line: the line ends after the trivia or within it. -/
theorem Trivia.cut (trivia : Trivia comments text rest) (whole : text = start ++ '\n' :: back) :
    (∃ left, rest = left ++ '\n' :: back ∧
        Trivia comments (start ++ ['\n']) (left ++ ['\n'])) ∨
      Trivia comments (start ++ ['\n']) [] := by
  induction trivia generalizing start with
  | none rest => exact .inl ⟨start, whole, .none _⟩
  | @space c text rest space _ ih =>
    cases start with
    | nil => exact .inr (.space rfl (.none []))
    | cons d start =>
      obtain ⟨rfl, tail⟩ := List.cons.inj whole
      rcases ih tail with ⟨left, rest_eq, before⟩ | ends
      · exact .inl ⟨left, rest_eq, .space space before⟩
      · exact .inr (.space space ends)
  | @comment line text rest enabled plain ends _ ih =>
    have no_feed : '\n' ∉ ';' :: line := by
      rintro (_ | ⟨_, member⟩)
      exact (plain _ member).2 rfl
    obtain ⟨after, rfl, tail⟩ := after_front no_feed whole
    have ends_there : LineEnd (after ++ ['\n']) := LineEnd.cut (tail ▸ ends) []
    rcases ih tail with ⟨left, rest_eq, before⟩ | finishes
    · have comment := Trivia.comment enabled plain ends_there before
      exact .inl ⟨left, rest_eq, by simpa using comment⟩
    · have comment := Trivia.comment enabled plain ends_there finishes
      exact .inr (by simpa using comment)

/-- Whatever may follow an atom may do so with its line alone. -/
theorem Delimited.cut (delimited : Delimited (start ++ '\n' :: back)) :
    Delimited (start ++ ['\n']) :=
  delimited.append fun _ => delimited_feed []

mutual

/-- A datum cut after a line: the line ends after the datum, or the datum breaks off. -/
theorem Datum.cut {level : Nat} {text rest start back : List Char} {e : Expr}
    (whole : text = start ++ '\n' :: back) : Datum comments level text e rest →
      (∃ left, rest = left ++ '\n' :: back ∧
          Datum comments level (start ++ ['\n']) e (left ++ ['\n'])) ∨
        ∃ depth, Begun comments level (start ++ ['\n']) depth
  | @Datum.atom _ _ name rest e room atom delimited => by
    obtain ⟨left, rfl, rest_eq⟩ := after_front atom.no_feed whole
    rw [List.append_assoc]
    exact .inl ⟨left, rest_eq, .atom room atom (Delimited.cut (rest_eq ▸ delimited))⟩
  | @Datum.quote _ _ text first rest e room trivia datum => by
    obtain ⟨after, rfl, tail⟩ := after_front (show '\n' ∉ ['\''] by decide) whole
    rcases trivia.cut tail with ⟨inner, first_eq, before⟩ | ends
    · rcases datum.cut first_eq with ⟨left, rest_eq, datum_there⟩ | ⟨depth, begun⟩
      · exact .inl ⟨left, rest_eq, .quote room before datum_there⟩
      · exact .inr ⟨depth, .quote room (.none _) (begun.after_trivia before)⟩
    · exact .inr ⟨level + 1, .quote room (.none _) (.blank ends)⟩
  | @Datum.list _ _ text rest items room elements => by
    obtain ⟨after, rfl, tail⟩ := after_front (show '\n' ∉ ['('] by decide) whole
    rcases elements.cut tail with
      ⟨left, rest_eq, elements_there⟩ | ⟨items, depth, last, data, begun⟩
    · exact .inl ⟨left, rest_eq, .list room elements_there⟩
    · exact .inr ⟨depth, .list room (.none _) data begun⟩

/-- Elements cut after a line: the line ends after them, or they break off. -/
theorem Elements.cut {level : Nat} {text rest start back : List Char} {items : List Expr}
    (whole : text = start ++ '\n' :: back) : Elements comments level text items rest →
      (∃ left, rest = left ++ '\n' :: back ∧
          Elements comments level (start ++ ['\n']) items (left ++ ['\n'])) ∨
        ∃ items depth, BreaksOff comments level (start ++ ['\n']) items depth
  | @Elements.close _ _ text rest trivia => by
    rcases trivia.cut whole with ⟨closing, rest_eq, before⟩ | ends
    · obtain ⟨left, rfl, tail⟩ := after_front (show '\n' ∉ [')'] by decide) rest_eq
      exact .inl ⟨left, tail, .close before⟩
    · exact .inr ⟨[], level, _, .none _, .blank ends⟩
  | @Elements.element _ _ text first next rest e items trivia datum more => by
    rcases trivia.cut whole with ⟨inner, first_eq, before⟩ | ends
    · rcases datum.cut first_eq with ⟨after, next_eq, datum_there⟩ | ⟨depth, begun⟩
      · rcases more.cut next_eq with
          ⟨left, rest_eq, more_there⟩ | ⟨later, depth, last, data, begun⟩
        · exact .inl ⟨left, rest_eq, .element before datum_there more_there⟩
        · exact .inr ⟨e :: later, depth, last, .datum before datum_there data, begun⟩
      · exact .inr ⟨[], depth, _, .none _, begun.after_trivia before⟩
    · exact .inr ⟨[], level, _, .none _, .blank ends⟩

end

/-- The lines that a sequence of data begins with break off. -/
theorem Sequence.breaksOff_of_feed (sequence : Sequence comments (start ++ '\n' :: back) items) :
    ∃ found depth, BreaksOff comments 0 (start ++ ['\n']) found depth := by
  obtain ⟨rest, data, ends⟩ := sequence
  -- A closing parenthesis on another line makes elements of the sequence.
  obtain ⟨front, whole, alike⟩ := data.exists_front
  have data_there := alike (rest ++ '\n' :: [')']) fun delimited => delimited.append_feed _
  have elements := data_there.elements (.close (ends.append_feed [')']))
  have text_eq : front ++ (rest ++ '\n' :: [')']) = start ++ '\n' :: (back ++ ['\n', ')']) := by
    rw [← List.append_assoc, ← whole]
    simp
  rcases elements.cut text_eq with ⟨left, nothing, -⟩ | breaks
  · simp at nothing
  · exact breaks

end

end Grammar

namespace Repl

/-- Items are expressions if none of them is a failure. -/
theorem expressions_eq_ok_iff {items : List (Except ReadError Expr)} {es : List Expr} :
    expressions items = .ok es ↔ items = es.map .ok := by
  induction items generalizing es with
  | nil => cases es <;> simp [expressions]
  | cons item items ih =>
    cases item with
    | error error => cases es <;> simp [expressions]
    | ok e =>
      rw [expressions]
      cases later : expressions items with
      | error error =>
        constructor
        · rintro ⟨⟩
        · intro same
          cases es with
          | nil => cases same
          | cons other es =>
            have all_read := ih.mpr (List.cons.inj same).2
            rw [later] at all_read
            cases all_read
      | ok rest =>
        obtain rfl := ih.mp later
        constructor
        · intro same
          obtain rfl := Except.ok.inj same
          rfl
        · intro same
          cases es with
          | nil => cases same
          | cons other es =>
            obtain ⟨head, tail⟩ := List.cons.inj same
            obtain rfl := Except.ok.inj head
            rw [List.map_injective_iff.mpr (fun _ _ => Except.ok.inj) tail]

/-- A failure after expressions is the failure of all. -/
theorem expressions_of_failure (es : List Expr) (error : ReadError) :
    expressions (es.map .ok ++ [.error error]) = .error error := by
  induction es with
  | nil => rfl
  | cons e es ih => rw [List.map_cons, List.cons_append, expressions, ih]

/-- The text of lines goes on with the text of more lines. -/
theorem entryText_append (lines more : List String) :
    entryText (lines ++ more) = entryText lines ++ entryText more := by
  rw [entryText, List.map_append, String.join_append]
  rfl

/-- The text of lines ends with a line feed. -/
theorem getLast_entryText {lines : List String} (nonempty : lines ≠ []) :
    (entryText lines).toList.getLast? = some '\n' := by
  obtain ⟨before, last, rfl⟩ := (List.eq_nil_or_concat' lines).resolve_left nonempty
  rw [entryText_append]
  simp [entryText]

/-- An entry runs if its text is read without failure. -/
theorem entry_eq_run_iff {comments : Bool} {lines : List String} {es : List Expr} :
    entry comments lines = .run es ↔
      (ofString comments (entryText lines)).items = es.map .ok := by
  rw [← expressions_eq_ok_iff, entry]
  split
  · next found all_read => rw [all_read, Reaction.run.injEq, Except.ok.injEq]
  · next error failed =>
    rw [failed]
    split <;> simp

/-- An entry that breaks off runs if nothing is open at its end, and waits for more lines if less is
open than the limit for nesting allows. -/
theorem entry_of_breaksOff {comments : Bool} {lines : List String} {found : List Expr} {depth : Nat}
    (breaks : BreaksOff comments 0 (entryText lines).toList found depth) :
    entry comments lines =
      if depth = 0 then .run found
      else if depth < nestingLimit then .collect
      else .refuse ⟨.tooDeep, none⟩ := by
  have items := items_of_breaksOff breaks
  by_cases nothing : depth = 0
  · rw [finish, if_pos nothing, List.append_nil] at items
    rw [if_pos nothing]
    exact entry_eq_run_iff.mpr items
  · rw [finish, if_neg nothing] at items
    rw [entry, items, if_neg nothing]
    by_cases room : depth < nestingLimit
    · rw [if_pos room, expressions_of_failure, if_pos room]
      rfl
    · rw [if_neg room, expressions_of_failure, if_neg room]
      rfl

end Repl

/-- The lines that a readable text begins with break off. -/
theorem breaksOff_of_readable {comments : Bool} {front back : String} {es : List Expr}
    (readable : (ofString comments (front ++ back)).items = es.map .ok)
    (ends : front.toList.getLast? = some '\n') :
    ∃ found depth, BreaksOff comments 0 front.toList found depth ∧ depth ≤ nestingLimit := by
  obtain ⟨start, whole⟩ := List.getLast?_eq_some_iff.mp ends
  have sequence := items_eq_ok_iff.mp readable
  rw [String.toList_append, whole, List.append_assoc] at sequence
  obtain ⟨found, depth, rest, data, begun⟩ := sequence.breaksOff_of_feed
  rw [← whole] at data
  exact ⟨found, depth, ⟨rest, data, begun⟩, begun.depth_le (Nat.zero_le _)⟩

/-- The lines that a readable text begins with are read up to their end. The interactive loop runs
them if nothing is open there, and collects them if less is open than the limit for nesting allows.
If as many lists and quote marks are open as it allows, they are refused. -/
theorem lines_of_readable (comments : Bool) :
    (∀ (front back : String) (es : List Expr),
      (ofString comments (front ++ back)).items = es.map .ok →
        front.toList.getLast? = some '\n' →
          ∃ found depth, BreaksOff comments 0 front.toList found depth ∧ depth ≤ nestingLimit ∧
            (ofString comments front).items = found.map .ok ++ finish depth) ∧
      ∀ (lines more : List String) (es : List Expr),
        Repl.entry comments (lines ++ more) = .run es → lines ≠ [] →
          ∃ found depth, BreaksOff comments 0 (Repl.entryText lines).toList found depth ∧
            depth ≤ nestingLimit ∧ Repl.entry comments lines =
              if depth = 0 then .run found
              else if depth < nestingLimit then .collect
              else .refuse ⟨.tooDeep, none⟩ := by
  constructor
  · intro front back es readable ends
    obtain ⟨found, depth, breaks, bound⟩ := breaksOff_of_readable readable ends
    exact ⟨found, depth, breaks, bound, items_of_breaksOff breaks⟩
  · intro lines more es runs nonempty
    have readable := Repl.entry_eq_run_iff.mp runs
    rw [Repl.entryText_append] at readable
    obtain ⟨found, depth, breaks, bound⟩ :=
      breaksOff_of_readable readable (Repl.getLast_entryText nonempty)
    exact ⟨found, depth, breaks, bound, Repl.entry_of_breaksOff breaks⟩

/-- A line with a list that the next line closes. -/
theorem lines_of_readable_of_list :
    ∃ found depth, BreaksOff true 0 "a (b ; c)\n".toList found depth ∧ depth ≤ nestingLimit ∧
      (ofString true "a (b ; c)\n").items = found.map .ok ++ finish depth := by
  have handed : ((ofString true ("a (b ; c)\n" ++ ")")).calls 3).map Prod.fst =
      [some (.ok (.ident "a")), some (.ok (.list [.ident "b"])), none] := by decide +kernel
  have readable : (ofString true ("a (b ; c)\n" ++ ")")).items =
      [Expr.ident "a", .list [.ident "b"]].map .ok := items_eq_iff.mpr handed
  exact (lines_of_readable true).1 _ _ _ readable (by decide)

namespace Grammar

variable {comments : Bool} {level : Nat}

/-- Opening parentheses that there is room for begin a list. -/
theorem begun_replicate (count : Nat) (room : level + count ≤ nestingLimit) :
    Begun comments level (List.replicate count '(' ++ ['\n']) (level + count) := by
  induction count generalizing level with
  | zero => exact .blank (.space rfl (.none []))
  | succ count ih =>
    have inner := @ih (level + 1) (by omega)
    rw [Nat.add_right_comm, Nat.add_assoc] at inner
    exact .list (by omega) (.none _) (.none _) inner

/-- Opening parentheses that there is room for are a list when as many closing ones follow. -/
theorem datum_replicate (count : Nat) (room : level + count < nestingLimit) (rest : List Char) :
    ∃ e, Datum comments level (List.replicate (count + 1) '(' ++
      '\n' :: (List.replicate (count + 1) ')' ++ rest)) e rest := by
  induction count generalizing level rest with
  | zero => exact ⟨.list [], .list room (.close (.space rfl (.none _)))⟩
  | succ count ih =>
    obtain ⟨e, datum⟩ := @ih (level + 1) (by omega) (')' :: rest)
    refine ⟨.list [e], ?_⟩
    have closes : List.replicate (count + 2) ')' ++ rest =
        List.replicate (count + 1) ')' ++ ')' :: rest := by
      rw [List.replicate_succ', List.append_assoc, List.singleton_append]
    rw [closes]
    exact .list (by omega) (.element (.none _) datum (.close (.none _)))

end Grammar

/-- As many lists as the limit allows may be opened on one line and closed on the next one, but the
first line alone is refused. -/
theorem opened_line_refused :
    (∃ e, (ofString true (String.ofList (List.replicate nestingLimit '(' ++ ['\n']) ++
      String.ofList (List.replicate nestingLimit ')'))).items = [.ok e]) ∧
    (ofString true (String.ofList (List.replicate nestingLimit '(' ++ ['\n']))).items =
      [.error ⟨.tooDeep, none⟩] := by
  constructor
  · obtain ⟨e, datum⟩ := @datum_replicate true 0 (nestingLimit - 1) (by decide) []
    refine ⟨e, items_eq_ok_iff.mpr ⟨[], .datum (.none _) ?_ (.none _), .none _⟩⟩
    rw [List.append_nil] at datum
    rw [String.toList_append, String.toList_ofList, String.toList_ofList, List.append_assoc]
    exact datum
  · have begun := @begun_replicate true 0 nestingLimit (by decide)
    rw [← String.toList_ofList (l := _ ++ _)] at begun
    exact items_of_breaksOff ⟨_, .none _, begun⟩

end TailScheme
