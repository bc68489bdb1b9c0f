import TailScheme.Proofs.Reading

/-!
# What follows

How a part of a text is read does not depend on what comes after it, but for one character: an
atom has to be followed by a delimiter. So a datum can be cut out of its text and put in front of
another one (`Grammar.Datum.exists_front`), and so can the trivia between two data, as long as the
comment at its end, if there is one, is over.

A text that is read one expression after the other is a sequence of data (`Grammar.Data`).
-/
namespace TailScheme

open Reader

namespace Grammar

variable {comments : Bool} {level : Nat} {text first middle rest : List Char} {e : Expr}
  {items more : List Expr}

/-- A delimiter is a matter of the first character. -/
theorem Delimited.append {front other : List Char} (delimited : Delimited (front ++ rest))
    (follows : Delimited rest → Delimited other) : Delimited (front ++ other) := by
  cases front with
  | nil => exact follows delimited
  | cons c front => exact delimited

/-- Nothing has to follow an atom. -/
theorem delimited_nil : Delimited [] := by
  rintro c ⟨⟩

/-- The front of what may follow an atom may do so. -/
theorem Delimited.of_append {front : List Char} (delimited : Delimited (front ++ rest)) :
    Delimited front := by
  cases front with
  | nil => exact delimited_nil
  | cons c front => exact delimited

/-- A line feed may follow an atom. -/
theorem delimited_feed (rest : List Char) : Delimited ('\n' :: rest) := by
  rintro c ⟨⟩
  decide

/-- What may follow an atom may do so with another line after it. -/
theorem Delimited.append_feed (delimited : Delimited rest) (more : List Char) :
    Delimited (rest ++ '\n' :: more) := by
  cases rest with
  | nil => exact delimited_feed more
  | cons c rest => exact delimited

/-- Trivia after trivia is trivia. -/
theorem Trivia.trans (trivia : Trivia comments text middle) (later : Trivia comments middle rest) :
    Trivia comments text rest := by
  induction trivia with
  | none _ => exact later
  | space space _ ih => exact .space space (ih later)
  | comment enabled plain ends _ ih => exact .comment enabled plain ends (ih later)

/-- Trivia takes up the front of a text. -/
theorem Trivia.exists_front (trivia : Trivia comments text rest) :
    ∃ front, text = front ++ rest := by
  induction trivia with
  | none rest => exact ⟨[], rfl⟩
  | @space c text rest space _ ih =>
    obtain ⟨front, rfl⟩ := ih
    exact ⟨c :: front, rfl⟩
  | @comment line text rest enabled plain ends _ ih =>
    obtain ⟨front, rfl⟩ := ih
    exact ⟨';' :: (line ++ front), by simp⟩

/-- A line that ends before a token ends there whatever follows. -/
theorem LineEnd.append_of_token {front : List Char} {c : Char} (token : isSpace c = false)
    (ends : LineEnd (front ++ c :: rest)) (other : List Char) : LineEnd (front ++ other) := by
  have no_feed : c ≠ '\n' := by
    rintro rfl
    cases token
  have no_return : c ≠ '\r' := by
    rintro rfl
    cases token
  generalize whole : front ++ c :: rest = text at ends
  cases ends with
  | feed after =>
    cases front with
    | nil => exact absurd (List.cons.inj whole).1 no_feed
    | cons d front =>
      obtain rfl := (List.cons.inj whole).1
      exact .feed _
  | carriage after =>
    cases front with
    | nil => exact absurd (List.cons.inj whole).1 no_return
    | cons d front =>
      obtain ⟨rfl, feeds⟩ := List.cons.inj whole
      cases front with
      | nil => exact absurd (List.cons.inj feeds).1 no_feed
      | cons d front =>
        obtain rfl := (List.cons.inj feeds).1
        exact .carriage _
  | finish => simp at whole

/-- Trivia in front of a token is trivia in front of anything else. -/
theorem Trivia.exists_front_of_token {c : Char} (token : isSpace c = false)
    (trivia : Trivia comments text (c :: rest)) :
    ∃ front, text = front ++ c :: rest ∧ ∀ other, Trivia comments (front ++ other) other := by
  generalize start : c :: rest = last at trivia
  induction trivia with
  | none _ => exact ⟨[], rfl, .none⟩
  | @space d text last space _ ih =>
    obtain ⟨front, rfl, before⟩ := ih start
    exact ⟨d :: front, rfl, fun other => .space space (before other)⟩
  | @comment line text last enabled plain ends _ ih =>
    obtain ⟨front, rfl, before⟩ := ih start
    refine ⟨';' :: (line ++ front), by simp, fun other => ?_⟩
    subst start
    have comment := Trivia.comment enabled plain (ends.append_of_token token other) (before other)
    simpa using comment

/-- A line feed ends the comment that trivia may end with. -/
theorem Trivia.append_feed (trivia : Trivia comments text []) (more : List Char) :
    Trivia comments (text ++ '\n' :: more) more := by
  generalize finish : [] = last at trivia
  induction trivia with
  | none _ =>
    subst finish
    exact .space rfl (.none more)
  | space space _ ih => exact .space space (ih finish)
  | @comment line text last enabled plain ends _ ih =>
    have ends_there : LineEnd (text ++ '\n' :: more) := by
      cases ends with
      | feed after => exact .feed _
      | carriage after => exact .carriage _
      | finish => exact .feed _
    have comment := Trivia.comment enabled plain ends_there (ih finish)
    simpa using comment

mutual

/-- A datum takes up the front of a text, and is the same datum in front of anything else that may
follow it. -/
theorem Datum.exists_front {level : Nat} {text rest : List Char} {e : Expr} :
    Datum comments level text e rest →
      ∃ front, front ≠ [] ∧ text = front ++ rest ∧
        ∀ other, (Delimited rest → Delimited other) → Datum comments level (front ++ other) e other
  | @Datum.atom _ _ name rest e room is_atom delimited => by
    obtain ⟨c, tail, rfl, -⟩ := is_atom.exists_cons
    exact ⟨_, List.cons_ne_nil c tail, rfl, fun other follows =>
      .atom room is_atom (follows delimited)⟩
  | @Datum.quote _ _ text first rest e room trivia datum => by
    obtain ⟨c, tail, rfl, token, -⟩ := datum.exists_cons
    obtain ⟨blank, rfl, before⟩ := trivia.exists_front_of_token token
    obtain ⟨front, -, whole, alike⟩ := datum.exists_front
    refine ⟨'\'' :: (blank ++ front), List.cons_ne_nil _ _, by simp [whole], ?_⟩
    intro other follows
    have quote := Datum.quote room (before (front ++ other)) (alike other follows)
    simpa using quote
  | @Datum.list _ _ text rest items room elements => by
    obtain ⟨front, -, whole, alike⟩ := elements.exists_front
    exact ⟨'(' :: front, List.cons_ne_nil _ _, by simp [whole], fun other _ =>
      .list room (alike other)⟩

/-- The elements of a list take up the front of a text, and are the same elements in front of
anything else. -/
theorem Elements.exists_front {level : Nat} {text rest : List Char} {items : List Expr} :
    Elements comments level text items rest →
      ∃ front, front ≠ [] ∧ text = front ++ rest ∧
        ∀ other, Elements comments level (front ++ other) items other
  | @Elements.close _ _ text rest trivia => by
    obtain ⟨blank, rfl, before⟩ := trivia.exists_front_of_token rfl
    refine ⟨blank ++ [')'], by simp, by simp, fun other => ?_⟩
    have close : Elements comments level (blank ++ ')' :: other) [] other :=
      .close (before (')' :: other))
    simpa using close
  | @Elements.element _ _ text first next rest e items trivia datum more => by
    obtain ⟨c, tail, rfl, token, -⟩ := datum.exists_cons
    obtain ⟨blank, rfl, before⟩ := trivia.exists_front_of_token token
    obtain ⟨front, nonempty, whole, alike⟩ := datum.exists_front
    obtain ⟨left, some_left, rfl, later_alike⟩ := more.exists_front
    refine ⟨blank ++ (front ++ left), by simp [nonempty], by simp [whole], fun other => ?_⟩
    -- What follows the first element starts as before, with what the later ones take up.
    have follows : Delimited (left ++ rest) → Delimited (left ++ other) := by
      obtain ⟨d, left, rfl⟩ := List.exists_cons_of_ne_nil some_left
      exact id
    have element := Elements.element (before (front ++ (left ++ other)))
      (alike (left ++ other) follows) (later_alike other)
    simpa using element

end

/-- Data one after the other inside `level` lists and quote marks, with trivia in front of each. -/
inductive Data (comments : Bool) (level : Nat) : List Char → List Expr → List Char → Prop where
  | none (rest : List Char) : Data comments level rest [] rest
  | datum {text first next rest : List Char} {e : Expr} {items : List Expr}
      (trivia : Trivia comments text first) (datum : Datum comments level first e next)
      (more : Data comments level next items rest) : Data comments level text (e :: items) rest

/-- Data after data are data. -/
theorem Data.trans (data : Data comments level text items middle)
    (later : Data comments level middle more rest) :
    Data comments level text (items ++ more) rest := by
  induction data with
  | none _ => exact later
  | datum trivia datum _ ih => exact .datum trivia datum (ih later)

/-- Data take up the front of a text, and are the same data in front of anything else that may
follow the last one. -/
theorem Data.exists_front (data : Data comments level text items rest) :
    ∃ front, text = front ++ rest ∧ ∀ other, (Delimited rest → Delimited other) →
      Data comments level (front ++ other) items other := by
  induction data with
  | none rest => exact ⟨[], rfl, fun other _ => .none other⟩
  | @datum text first next rest e items trivia datum _ ih =>
    obtain ⟨c, tail, rfl, token, -⟩ := datum.exists_cons
    obtain ⟨blank, rfl, before⟩ := trivia.exists_front_of_token token
    obtain ⟨front, -, whole, alike⟩ := datum.exists_front
    obtain ⟨left, rfl, later_alike⟩ := ih
    refine ⟨blank ++ (front ++ left), by simp [whole], fun other follows => ?_⟩
    have datum_there := alike (left ++ other) fun delimited => delimited.append follows
    have data := Data.datum (before (front ++ (left ++ other))) datum_there
      (later_alike other follows)
    simpa using data

/-- Data in front of the elements that close a list are elements too. -/
theorem Data.elements (data : Data comments level text items middle)
    (elements : Elements comments level middle more rest) :
    Elements comments level text (items ++ more) rest := by
  induction data with
  | none _ => exact elements
  | datum trivia datum _ ih => exact .element trivia datum (ih elements)

/-- A text that is a sequence of data, inside nothing, with trivia around them. -/
def Sequence (comments : Bool) (text : List Char) (items : List Expr) : Prop :=
  ∃ rest, Data comments 0 text items rest ∧ Trivia comments rest []

/-- One datum with trivia around it is a sequence. -/
theorem sequence_singleton_iff : Sequence comments text [e] ↔ Program comments text e := by
  constructor
  · rintro ⟨rest, data, ends⟩
    cases data with
    | datum trivia datum more =>
      cases more with
      | none _ => exact ⟨_, _, trivia, datum, ends⟩
  · rintro ⟨first, last, trivia, datum, ends⟩
    exact ⟨last, .datum trivia datum (.none last), ends⟩

/-- Trivia in front of a sequence belongs to it. -/
theorem Sequence.after_trivia (sequence : Sequence comments middle items)
    (trivia : Trivia comments text middle) : Sequence comments text items := by
  obtain ⟨rest, data, ends⟩ := sequence
  cases data with
  | none _ => exact ⟨text, .none text, trivia.trans ends⟩
  | datum blank datum more => exact ⟨rest, .datum (trivia.trans blank) datum more, ends⟩

/-- A sequence on the lines after a sequence continues it. -/
theorem Sequence.after_feed (later : Sequence comments rest more)
    (sequence : Sequence comments text items) :
    Sequence comments (text ++ '\n' :: rest) (items ++ more) := by
  obtain ⟨last, data, ends⟩ := sequence
  obtain ⟨front, rfl, alike⟩ := data.exists_front
  have data_there := alike (last ++ '\n' :: rest) fun delimited => delimited.append_feed rest
  obtain ⟨final, more_data, finishes⟩ := later.after_trivia (ends.append_feed rest)
  rw [List.append_assoc]
  exact ⟨final, data_there.trans more_data, finishes⟩

end Grammar

end TailScheme
