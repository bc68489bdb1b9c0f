import TailScheme.Proofs.Reading
import TailScheme.Expr.Printer

/-!
# Printing and reading

What is read prints as a text that is read as the same tree. The trees that a text can stand for
are described without texts (`Expr.Readable`): atoms and lists, nested less than the reader's
limit allows. Such a tree is derived by the grammar from its own printed form, whatever delimiter
follows; and every tree that the grammar derives is such a tree, because a quote mark counts for
the nesting as much as the list it stands for.
-/
namespace TailScheme

open Reader Grammar

namespace Expr

/-- The trees that a text can stand for inside `level` lists. Identifiers are valid ones, other than
the two that are booleans. -/
inductive Readable : Expr → (level : Nat) → Prop where
  | bool {level : Nat} (value : Bool) (room : level < nestingLimit) : Readable (.bool value) level
  | int {level : Nat} (value : Int64) (room : level < nestingLimit) : Readable (.int value) level
  | ident {level : Nat} {name : String} (room : level < nestingLimit)
      (valid : isIdentifier name.toList = true) (not_true : name ≠ "true")
      (not_false : name ≠ "false") : Readable (.ident name) level
  | list {level : Nat} {items : List Expr} (room : level < nestingLimit)
      (each : ∀ item ∈ items, item.Readable (level + 1)) : Readable (.list items) level

end Expr

section

variable {comments : Bool} {level : Nat} {text rest : List Char} {e : Expr} {items : List Expr}

/-- A boolean prints as an atom. -/
theorem atom_boolChars (value : Bool) : Atom (boolChars value) (.bool value) := by
  cases value with
  | false => exact .wordFalse
  | true => exact .wordTrue

/-- An integer prints as an atom. -/
theorem atom_intChars (value : Int64) : Atom (Text.intChars value) (.int value) := by
  have decimal : ∀ size : Nat, ∀ c ∈ Nat.toDigits 10 size, c.isDigit = true :=
    fun _ _ member => Nat.isDigit_of_mem_toDigits (by decide) (by decide) member
  unfold Text.intChars
  split
  · next size value_eq =>
    refine .natural Nat.toDigits_ne_nil (decimal size) ?_
    rw [value_eq, Text.ofDigits_toDigits]
    rfl
  · next size value_eq =>
    refine .negative Nat.toDigits_ne_nil (decimal (size + 1)) ?_
    rw [value_eq, Text.ofDigits_toDigits]
    rfl

/-- A valid identifier other than the two booleans prints as an atom. -/
theorem atom_identifier {name : String} (valid : isIdentifier name.toList = true)
    (not_true : name ≠ "true") (not_false : name ≠ "false") :
    Atom name.toList (.ident name) := by
  have atom : Atom name.toList (.ident (String.ofList name.toList)) := by
    refine .identifier valid ?_ ?_
    · exact fun same => not_true (String.toList_inj.mp same)
    · exact fun same => not_false (String.toList_inj.mp same)
  rwa [String.ofList_toList] at atom

/-- No space could continue an atom. -/
theorem delimited_space (rest : List Char) : Delimited (' ' :: rest) := by
  rintro c ⟨⟩
  decide

/-- No closing parenthesis could continue an atom. -/
theorem delimited_close (rest : List Char) : Delimited (')' :: rest) := by
  rintro c ⟨⟩
  decide

/-- Trees that are derived from their printed forms are derived as the elements of a list from
theirs. -/
theorem elements_allChars
    (each : ∀ item ∈ items, ∀ rest, Delimited rest →
      Datum comments level (item.chars ++ rest) item rest) :
    Elements comments level (Expr.allChars items ++ ')' :: rest) items rest := by
  induction items with
  | nil => exact .close (.none _)
  | cons item items ih =>
    have later := ih fun other member => each other (List.mem_cons_of_mem item member)
    have first := each item List.mem_cons_self
    cases items with
    | nil => exact .element (.none _) (first _ (delimited_close rest)) (.close (.none _))
    | cons next items =>
      -- The space that is printed between two elements is trivia in front of the second one.
      rw [Expr.allChars_cons_cons, List.append_assoc, List.cons_append]
      exact .element (.none _) (first _ (delimited_space _)) (later.space rfl)

/-- A readable tree is derived from its printed form. -/
theorem datum_chars (readable : e.Readable level) :
    ∀ rest, Delimited rest → Datum comments level (e.chars ++ rest) e rest := by
  induction readable with
  | bool value room =>
    intro rest delimited
    rw [Expr.chars_bool]
    exact .atom room (atom_boolChars value) delimited
  | int value room =>
    intro rest delimited
    rw [Expr.chars_int]
    exact .atom room (atom_intChars value) delimited
  | ident room valid not_true not_false =>
    intro rest delimited
    rw [Expr.chars_ident]
    exact .atom room (atom_identifier valid not_true not_false) delimited
  | list room each ih =>
    intro rest delimited
    rw [Expr.chars_list, List.cons_append, List.append_assoc, List.singleton_append]
    exact .list room (elements_allChars ih)

/-- An atom of the grammar is readable. -/
theorem readable_of_atom {name : List Char} (atom : Atom name e) (room : level < nestingLimit) :
    e.Readable level := by
  cases atom with
  | natural nonempty decimal denotes => exact .int _ room
  | negative nonempty decimal denotes => exact .int _ room
  | hashTrue => exact .bool true room
  | hashFalse => exact .bool false room
  | wordTrue => exact .bool true room
  | wordFalse => exact .bool false room
  | identifier valid not_true not_false =>
    refine .ident room ?_ ?_ ?_
    · rwa [String.toList_ofList]
    · rintro same
      exact not_true (by simpa using congrArg String.toList same)
    · rintro same
      exact not_false (by simpa using congrArg String.toList same)

/-- A datum of the grammar may stand where it is. -/
theorem Grammar.Datum.room (datum : Datum comments level text e rest) : level < nestingLimit := by
  cases datum <;> assumption

mutual

/-- A datum of the grammar is readable. -/
theorem readable_of_datum {level : Nat} {text rest : List Char} {e : Expr} :
    Datum comments level text e rest → e.Readable level
  | .atom room is_atom _ => readable_of_atom is_atom room
  | .quote room _ inner => by
    have deeper := inner.room
    have head : (Expr.ident "quote").Readable (level + 1) :=
      .ident deeper (by decide) (by decide) (by decide)
    have tail := readable_of_datum inner
    exact .list room (List.forall_mem_cons.mpr ⟨head, List.forall_mem_singleton.mpr tail⟩)
  | .list room elements => .list room (readable_of_elements elements)

/-- The elements of the grammar are readable. -/
theorem readable_of_elements {level : Nat} {text rest : List Char} {items : List Expr} :
    Elements comments level text items rest → ∀ item ∈ items, item.Readable level
  | .close _ => List.forall_mem_nil _
  | .element _ first more =>
    List.forall_mem_cons.mpr ⟨readable_of_datum first, readable_of_elements more⟩

end

end

/-- A readable tree is read back from its printed form. -/
theorem single_text_of_readable {e : Expr} (readable : e.Readable 0) (comments : Bool) :
    Reader.single comments e.text = .ok e := by
  have nothing_follows : Delimited [] := by
    rintro c ⟨⟩
  have derived : Datum comments 0 (e.chars ++ []) e [] := datum_chars readable [] nothing_follows
  rw [List.append_nil] at derived
  have program : Grammar.Program comments e.text.toList e := by
    rw [Expr.text, String.toList_ofList]
    exact ⟨e.chars, [], .none _, derived, .none _⟩
  exact single_of_program program

/-- Whatever is read is readable. -/
theorem readable_of_single {comments : Bool} {text : String} {e : Expr}
    (read : Reader.single comments text = .ok e) : e.Readable 0 := by
  obtain ⟨first, last, _, derived, _⟩ := program_of_single read
  exact readable_of_datum derived

/-- Printing and then reading changes nothing. What is read from a text, with comments or without
them, is read back from its printed form, with comments or without them; and so is every tree that
has only booleans, integers, valid identifiers other than `true` and `false`, and lists, with less
than 64 lists around any of them. -/
theorem read_back_from_text :
    (∀ comments text e, Reader.single comments text = .ok e →
      ∀ other, Reader.single other e.text = .ok e) ∧
    ∀ e : Expr, e.Readable 0 → ∀ comments, Reader.single comments e.text = .ok e :=
  ⟨fun _ _ _ read => single_text_of_readable (readable_of_single read),
    fun _ readable => single_text_of_readable readable⟩

/-- A quote mark, a comment and a negative number are read back from the printed form without
comments, and so is a list with a name of another script. -/
theorem read_back_from_text_of_quote :
    (Reader.single true "'(f ;\n -7)" =
        .ok (.list [.ident "quote", .list [.ident "f", .int (-7)]]) ∧
      Reader.single false "(quote (f -7))" =
        .ok (.list [.ident "quote", .list [.ident "f", .int (-7)]])) ∧
    ((Expr.list [.ident "λ", .bool true]).Readable 0 ∧
      Reader.single true "(λ true)" = .ok (.list [.ident "λ", .bool true])) := by
  have read : Reader.single true "'(f ;\n -7)" =
      .ok (.list [.ident "quote", .list [.ident "f", .int (-7)]]) := by decide +kernel
  have readable : (Expr.list [.ident "λ", .bool true]).Readable 0 := by
    refine .list (by decide) (List.forall_mem_cons.mpr ⟨?_, List.forall_mem_singleton.mpr ?_⟩)
    · exact .ident (by decide) (by decide +kernel) (by decide) (by decide)
    · exact .bool true (by decide)
  exact ⟨⟨read, read_back_from_text.1 _ _ _ read false⟩,
    readable, read_back_from_text.2 _ readable true⟩

end TailScheme
