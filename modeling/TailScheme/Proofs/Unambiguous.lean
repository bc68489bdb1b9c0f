import TailScheme.Proofs.Equality
import TailScheme.Proofs.RoundTrip

/-!
# Printed data is unambiguous

Plain data is built from the empty list, booleans, integers, symbols whose names the reader can
produce, and pairs. Its printed form tells where it ends: of two pieces of plain data that stand at
the front of one text, followed by no character that could continue an atom, neither is longer than
the other, and they look alike (`Value.Plain.reading_unique`). So two printed forms are the same
exactly if the data is equal. Nothing is said of the reader, which does not know dotted pairs; but
atoms are told apart as the reader tells them apart.
-/
namespace TailScheme

open Reader Grammar

namespace Value

/-- Booleans, integers, and symbols whose names the reader can produce. -/
inductive Literal : Value → Prop where
  | bool (value : Bool) : Literal (.bool value)
  | int (value : Int64) : Literal (.int value)
  | symbol {comments : Bool} {text name : String}
      (read : Reader.single comments text = .ok (.ident name)) : Literal (.symbol name)

/-- Data without procedures: empty lists, literals, and pairs of data, proper or dotted. -/
inductive Plain : Value → Prop where
  | nil : Plain .nil
  | literal {value : Value} (literal : value.Literal) : Plain value
  | pair {id : Nat} {first second : Value} (first_plain : first.Plain)
      (second_plain : second.Plain) : Plain (.pair id first second)

mutual

/-- The printed form of a value as characters. -/
def chars (nameOf : Nat → Option String) : Value → List Char
  | .pair _ first second => '(' :: (first.chars nameOf ++ second.tailChars nameOf)
  | atom => (atom.atomText nameOf).toList

/-- What follows an element of a list, up to the closing parenthesis, as characters. -/
def tailChars (nameOf : Nat → Option String) : Value → List Char
  | .nil => [')']
  | .pair _ first second => ' ' :: (first.chars nameOf ++ second.tailChars nameOf)
  | atom => ' ' :: '.' :: ' ' :: ((atom.atomText nameOf).toList ++ [')'])

end

/-- The tree that a literal is read as. -/
def tree : Value → Expr
  | .bool value => .bool value
  | .int value => .int value
  | .symbol name => .ident name
  | _ => .list []

section

variable {nameOf : Nat → Option String}

mutual

/-- Printing adds the characters of the value. -/
theorem toList_write : ∀ (value : Value) (out : String),
    (value.write nameOf out).toList = out.toList ++ value.chars nameOf
  | .pair _ first second, out => by
    rw [write, toList_writeTail second, toList_write first, chars]
    simp
  | .nil, _ | .bool _, _ | .int _, _ | .symbol _, _ | .builtin _, _ | .closure _, _ => by
    simp [write, chars]

/-- Printing what follows an element adds its characters. -/
theorem toList_writeTail : ∀ (value : Value) (out : String),
    (value.writeTail nameOf out).toList = out.toList ++ value.tailChars nameOf
  | .nil, out => by simp [writeTail, tailChars]
  | .pair _ first second, out => by
    rw [writeTail, toList_writeTail second, toList_write first, tailChars]
    simp
  | .bool _, _ | .int _, _ | .symbol _, _ | .builtin _, _ | .closure _, _ => by
    simp [writeTail, tailChars]

end

/-- Two values have the same text if and only if they have the same characters. -/
theorem text_eq_iff {names others : Nat → Option String} {value other : Value} :
    value.text names = other.text others ↔ value.chars names = other.chars others := by
  rw [← String.toList_inj, text, text, toList_write, toList_write, String.toList_empty,
    List.nil_append, List.nil_append]

end

section

variable {names others : Nat → Option String} {value other first second : Value}
  {rest last : List Char}

/-- The empty list prints as two parentheses. -/
theorem chars_nil_append : nil.chars names ++ rest = '(' :: ')' :: rest := by
  simp [chars, atomText]

/-- A pair prints its first component and what follows it. -/
theorem chars_pair_append {id : Nat} : (pair id first second).chars names ++ rest =
    '(' :: (first.chars names ++ (second.tailChars names ++ rest)) := by
  simp [chars]

/-- A list is closed at its end. -/
theorem tailChars_nil_append : nil.tailChars names ++ rest = ')' :: rest := by
  simp [tailChars]

/-- A list goes on with a space and the next element. -/
theorem tailChars_pair_append {id : Nat} : (pair id first second).tailChars names ++ rest =
    ' ' :: (first.chars names ++ (second.tailChars names ++ rest)) := by
  simp [tailChars]

/-- A literal behind an element follows a dot and closes the list. -/
theorem Literal.tailChars_append (literal : value.Literal) : value.tailChars names ++ rest =
    ' ' :: '.' :: ' ' :: (value.chars names ++ ')' :: rest) := by
  cases literal <;> simp [chars, tailChars]

/-- A literal prints as an atom of the grammar, which is read as its tree. -/
theorem Literal.atom (literal : value.Literal) (names : Nat → Option String) :
    Atom (value.chars names) value.tree := by
  cases literal with
  | bool value => simpa [chars, atomText, tree] using atom_boolChars value
  | int value => simpa [chars, atomText, tree] using atom_intChars value
  | @symbol _ _ name read =>
    cases readable_of_single read with
    | ident room valid not_true not_false =>
      simpa [chars, atomText, tree] using atom_identifier valid not_true not_false

/-- Literals that are read as the same tree are the same. -/
theorem Literal.eq_of_tree (literal : value.Literal) (also : other.Literal)
    (same : value.tree = other.tree) : value = other := by
  cases literal <;> cases also <;> cases same <;> rfl

/-- Only a literal itself looks like the literal. -/
theorem Literal.eq_of_structural (literal : value.Literal)
    (same : value.structural other = true) : value = other := by
  have identical : value.identical other = true := by cases literal <;> exact same
  have atom : value.isObject = false := by cases literal <;> rfl
  exact eq_of_identical_atom atom identical

/-- Of two literals at the front of one text, neither is longer than the other. -/
theorem Literal.reading_unique (literal : value.Literal) (also : other.Literal)
    (rest_delimited : Delimited rest) (last_delimited : Delimited last)
    (same : value.chars names ++ rest = other.chars others ++ last) :
    value = other ∧ rest = last := by
  have first := atom?_of_atom (literal.atom names) rest_delimited
  have second := atom?_of_atom (also.atom others) last_delimited
  rw [same, second, Option.some.injEq, Prod.mk.injEq] at first
  exact ⟨literal.eq_of_tree also first.1.symm, first.2.symm⟩

/-- A literal does not start with an opening parenthesis. -/
theorem Literal.chars_ne (literal : value.Literal) : value.chars names ++ rest ≠ '(' :: last := by
  obtain ⟨start, tail, starts, continues⟩ := (literal.atom names).exists_cons
  rw [starts]
  rintro ⟨⟩
  exact absurd continues (by decide)

/-- Plain data starts with an opening parenthesis or as an atom does. -/
theorem Plain.chars_ne {c : Char} (plain : value.Plain) (no_list : c ≠ '(')
    (no_atom : continuesAtom c = false) : value.chars names ++ rest ≠ c :: last := by
  cases plain with
  | nil =>
    rw [chars_nil_append]
    rintro ⟨⟩
    exact no_list rfl
  | literal literal =>
    obtain ⟨start, tail, starts, continues⟩ := (literal.atom names).exists_cons
    rw [starts]
    rintro ⟨⟩
    rw [no_atom] at continues
    cases continues
  | pair first_plain second_plain =>
    rw [chars_pair_append]
    rintro ⟨⟩
    exact no_list rfl

/-- Plain data is not mistaken for the end of a list. -/
theorem Plain.chars_ne_close (plain : value.Plain) : value.chars names ++ rest ≠ ')' :: last :=
  plain.chars_ne (by decide) (by decide)

/-- Plain data is not mistaken for the dot in front of a tail. -/
theorem Plain.chars_ne_dot (plain : value.Plain) : value.chars names ++ rest ≠ '.' :: last :=
  plain.chars_ne (by decide) (by decide)

/-- What follows an element of a list starts with no character that could continue an atom. -/
theorem Plain.delimited_tailChars (plain : value.Plain) (rest : List Char) :
    Delimited (value.tailChars names ++ rest) := by
  cases plain with
  | nil =>
    rw [tailChars_nil_append]
    exact delimited_close rest
  | literal literal =>
    rw [literal.tailChars_append]
    exact delimited_space _
  | pair first_plain second_plain =>
    rw [tailChars_pair_append]
    exact delimited_space _

/-- Of two pieces of plain data at the front of one text, neither is longer than the other, and they
look alike. The same is so behind an element of a list. -/
theorem Plain.reading_unique (plain : value.Plain) :
    (∀ {other rest last}, other.Plain → Delimited rest → Delimited last →
      value.chars names ++ rest = other.chars others ++ last →
      value.structural other = true ∧ rest = last) ∧
    ∀ {other rest last}, other.Plain →
      value.tailChars names ++ rest = other.tailChars others ++ last →
      value.structural other = true ∧ rest = last := by
  induction plain with
  | nil =>
    refine ⟨fun also _ _ same => ?_, fun also same => ?_⟩
    · rw [chars_nil_append] at same
      cases also with
      | nil =>
        rw [chars_nil_append] at same
        cases same
        exact ⟨rfl, rfl⟩
      | literal also => exact absurd same.symm also.chars_ne
      | pair first_plain second_plain =>
        rw [chars_pair_append] at same
        exact absurd (List.cons.inj same).2.symm first_plain.chars_ne_close
    · rw [tailChars_nil_append] at same
      cases also with
      | nil =>
        rw [tailChars_nil_append] at same
        cases same
        exact ⟨rfl, rfl⟩
      | literal also =>
        rw [also.tailChars_append] at same
        cases same
      | pair first_plain second_plain =>
        rw [tailChars_pair_append] at same
        cases same
  | literal literal =>
    refine ⟨fun also rest_delimited last_delimited same => ?_, fun also same => ?_⟩
    · cases also with
      | nil =>
        rw [chars_nil_append] at same
        exact absurd same literal.chars_ne
      | literal also =>
        obtain ⟨rfl, rest_eq⟩ := literal.reading_unique also rest_delimited last_delimited same
        exact ⟨structural_refl _, rest_eq⟩
      | pair first_plain second_plain =>
        rw [chars_pair_append] at same
        exact absurd same literal.chars_ne
    · rw [literal.tailChars_append] at same
      cases also with
      | nil =>
        rw [tailChars_nil_append] at same
        cases same
      | literal also =>
        rw [also.tailChars_append] at same
        simp only [List.cons.injEq, true_and] at same
        obtain ⟨rfl, closed⟩ := literal.reading_unique also (delimited_close _)
          (delimited_close _) same
        exact ⟨structural_refl _, (List.cons.inj closed).2⟩
      | pair first_plain second_plain =>
        rw [tailChars_pair_append] at same
        exact absurd (List.cons.inj same).2.symm first_plain.chars_ne_dot
  | @pair id first second first_plain second_plain first_ih second_ih =>
    -- Inside the parenthesis or behind the space, the components are told apart in the same way.
    have components : ∀ {stamp head tail rest last}, head.Plain → tail.Plain →
        first.chars names ++ (second.tailChars names ++ rest) =
          head.chars others ++ (tail.tailChars others ++ last) →
        (Value.pair id first second).structural (.pair stamp head tail) = true ∧ rest = last := by
      intro stamp head tail rest last head_plain tail_plain same
      obtain ⟨first_same, tails_same⟩ := first_ih.1 head_plain
        (second_plain.delimited_tailChars rest) (tail_plain.delimited_tailChars last) same
      obtain ⟨second_same, rest_eq⟩ := second_ih.2 tail_plain tails_same
      exact ⟨by rw [structural, first_same, second_same]; rfl, rest_eq⟩
    refine ⟨fun also _ _ same => ?_, fun also same => ?_⟩
    · rw [chars_pair_append] at same
      cases also with
      | nil =>
        rw [chars_nil_append] at same
        exact absurd (List.cons.inj same).2 first_plain.chars_ne_close
      | literal also => exact absurd same.symm also.chars_ne
      | pair head_plain tail_plain =>
        rw [chars_pair_append] at same
        exact components head_plain tail_plain (List.cons.inj same).2
    · rw [tailChars_pair_append] at same
      cases also with
      | nil =>
        rw [tailChars_nil_append] at same
        cases same
      | literal also =>
        rw [also.tailChars_append] at same
        exact absurd (List.cons.inj same).2 first_plain.chars_ne_dot
      | pair head_plain tail_plain =>
        rw [tailChars_pair_append] at same
        exact components head_plain tail_plain (List.cons.inj same).2

/-- Plain data that looks alike prints alike. -/
theorem Plain.chars_eq_of_structural (plain : value.Plain) :
    ∀ {other}, value.structural other = true →
      value.chars names = other.chars others ∧ value.tailChars names = other.tailChars others := by
  induction plain with
  | nil =>
    intro other same
    cases other with
    | nil => exact ⟨rfl, rfl⟩
    | _ => cases same
  | literal literal =>
    intro other same
    obtain rfl := literal.eq_of_structural same
    cases literal <;> exact ⟨rfl, rfl⟩
  | pair first_plain second_plain first_ih second_ih =>
    intro other same
    cases other with
    | pair stamp head tail =>
      rw [structural, Bool.and_eq_true] at same
      have first_eq := (first_ih same.1).1
      have second_eq := (second_ih same.2).2
      simp only [chars, tailChars, first_eq, second_eq, and_self]
    | _ => cases same

/-- Plain data prints alike if and only if it looks alike. -/
theorem Plain.text_eq_iff (plain : value.Plain) (also : other.Plain) :
    value.text names = other.text others ↔ value.structural other = true := by
  rw [Value.text_eq_iff]
  constructor
  · intro same
    have nothing_follows : Delimited [] := by rintro c ⟨⟩
    exact (plain.reading_unique.1 also nothing_follows nothing_follows
      (congrArg (· ++ []) same)).1
  · exact fun same => (plain.chars_eq_of_structural same).1

end

end Value

/-- Printed data is unambiguous. Two values that are built from empty lists, booleans, integers,
symbols whose names the reader can produce, and pairs print to the same text if and only if they are
`equal?`, whatever closures are called. All that is asked of the pairs is that a stamp never stands
for two different contents, as is so for the values that are held at any stage of a session. -/
theorem printed_data_is_unambiguous :
    (∀ held, Value.Coherent held → ∀ value other, held value → held other →
      value.Plain → other.Plain → ∀ names others : Nat → Option String,
        value.text names = other.text others ↔ value.equal other = true) ∧
    ∀ config stage, Stage.Reached config stage → ∀ value other, stage.Holds value →
      stage.Holds other → value.Plain → other.Plain →
        (stage.heap.text value = stage.heap.text other ↔ value.equal other = true) := by
  have unambiguous : ∀ held, Value.Coherent held → ∀ value other, held value → held other →
      value.Plain → other.Plain → ∀ names others : Nat → Option String,
        value.text names = other.text others ↔ value.equal other = true := by
    intro held coherent value other is_held also_held plain also_plain names others
    rw [coherent.equal_eq is_held also_held]
    exact plain.text_eq_iff also_plain
  refine ⟨unambiguous, fun config stage reached value other is_held also_held plain also => ?_⟩
  exact unambiguous stage.Holds reached.coherent value other is_held also_held plain also _ _

/-- Builds the same dotted list twice and a proper list of the same three elements. -/
def dottedAndProper : Expr :=
  let dotted : Expr := .list [.ident "cons", .quote (.ident "a"),
    .list [.ident "cons", .int 1, .quote (.ident "b")]]
  .list [.ident "list", dotted, dotted, .quote (.list [.ident "a", .int 1, .ident "b"])]

/-- A dotted list that is built twice prints alike both times, because the two lists are equal. A
proper list of the same three elements prints otherwise, and so it is not equal to them. -/
theorem printed_data_is_unambiguous_of_dotted :
    let first : Value := .pair 1 (.symbol "a") (.pair 0 (.int 1) (.symbol "b"))
    let second : Value := .pair 3 (.symbol "a") (.pair 2 (.int 1) (.symbol "b"))
    let proper : Value := .pair 6 (.symbol "a") (.pair 5 (.int 1) (.pair 4 (.symbol "b") .nil))
    ∃ hand heap, Stage.Reached ⟨true, 200⟩ (.idle hand heap) ∧
      .pair 9 first (.pair 8 second (.pair 7 proper .nil)) ∈ hand ∧
      heap.text first = heap.text second ∧ first.equal proper = false := by
  intro first second proper
  have returned : (evalOn ⟨true, 200⟩ 0 dottedAndProper .initial).1 =
      .ok (.pair 9 first (.pair 8 second (.pair 7 proper .nil))) := by decide +kernel
  obtain ⟨hand, came, among⟩ := Stage.leads_evalOn ⟨true, 200⟩ 0 dottedAndProper [] .initial
    (by rw [returned]; rintro ⟨⟩)
  have has := among _ returned
  generalize (evalOn ⟨true, 200⟩ 0 dottedAndProper .initial).2 = heap at came
  have reached : Stage.Reached ⟨true, 200⟩ (.idle (hand ++ []) heap) := came
  have holds : ∀ part, Value.IsPart part (.pair 9 first (.pair 8 second (.pair 7 proper .nil))) →
      (Stage.idle (hand ++ []) heap).Holds part :=
    fun part inside => ⟨_, .hand (List.mem_append_left _ has), inside⟩
  have a_read : Reader.single true "a" = .ok (.ident "a") := by decide +kernel
  have b_read : Reader.single true "b" = .ok (.ident "b") := by decide +kernel
  have a_plain : (Value.symbol "a").Plain := .literal (.symbol a_read)
  have b_plain : (Value.symbol "b").Plain := .literal (.symbol b_read)
  have one_plain : (Value.int 1).Plain := .literal (.int 1)
  have first_plain : first.Plain := .pair a_plain (.pair one_plain b_plain)
  have second_plain : second.Plain := .pair a_plain (.pair one_plain b_plain)
  have proper_plain : proper.Plain := .pair a_plain (.pair one_plain (.pair b_plain .nil))
  have first_held := holds first ⟨[.first], rfl⟩
  have second_held := holds second ⟨[.second, .first], rfl⟩
  have proper_held := holds proper ⟨[.second, .second, .first], rfl⟩
  have same_text := (printed_data_is_unambiguous.2 _ _ reached first second first_held second_held
    first_plain second_plain).mpr (by decide)
  have different := (printed_data_is_unambiguous.1 _ reached.coherent first proper first_held
    proper_held first_plain proper_plain (fun _ => none) (fun _ => none)).not
  have other_text : first.text (fun _ => none) ≠ proper.text (fun _ => none) := by decide
  exact ⟨hand ++ [], heap, reached, List.mem_append_left _ has, same_text,
    Bool.eq_false_iff.mpr (different.mp other_text)⟩

end TailScheme
