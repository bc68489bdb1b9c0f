import TailScheme.Proofs.Grammar
import Mathlib.Data.List.TakeWhile

/-!
# The reader computes the grammar

A text is read as a tree if and only if the grammar derives it for that tree: `single_eq_ok_iff`.
This is shown part by part. Trivia that the rules allow is skipped, and what is skipped is trivia;
an atom that ends at a delimiter is the one that the reader takes first; and a datum is read by
the same rule that derives it, which is the induction on the room for nesting in one direction and
the induction on the derivation in the other.
-/
namespace TailScheme

open Reader Grammar

namespace Grammar

section

variable {comments : Bool} {text rest : List Char}

/-- Within a comment, characters that end no line are passed over. -/
theorem skipWithin_line {start line : List Char} (plain : ∀ c ∈ line, c ≠ '\r' ∧ c ≠ '\n') :
    skipWithin comments (some start) (line ++ text) = skipWithin comments (some start) text := by
  induction line with
  | nil => rfl
  | cons c line ih =>
    obtain ⟨no_return, no_feed⟩ := plain c List.mem_cons_self
    have later := ih fun d member => plain d (List.mem_cons_of_mem c member)
    rw [List.cons_append, skipWithin]
    simp only [if_neg no_feed, if_neg no_return]
    exact later

/-- At the end of its line a comment is over. -/
theorem skipWithin_lineEnd {start : List Char} (ends : LineEnd text) :
    skipWithin comments (some start) text = skipTrivia comments text := by
  cases ends with
  | feed rest => rfl
  | carriage rest => rfl
  | finish => rfl

/-- Trivia is skipped. -/
theorem skipTrivia_of_trivia (trivia : Trivia comments text rest) :
    skipTrivia comments text = skipTrivia comments rest := by
  induction trivia with
  | none rest => rfl
  | space space more ih =>
    rw [skipTrivia, skipWithin]
    simp only [if_pos space]
    exact ih
  | @comment line text rest enabled plain ends more ih =>
    subst enabled
    calc
      skipTrivia true (';' :: (line ++ text))
        = skipWithin true (some (';' :: (line ++ text))) (line ++ text) := rfl
      _ = skipWithin true (some (';' :: (line ++ text))) text := skipWithin_line plain
      _ = skipTrivia true text := skipWithin_lineEnd ends
      _ = skipTrivia true rest := ih

/-- What is skipped is trivia; and inside a comment, either the comment turns out to be none or it
reaches the end of its line. -/
theorem trivia_skipWithin (comments : Bool) (text : List Char) :
    Trivia comments text (skipTrivia comments text) ∧
      ∀ start, skipWithin comments (some start) text = start ∨
        ∃ line rest, text = line ++ rest ∧ (∀ c ∈ line, c ≠ '\r' ∧ c ≠ '\n') ∧ LineEnd rest ∧
          Trivia comments rest (skipWithin comments (some start) text) := by
  -- Both parts at once: a comment that is none gives back its start, and trivia goes on after one.
  induction text with
  | nil => exact ⟨.none [], fun start => .inr ⟨[], [], rfl, by simp, .finish, .none []⟩⟩
  | cons c rest ih =>
    obtain ⟨outside, inside⟩ := ih
    constructor
    · rw [skipTrivia, skipWithin]
      by_cases space : isSpace c = true
      · rw [if_pos space]
        exact .space space outside
      · rw [if_neg space]
        by_cases begins : (comments && c == ';') = true
        · rw [if_pos begins]
          obtain ⟨enabled, semicolon⟩ := Bool.and_eq_true_iff.mp begins
          obtain rfl := eq_of_beq semicolon
          rcases inside (';' :: rest) with unchanged | ⟨line, after, rfl, plain, ends, more⟩
          · rw [unchanged]
            exact .none _
          · exact .comment enabled plain ends more
        · rw [if_neg begins]
          exact .none _
    · intro start
      rw [skipWithin]
      by_cases feed : c = '\n'
      · subst feed
        rw [if_pos rfl]
        exact .inr ⟨[], '\n' :: rest, rfl, by simp, .feed rest, .space rfl outside⟩
      · rw [if_neg feed]
        by_cases carriage : c = '\r'
        · subst carriage
          rw [if_pos rfl]
          by_cases followed : rest.head? = some '\n'
          · rw [if_pos followed]
            obtain ⟨after, rfl⟩ := List.head?_eq_some_iff.mp followed
            exact .inr ⟨[], '\r' :: '\n' :: after, rfl, by simp, .carriage after,
              .space rfl outside⟩
          · rw [if_neg followed]
            exact .inl rfl
        · rw [if_neg carriage]
          rcases inside start with unchanged | ⟨line, after, rfl, plain, ends, more⟩
          · exact .inl unchanged
          · have plain_line : ∀ d ∈ c :: line, d ≠ '\r' ∧ d ≠ '\n' := by
              intro d member
              rcases List.mem_cons.mp member with rfl | member
              · exact ⟨carriage, feed⟩
              · exact plain d member
            exact .inr ⟨c :: line, after, rfl, plain_line, ends, more⟩

/-- What is skipped is trivia. -/
theorem trivia_skipTrivia (comments : Bool) (text : List Char) :
    Trivia comments text (skipTrivia comments text) := (trivia_skipWithin comments text).1

end

section

variable {name rest text : List Char} {e : Expr}

/-- Nothing that could continue an atom follows, as the reader tests it. -/
theorem delimited_iff : Delimited rest ↔ rest.head?.any continuesAtom = false := by
  cases rest <;> simp [Delimited]

/-- An ASCII digit is an identifier character. -/
theorem isIdentifierChar_of_isDigit {c : Char} (digit : c.isDigit = true) :
    isIdentifierChar c = true := by
  have alphanum : c.isAlphanum = true := by simp [Char.isAlphanum, digit]
  simp [isIdentifierChar, Text.isAlphanumeric_of_isAlphanum alphanum]

/-- An identifier character could continue an atom. -/
theorem continuesAtom_of_isIdentifierChar {c : Char} (part : isIdentifierChar c = true) :
    continuesAtom c = true := by
  simp [continuesAtom, part]

/-- A run of characters that could continue an atom ends at a delimiter. -/
theorem span_of_delimited {p : Char → Bool}
    (continues : ∀ c, p c = true → continuesAtom c = true) (all : ∀ c ∈ name, p c = true)
    (delimited : Delimited rest) :
    (name ++ rest).takeWhile p = name ∧ (name ++ rest).dropWhile p = rest := by
  have stops : rest.takeWhile p = [] ∧ rest.dropWhile p = rest := by
    cases rest with
    | nil => exact ⟨rfl, rfl⟩
    | cons c rest =>
      have ends : p c = false := by
        rw [Bool.eq_false_iff]
        intro goes_on
        have no_end := continues c goes_on
        rw [delimited c rfl] at no_end
        cases no_end
      simp [ends]
  rw [List.takeWhile_append_of_pos all, List.dropWhile_append_of_pos all, stops.1, stops.2]
  exact ⟨List.append_nil name, rfl⟩

/-- A 64-bit integer is found by its value. -/
theorem ofInt?_eq_some_iff {n : Int} {value : Int64} :
    Text.ofInt? n = some value ↔ value.toInt = n := by
  constructor
  · intro found
    unfold Text.ofInt? at found
    split at found
    · next range =>
      have low : Int64.minValue.toInt = -2 ^ 63 := by decide
      have high : Int64.maxValue.toInt = 2 ^ 63 - 1 := by decide
      rw [low, high] at range
      obtain rfl := Option.some.inj found
      exact Int64.toInt_ofInt_of_le range.1 (by omega)
    · cases found
  · rintro rfl
    exact Text.ofInt?_toInt value

/-- A text starts with a minus sign, or it is unsigned. -/
theorem sign_cases (text : List Char) :
    (∃ unsigned, text = '-' :: unsigned ∧ sign text = (true, unsigned)) ∨
      sign text = (false, text) := by
  unfold sign
  split
  · next rest => exact .inl ⟨rest, rfl, rfl⟩
  · exact .inr rfl

/-- An integer that the reader finds is denoted by the digits after the sign. -/
theorem digits_of_integer? {negative : Bool} {unsigned : List Char}
    (signed : sign text = (negative, unsigned)) (found : integer? text = some (e, rest)) :
    ∃ digits value, unsigned = digits ++ rest ∧ e = .int value ∧ digits ≠ [] ∧
      (∀ c ∈ digits, c.isDigit = true) ∧
      value.toInt = if negative then -(Text.ofDigits digits : Int) else Text.ofDigits digits := by
  unfold integer? at found
  simp only [signed] at found
  split at found
  · cases found
  · next taken =>
    split at found
    · cases found
    · next value value_found =>
      obtain ⟨rfl, rfl⟩ := Prod.mk.inj (Option.some.inj found)
      have nonempty : unsigned.takeWhile Char.isDigit ≠ [] := by simpa using taken
      have decimal : ∀ c ∈ unsigned.takeWhile Char.isDigit, c.isDigit = true :=
        fun _ member => List.mem_takeWhile_imp member
      exact ⟨_, value, List.takeWhile_append_dropWhile.symm, rfl, nonempty, decimal,
        ofInt?_eq_some_iff.mp value_found⟩

/-- An integer that the reader finds is an atom. -/
theorem atom_of_integer? (found : integer? text = some (e, rest)) :
    ∃ name, text = name ++ rest ∧ Atom name e := by
  rcases sign_cases text with ⟨unsigned, rfl, signed⟩ | plain
  · obtain ⟨digits, value, rfl, rfl, nonempty, decimal, denotes⟩ := digits_of_integer? signed found
    exact ⟨'-' :: digits, rfl, .negative nonempty decimal denotes⟩
  · obtain ⟨digits, value, rfl, rfl, nonempty, decimal, denotes⟩ := digits_of_integer? plain found
    exact ⟨digits, rfl, .natural nonempty decimal denotes⟩

/-- A boolean that the reader finds by its mark is an atom. -/
theorem atom_of_boolean? (found : boolean? text = some (e, rest)) :
    ∃ name, text = name ++ rest ∧ Atom name e := by
  unfold boolean? at found
  split at found
  · next after =>
    obtain ⟨rfl, rfl⟩ := Prod.mk.inj (Option.some.inj found)
    exact ⟨['#', 't'], rfl, .hashTrue⟩
  · next after =>
    obtain ⟨rfl, rfl⟩ := Prod.mk.inj (Option.some.inj found)
    exact ⟨['#', 'f'], rfl, .hashFalse⟩
  · cases found

/-- What a run of identifier characters denotes is an atom. -/
theorem atom_of_word? (parts : ∀ c ∈ name, isIdentifierChar c = true)
    (found : word? name = some e) : Atom name e := by
  unfold word? at found
  split at found
  · next is_true =>
    obtain rfl := Option.some.inj found
    exact is_true ▸ .wordTrue
  · next not_true =>
    split at found
    · next is_false =>
      obtain rfl := Option.some.inj found
      exact is_false ▸ .wordFalse
    · next not_false =>
      split at found
      · cases found
      · next proper =>
        obtain rfl := Option.some.inj found
        have valid : isIdentifier name = true := by
          simp only [Bool.or_eq_true, not_or, Bool.not_eq_true] at proper
          simpa [isIdentifier, proper] using parts
        exact .identifier valid not_true not_false

/-- A boolean or identifier that the reader finds is an atom. -/
theorem atom_of_named? (found : named? text = some (e, rest)) :
    ∃ name, text = name ++ rest ∧ Atom name e := by
  unfold named? at found
  split at found
  · cases found
  · next e word =>
    obtain ⟨rfl, rfl⟩ := Prod.mk.inj (Option.some.inj found)
    have parts : ∀ c ∈ text.takeWhile isIdentifierChar, isIdentifierChar c = true :=
      fun _ member => List.mem_takeWhile_imp member
    exact ⟨_, List.takeWhile_append_dropWhile.symm, atom_of_word? parts word⟩

/-- What the reader takes for an atom is one. -/
theorem atom_of_atom? (found : atom? text = some (e, rest)) :
    ∃ name, text = name ++ rest ∧ Atom name e := by
  simp only [atom?, Option.orElse_eq_orElse, Option.orElse_eq_or, Option.or_eq_some_iff] at found
  rcases found with integer | ⟨-, boolean | ⟨-, named⟩⟩
  · exact atom_of_integer? integer
  · exact atom_of_boolean? boolean
  · exact atom_of_named? named

/-- Digits are found as the integer they denote. -/
theorem integer?_of_digits {digits : List Char} {value : Int64} {negative : Bool}
    (signed : sign text = (negative, digits ++ rest)) (nonempty : digits ≠ [])
    (decimal : ∀ c ∈ digits, c.isDigit = true)
    (denotes : value.toInt =
      if negative then -(Text.ofDigits digits : Int) else Text.ofDigits digits)
    (delimited : Delimited rest) : integer? text = some (.int value, rest) := by
  have continues : ∀ c : Char, c.isDigit = true → continuesAtom c = true :=
    fun _ digit => continuesAtom_of_isIdentifierChar (isIdentifierChar_of_isDigit digit)
  obtain ⟨taken, left⟩ := span_of_delimited continues decimal delimited
  have found := ofInt?_eq_some_iff.mpr denotes
  unfold integer?
  simp only [signed, taken, left, found, List.isEmpty_iff, if_neg nonempty]

/-- Where no digit comes first or after a minus sign, there is no integer. -/
theorem integer?_of_no_digit (no_digit : ∀ c ∈ (sign text).2.head?, c.isDigit = false) :
    integer? text = none := by
  have none_taken : (sign text).2.takeWhile Char.isDigit = [] := by
    generalize (sign text).2 = unsigned at no_digit
    cases unsigned with
    | nil => rfl
    | cons c rest => simp [no_digit c rfl]
  unfold integer?
  simp [none_taken]

/-- A word is no integer. -/
theorem integer?_of_word (nonempty : name ≠ []) (no_number : startsLikeNumber name = false)
    (delimited : Delimited rest) : integer? (name ++ rest) = none := by
  apply integer?_of_no_digit
  obtain ⟨c, tail, rfl⟩ := List.exists_cons_of_ne_nil nonempty
  have first_no_digit : c.isDigit = false := by
    cases tail with
    | nil => exact no_number
    | cons next tail => exact (Bool.or_eq_false_iff.mp no_number).1
  rcases sign_cases (c :: tail ++ rest) with ⟨unsigned, starts, signed⟩ | plain
  · -- After a minus sign alone comes what follows the word, which is no digit either.
    obtain ⟨rfl, rfl⟩ := List.cons.inj starts
    rw [signed]
    cases tail with
    | nil =>
      intro d first
      by_contra digit
      have continues := continuesAtom_of_isIdentifierChar
        (isIdentifierChar_of_isDigit (Bool.not_eq_false _ ▸ digit))
      rw [delimited d first] at continues
      cases continues
    | cons next tail =>
      rintro d ⟨⟩
      simp only [startsLikeNumber, Bool.or_eq_false_iff] at no_number
      simpa using no_number.2
  · rw [plain]
    rintro d ⟨⟩
    exact first_no_digit

/-- A word is found as what it denotes. -/
theorem atom?_of_word? (no_number : startsLikeNumber name = false)
    (parts : ∀ c ∈ name, isIdentifierChar c = true) (denotes : word? name = some e)
    (delimited : Delimited rest) : atom? (name ++ rest) = some (e, rest) := by
  have nonempty : name ≠ [] := by
    rintro rfl
    cases denotes
  have no_integer := integer?_of_word nonempty no_number delimited
  have no_mark : boolean? (name ++ rest) = none := by
    obtain ⟨c, tail, rfl⟩ := List.exists_cons_of_ne_nil nonempty
    have no_hash : c ≠ '#' := by
      rintro rfl
      exact absurd (parts '#' List.mem_cons_self) (by decide)
    unfold boolean?
    split
    · next starts => exact absurd (List.cons.inj starts).1 no_hash
    · next starts => exact absurd (List.cons.inj starts).1 no_hash
    · rfl
  obtain ⟨taken, left⟩ :=
    span_of_delimited (fun _ => continuesAtom_of_isIdentifierChar) parts delimited
  simp [atom?, no_integer, no_mark, named?, taken, left, denotes]

/-- An atom that ends at a delimiter is the one that the reader takes. -/
theorem atom?_of_atom (atom : Atom name e) (delimited : Delimited rest) :
    atom? (name ++ rest) = some (e, rest) := by
  cases atom with
  | @natural digits value nonempty decimal denotes =>
    have unsigned : sign (name ++ rest) = (false, name ++ rest) := by
      obtain ⟨c, tail, rfl⟩ := List.exists_cons_of_ne_nil nonempty
      rcases sign_cases (c :: tail ++ rest) with ⟨_, starts, _⟩ | plain
      · obtain ⟨rfl, -⟩ := List.cons.inj starts
        exact absurd (decimal '-' List.mem_cons_self) (by decide)
      · exact plain
    have found := integer?_of_digits unsigned nonempty decimal denotes delimited
    simp [atom?, found]
  | @negative digits value nonempty decimal denotes =>
    have signed : sign ('-' :: digits ++ rest) = (true, digits ++ rest) := rfl
    have found := integer?_of_digits signed nonempty decimal denotes delimited
    rw [atom?, found]
    rfl
  | hashTrue => rfl
  | hashFalse => rfl
  | wordTrue =>
    exact atom?_of_word? (by decide) (List.all_eq_true.mp (by decide)) rfl delimited
  | wordFalse =>
    exact atom?_of_word? (by decide) (List.all_eq_true.mp (by decide)) rfl delimited
  | identifier valid not_true not_false =>
    simp only [isIdentifier, Bool.and_eq_true, Bool.not_eq_true', List.all_eq_true] at valid
    obtain ⟨⟨nonempty, no_number⟩, parts⟩ := valid
    have denotes : word? name = some (.ident (String.ofList name)) := by
      simp [word?, not_true, not_false, nonempty, no_number]
    exact atom?_of_word? no_number parts denotes delimited

end

/-- A part of a text is read as this value, up to this rest. -/
def Reads {α : Type} {text : List Char} (result : Except Failure (α × Rest text)) (value : α)
    (rest : List Char) : Prop := ∃ shorter, result = .ok (value, ⟨rest, shorter⟩)

section

variable {comments : Bool} {text first rest : List Char} {e : Expr} {items : List Expr}

/-- An atom is read where the grammar has one that ends at a delimiter. -/
theorem reads_atom_iff :
    Reads (atom text) e rest ↔ ∃ name, text = name ++ rest ∧ Atom name e ∧ Delimited rest := by
  constructor
  · rintro ⟨shorter, read⟩
    unfold atom at read
    split at read
    · cases read
    · next e after found =>
      split at read
      · cases read
      · next delimited =>
        cases read
        obtain ⟨name, whole, atom⟩ := atom_of_atom? found
        exact ⟨name, whole, atom, delimited_iff.mpr (Bool.not_eq_true _ ▸ delimited)⟩
  · rintro ⟨name, rfl, is_atom, delimited⟩
    have found := atom?_of_atom is_atom delimited
    refine ⟨length_lt_of_atom? found, ?_⟩
    unfold atom
    split
    · next missing =>
      rw [found] at missing
      cases missing
    · next e after other =>
      obtain ⟨rfl, rfl⟩ := Prod.mk.inj (Option.some.inj (found.symm.trans other))
      have ends := delimited_iff.mp delimited
      rw [if_neg (Bool.not_eq_true _ ▸ ends)]

/-- The elements of a list are read one after the other, up to the closing parenthesis. -/
theorem reads_elements_iff {item : (text : List Char) → Except Failure (Expr × Rest text)} :
    Reads (elements comments item text) items rest ↔
      (items = [] ∧ skipTrivia comments text = ')' :: rest) ∨
      ((∀ after, skipTrivia comments text ≠ ')' :: after) ∧
        ∃ e more next, items = e :: more ∧ Reads (item (skipTrivia comments text)) e next ∧
          Reads (elements comments item next) more rest) := by
  rw [elements]
  split
  · next after start =>
    constructor
    · rintro ⟨shorter, read⟩
      cases read
      exact .inl ⟨rfl, start⟩
    · rintro (⟨rfl, closes⟩ | ⟨open_still, _⟩)
      · rw [start] at closes
        cases closes
        exact ⟨_, rfl⟩
      · exact absurd start (open_still after)
  · next open_still =>
    constructor
    · rintro ⟨shorter, read⟩
      split at read
      · cases read
      · next e next nearer one_read =>
        dsimp only at read
        split at read
        · cases read
        · next more last nearest more_read =>
          cases read
          exact .inr ⟨open_still, e, more, next, rfl, ⟨nearer, one_read⟩, nearest, more_read⟩
    · rintro (⟨rfl, closes⟩ | ⟨_, e, more, next, rfl, ⟨nearer, one_read⟩, nearest, more_read⟩)
      · exact absurd closes (open_still rest)
      · simp only [one_read, more_read]
        exact ⟨_, rfl⟩

/-- A quote mark is read with trivia and one datum after it. -/
theorem reads_quote_iff {room : Nat} :
    Reads (datum comments (room + 1) ('\'' :: text)) e rest ↔
      ∃ inner, e = .list [.ident "quote", inner] ∧
        Reads (datum comments room (skipTrivia comments text)) inner rest := by
  rw [datum, if_pos rfl]
  constructor
  · rintro ⟨shorter, read⟩
    split at read
    · cases read
    · next inner last nearer inner_read =>
      cases read
      exact ⟨inner, rfl, nearer, inner_read⟩
  · rintro ⟨inner, rfl, nearer, inner_read⟩
    simp only [inner_read]
    exact ⟨_, rfl⟩

/-- An opening parenthesis is read with the elements after it. -/
theorem reads_list_iff {room : Nat} :
    Reads (datum comments (room + 1) ('(' :: text)) e rest ↔
      ∃ items, e = .list items ∧
        Reads (elements comments (datum comments room) text) items rest := by
  rw [datum, if_neg (by decide), if_pos rfl]
  constructor
  · rintro ⟨shorter, read⟩
    split at read
    · cases read
    · next items last nearer elements_read =>
      cases read
      exact ⟨items, rfl, nearer, elements_read⟩
  · rintro ⟨items, rfl, nearer, elements_read⟩
    simp only [elements_read]
    exact ⟨_, rfl⟩

/-- With any other character, an atom is read. -/
theorem datum_eq_atom {room : Nat} {c : Char} (no_quote : c ≠ '\'') (no_list : c ≠ '(') :
    datum comments (room + 1) (c :: text) = atom (c :: text) := by
  rw [datum, if_neg no_quote, if_neg no_list]

/-- The elements that are read are those of the grammar, if each of them is. -/
theorem elements_of_reads {level : Nat}
    {item : (text : List Char) → Except Failure (Expr × Rest text)}
    (sound : ∀ text e rest, Reads (item text) e rest → Datum comments level text e rest)
    (reads : Reads (elements comments item text) items rest) :
    Elements comments level text items rest := by
  induction items generalizing text with
  | nil =>
    rcases reads_elements_iff.mp reads with ⟨-, closes⟩ | ⟨_, _, _, _, same, _⟩
    · exact .close (closes ▸ trivia_skipTrivia comments text)
    · cases same
  | cons e items ih =>
    rcases reads_elements_iff.mp reads with ⟨same, -⟩ | ⟨_, _, _, next, same, first, later⟩
    · cases same
    · cases same
      exact .element (trivia_skipTrivia comments text) (sound _ _ _ first) (ih later)

/-- What is read is a datum of the grammar. -/
theorem datum_of_reads {room : Nat} : ∀ {level : Nat} {text : List Char} {e : Expr}
    {rest : List Char}, room + level = nestingLimit → Reads (datum comments room text) e rest →
      Datum comments level text e rest := by
  -- The room and the level count the same nesting, from the limit and from the outside.
  induction room with
  | zero =>
    rintro level text e rest full ⟨_, read⟩
    rw [datum] at read
    cases read
  | succ room ih =>
    intro level text e rest limit reads
    have room_left : level < nestingLimit := by omega
    have deeper : room + (level + 1) = nestingLimit := by omega
    cases text with
    | nil =>
      rw [datum] at reads
      obtain ⟨name, whole, is_atom, delimited⟩ := reads_atom_iff.mp reads
      rw [whole]
      exact .atom room_left is_atom delimited
    | cons c text =>
      by_cases quote : c = '\''
      · subst quote
        obtain ⟨inner, rfl, inner_reads⟩ := reads_quote_iff.mp reads
        exact .quote room_left (trivia_skipTrivia comments text) (ih deeper inner_reads)
      · by_cases list : c = '('
        · subst list
          obtain ⟨items, rfl, elements_read⟩ := reads_list_iff.mp reads
          exact .list room_left (elements_of_reads (fun _ _ _ => ih deeper) elements_read)
        · rw [datum_eq_atom quote list] at reads
          obtain ⟨name, whole, is_atom, delimited⟩ := reads_atom_iff.mp reads
          rw [whole]
          exact .atom room_left is_atom delimited

/-- A character that could continue an atom is no other token's and no trivia. -/
theorem no_delimiter {c : Char} (continues : continuesAtom c = true) :
    isSpace c = false ∧ c ≠ ';' ∧ c ≠ '\'' ∧ c ≠ '(' ∧ c ≠ ')' := by
  refine ⟨?_, ?_, ?_, ?_, ?_⟩
  · rw [Bool.eq_false_iff]
    intro space
    simp only [isSpace, Bool.or_eq_true, beq_iff_eq] at space
    rcases space with ((rfl | rfl) | rfl) | rfl <;> revert continues <;> decide
  all_goals
    rintro rfl
    revert continues
    decide

/-- An atom starts with a character that could continue one. -/
theorem Atom.exists_cons {name : List Char} (atom : Atom name e) :
    ∃ c tail, name = c :: tail ∧ continuesAtom c = true := by
  cases atom with
  | natural nonempty decimal denotes =>
    obtain ⟨c, tail, rfl⟩ := List.exists_cons_of_ne_nil nonempty
    exact ⟨c, tail, rfl, continuesAtom_of_isIdentifierChar
      (isIdentifierChar_of_isDigit (decimal c List.mem_cons_self))⟩
  | negative nonempty decimal denotes => exact ⟨'-', _, rfl, by decide⟩
  | hashTrue => exact ⟨'#', _, rfl, by decide⟩
  | hashFalse => exact ⟨'#', _, rfl, by decide⟩
  | wordTrue => exact ⟨'t', _, rfl, by decide⟩
  | wordFalse => exact ⟨'f', _, rfl, by decide⟩
  | identifier valid not_true not_false =>
    simp only [isIdentifier, Bool.and_eq_true, Bool.not_eq_true', List.all_eq_true] at valid
    obtain ⟨⟨nonempty, -⟩, parts⟩ := valid
    obtain ⟨c, tail, rfl⟩ := List.exists_cons_of_ne_nil (List.isEmpty_eq_false_iff.mp nonempty)
    exact ⟨c, tail, rfl, continuesAtom_of_isIdentifierChar (parts c List.mem_cons_self)⟩

/-- A datum starts with no trivia and does not close a list. -/
theorem Datum.exists_cons {level : Nat} (datum : Datum comments level text e rest) :
    ∃ c tail, text = c :: tail ∧ isSpace c = false ∧ c ≠ ';' ∧ c ≠ ')' := by
  cases datum with
  | atom room is_atom delimited =>
    obtain ⟨c, tail, rfl, continues⟩ := is_atom.exists_cons
    obtain ⟨no_space, no_comment, -, -, no_close⟩ := no_delimiter continues
    exact ⟨c, _, List.cons_append, no_space, no_comment, no_close⟩
  | quote room trivia inner => exact ⟨'\'', _, rfl, rfl, by decide, by decide⟩
  | list room elements => exact ⟨'(', _, rfl, rfl, by decide, by decide⟩

/-- Where neither a space nor a comment starts, nothing is skipped. -/
theorem skipTrivia_of_start {c : Char} (no_space : isSpace c = false) (no_comment : c ≠ ';') :
    skipTrivia comments (c :: text) = c :: text := by
  simp [skipTrivia, skipWithin, no_space, no_comment]

/-- Nothing is skipped in front of a datum. -/
theorem Datum.skipTrivia_eq {level : Nat} (datum : Datum comments level text e rest) :
    skipTrivia comments text = text := by
  obtain ⟨c, tail, rfl, no_space, no_comment, -⟩ := datum.exists_cons
  exact skipTrivia_of_start no_space no_comment

mutual

/-- A datum of the grammar is read. -/
theorem reads_of_datum {room level : Nat} {text rest : List Char} {e : Expr}
    (limit : room + level = nestingLimit) :
    Datum comments level text e rest → Reads (datum comments room text) e rest
  | @Datum.atom _ _ name _ _ room_left is_atom delimited => by
    obtain ⟨room, rfl⟩ : ∃ less, room = less + 1 := ⟨room - 1, by omega⟩
    have reads := reads_atom_iff.mpr ⟨name, rfl, is_atom, delimited⟩
    obtain ⟨c, tail, rfl, continues⟩ := is_atom.exists_cons
    obtain ⟨-, -, no_quote, no_list, -⟩ := no_delimiter continues
    rw [List.cons_append] at reads ⊢
    rwa [datum_eq_atom no_quote no_list]
  | .quote room_left trivia inner => by
    obtain ⟨room, rfl⟩ : ∃ less, room = less + 1 := ⟨room - 1, by omega⟩
    have deeper : room + (level + 1) = nestingLimit := by omega
    have skipped := (skipTrivia_of_trivia trivia).trans inner.skipTrivia_eq
    exact reads_quote_iff.mpr ⟨_, rfl, skipped ▸ reads_of_datum deeper inner⟩
  | .list room_left elements => by
    obtain ⟨room, rfl⟩ : ∃ less, room = less + 1 := ⟨room - 1, by omega⟩
    have deeper : room + (level + 1) = nestingLimit := by omega
    exact reads_list_iff.mpr ⟨_, rfl, reads_of_elements deeper elements⟩

/-- The elements of the grammar are read. -/
theorem reads_of_elements {room level : Nat} {text rest : List Char} {items : List Expr}
    (limit : room + level = nestingLimit) : Elements comments level text items rest →
      Reads (elements comments (datum comments room) text) items rest
  | .close trivia => by
    have skipped := (skipTrivia_of_trivia trivia).trans (skipTrivia_of_start rfl (by decide))
    exact reads_elements_iff.mpr (.inl ⟨rfl, skipped⟩)
  | .element trivia first more => by
    have skipped := (skipTrivia_of_trivia trivia).trans first.skipTrivia_eq
    have first_reads := reads_of_datum limit first
    have more_read := reads_of_elements limit more
    obtain ⟨c, tail, rfl, -, -, no_close⟩ := first.exists_cons
    have open_still : ∀ after, skipTrivia comments text ≠ ')' :: after := by
      intro after closes
      rw [skipped] at closes
      exact no_close (List.cons.inj closes).1
    exact reads_elements_iff.mpr
      (.inr ⟨open_still, _, _, _, rfl, skipped.symm ▸ first_reads, more_read⟩)

end

end

end Grammar

/-- The next expression that a reader hands out is the datum of the grammar that comes after the
trivia. -/
theorem Reader.next_eq_ok_iff {reader later : Reader} {e : Expr} :
    reader.next = (some (.ok e), later) ↔
      ∃ first last, Trivia reader.comments reader.rest first ∧
        Datum reader.comments 0 first e last ∧ later = { reader with rest := last } := by
  constructor
  · intro found
    have trivia := trivia_skipTrivia reader.comments reader.rest
    unfold Reader.next at found
    split at found
    · cases found
    · next c rest start =>
      rw [start] at trivia
      split at found
      · cases found
      · next e last shorter read =>
        cases found
        exact ⟨_, last, trivia, datum_of_reads (Nat.add_zero nestingLimit) ⟨shorter, read⟩, rfl⟩
  · rintro ⟨first, last, trivia, derived, rfl⟩
    obtain ⟨shorter, read⟩ := reads_of_datum (Nat.add_zero nestingLimit) derived
    have skipped := (skipTrivia_of_trivia trivia).trans derived.skipTrivia_eq
    obtain ⟨c, tail, rfl, -⟩ := derived.exists_cons
    unfold Reader.next
    simp only [skipped, read]

/-- Only trivia is left where skipping it comes to the end. -/
theorem Grammar.trivia_to_end_iff {comments : Bool} {text : List Char} :
    Trivia comments text [] ↔ skipTrivia comments text = [] :=
  ⟨skipTrivia_of_trivia, fun skipped => skipped ▸ trivia_skipTrivia comments text⟩

/-- Whatever is read is derived by the grammar. -/
theorem program_of_single {comments : Bool} {text : String} {e : Expr}
    (read : Reader.single comments text = .ok e) : Grammar.Program comments text.toList e := by
  unfold Reader.single at read
  split at read
  · cases read
  · cases read
  · next found later next =>
    obtain ⟨first, last, trivia, derived, rfl⟩ := Reader.next_eq_ok_iff.mp next
    split at read
    · next ends =>
      obtain rfl := Except.ok.inj read
      exact ⟨first, last, trivia, derived, trivia_to_end_iff.mpr ends⟩
    · cases read

/-- Whatever the grammar derives is read. -/
theorem single_of_program {comments : Bool} {text : String} {e : Expr}
    (program : Grammar.Program comments text.toList e) : Reader.single comments text = .ok e := by
  obtain ⟨first, last, trivia, derived, ends⟩ := program
  have next : (Reader.ofString comments text).next =
      (some (.ok e), { Reader.ofString comments text with rest := last }) :=
    Reader.next_eq_ok_iff.mpr ⟨first, last, trivia, derived, rfl⟩
  unfold Reader.single
  simp only [next, trivia_to_end_iff.mp ends]

/-- A text is read as a tree if and only if the grammar derives it for that tree. -/
theorem single_eq_ok_iff (comments : Bool) (text : String) (e : Expr) :
    Reader.single comments text = .ok e ↔ Grammar.Program comments text.toList e :=
  ⟨program_of_single, single_of_program⟩

end TailScheme
