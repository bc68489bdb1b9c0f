import TailScheme.Proofs.ExpandedCode
import TailScheme.Proofs.ExpansionText
import TailScheme.Proofs.Successive

/-!
# Errors on one line

Every error that a program text can come to is reported on one line. Error messages quote the text,
names, and whole printed values, so the line ends that a text contains could find their way into
them. They do not. A snippet of the text has none (`Text.oneLine_snippet`), and the names of a
program are identifiers. So the printed form of what is read is a single line, and to be one is a
regime (`Regime.closed_oneLine`): it lasts through expansion and evaluation, for the symbols and the
code in values and for the names that closures are given.
-/
namespace TailScheme

namespace Text

/-- A text without line ends: it has neither line feeds nor carriage returns. -/
def OneLine (text : List Char) : Prop := ∀ c ∈ text, c ≠ '\n' ∧ c ≠ '\r'

section

variable {c : Char} {text more : List Char}

@[simp] theorem oneLine_nil : OneLine [] := List.forall_mem_nil _

@[simp] theorem oneLine_cons : OneLine (c :: text) ↔ (c ≠ '\n' ∧ c ≠ '\r') ∧ OneLine text :=
  List.forall_mem_cons

@[simp] theorem oneLine_append : OneLine (text ++ more) ↔ OneLine text ∧ OneLine more :=
  List.forall_mem_append

/-- Characters of a kind that line ends do not belong to make no line end. -/
theorem oneLine_of_forall {kind : Char → Bool} (line_feed : kind '\n' = false)
    (carriage_return : kind '\r' = false) (each : ∀ c ∈ text, kind c = true) : OneLine text := by
  intro c among
  have of_kind := each c among
  constructor
  · rintro rfl
    simp [line_feed] at of_kind
  · rintro rfl
    simp [carriage_return] at of_kind

end

/-- A number in decimal has no line end. -/
@[simp] theorem oneLine_toDigits (n : Nat) : OneLine (Nat.toDigits 10 n) :=
  oneLine_of_forall (by decide) (by decide) fun _ among =>
    Nat.isDigit_of_mem_toDigits (by decide) (by decide) among

/-- An integer in decimal has no line end. -/
@[simp] theorem oneLine_intChars (n : Int64) : OneLine (intChars n) := by
  unfold intChars
  split
  · exact oneLine_toDigits _
  · exact oneLine_cons.mpr ⟨by decide, oneLine_toDigits _⟩

/-- A snippet shows every character without a line end. -/
theorem oneLine_shown (c : Char) : OneLine (shown c) := by
  unfold shown
  by_cases feed : c = '\n'
  · simp [feed]
  · by_cases carriage : c = '\r'
    · simp [carriage]
    · simp [feed, carriage]

/-- A snippet is on one line, whatever it is taken from. -/
theorem oneLine_snippet {text : List Char} {line : String} (found : snippet text = some line) :
    OneLine line.toList := by
  have all : OneLine ((text.take snippetWidth).flatMap shown) := by
    intro c among
    obtain ⟨origin, _, shown_there⟩ := List.mem_flatMap.mp among
    exact oneLine_shown origin c shown_there
  unfold snippet at found
  split at found
  · cases found
  · cases found
    rwa [String.toList_ofList]

end Text

open Text (OneLine)

/-- A boolean prints on one line. -/
@[simp] theorem oneLine_boolChars (value : Bool) : OneLine (boolChars value) := by
  cases value <;> simp [boolChars]

/-- An identifier has no line end. -/
theorem oneLine_of_isIdentifier {name : List Char} (valid : isIdentifier name = true) :
    OneLine name := by
  simp only [isIdentifier, Bool.and_eq_true, List.all_eq_true] at valid
  exact Text.oneLine_of_forall (by decide) (by decide) valid.2

/-- The name of a builtin has no line end. -/
@[simp] theorem Builtin.oneLine_name (builtin : Builtin) : OneLine builtin.name.toList := by
  cases builtin <;> simp [name]

/-- The name of a kind of value has no line end. -/
@[simp] theorem Kind.oneLine_name (kind : Kind) : OneLine kind.name.toList := by
  cases kind <;> simp [name]

/-- The name of a keyword has no line end. -/
@[simp] theorem Keyword.oneLine_name (keyword : Keyword) : OneLine keyword.name.toList := by
  cases keyword <;> simp [name]

/-- The usage of a keyword is shown on one line. -/
@[simp] theorem Keyword.oneLine_usage (keyword : Keyword) : OneLine keyword.usage.toList := by
  cases keyword <;> simp [usage]

/-- An arity in words has no line end. -/
@[simp] theorem Arity.oneLine_text (arity : Arity) : OneLine arity.text.toList := by
  cases arity <;> simp [text]

namespace Expr

/-- The tree prints on one line. -/
def OneLine (e : Expr) : Prop := Text.OneLine e.chars

section

variable {items : List Expr} {branches : List Branch} {inner e : Expr}

/-- Trees print on one line together if and only if each of them does. -/
theorem oneLine_allChars_iff : Text.OneLine (allChars items) ↔ ∀ item ∈ items, item.OneLine := by
  induction items with
  | nil => simp
  | cons item items ih =>
    cases items with
    | nil => simp [OneLine]
    | cons next rest =>
      rw [allChars_cons_cons, List.forall_mem_cons, ← ih]
      simp [OneLine]

/-- The tests and bodies of branches that print on one line do so as well. -/
theorem oneLine_of_branchesChars (one_line : Text.OneLine (branchesChars branches)) :
    (∀ branch ∈ branches, ∀ guard, branch.guard? = some guard → guard.OneLine) ∧
      ∀ branch ∈ branches, ∀ item ∈ branch.body, item.OneLine := by
  induction branches with
  | nil => simp
  | cons branch branches ih =>
    rw [List.forall_mem_cons, List.forall_mem_cons]
    cases branch with
    | test guard body =>
      simp only [branchesChars_test, Text.oneLine_cons, Text.oneLine_append] at one_line
      obtain ⟨-, -, guard_line, -, body_line, -, later⟩ := one_line
      obtain ⟨tests, bodies⟩ := ih later
      exact ⟨⟨fun _ same => Option.some.inj same ▸ guard_line, tests⟩,
        oneLine_allChars_iff.mp body_line, bodies⟩
    | otherwise body =>
      simp only [branchesChars_otherwise, Text.oneLine_cons, Text.oneLine_append] at one_line
      obtain ⟨⟨-, body_line⟩, -, later⟩ := one_line
      obtain ⟨tests, bodies⟩ := ih later
      exact ⟨⟨(by rintro _ ⟨⟩), tests⟩, oneLine_allChars_iff.mp body_line, bodies⟩

/-- The items of a list that prints on one line do so as well. -/
theorem OneLine.forall_mem (one_line : (list items).OneLine) : ∀ item ∈ items, item.OneLine := by
  simp only [OneLine, chars_list, Text.oneLine_cons, Text.oneLine_append] at one_line
  exact oneLine_allChars_iff.mp one_line.2.1

/-- The name and the value of a definition on one line are on one line. -/
theorem OneLine.define_parts {name : String} (one_line : (define name e).OneLine) :
    Text.OneLine name.toList ∧ e.OneLine := by
  simp only [OneLine, chars_define, Text.oneLine_cons, Text.oneLine_append] at one_line
  exact ⟨one_line.1.2, one_line.2.2.1⟩

/-- The name and the value of an assignment on one line are on one line. -/
theorem OneLine.set_parts {name : String} (one_line : (set name e).OneLine) :
    Text.OneLine name.toList ∧ e.OneLine := by
  simp only [OneLine, chars_set, Text.oneLine_cons, Text.oneLine_append] at one_line
  exact ⟨one_line.1.2, one_line.2.2.1⟩

/-- Data that is quoted on one line is on one line. -/
theorem OneLine.of_quote (one_line : (quote e).OneLine) : e.OneLine := by
  simp only [OneLine, chars_quote, Text.oneLine_append] at one_line
  exact one_line.1.2

/-- The parts of a tree that prints on one line do so as well. -/
theorem IsPart.oneLine (is_part : IsPart inner e) (one_line : e.OneLine) : inner.OneLine := by
  cases is_part with
  | item among => exact one_line.forall_mem _ among
  | clause clause among => exact (one_line.forall_mem _ clause).forall_mem _ among
  | define => exact one_line.define_parts.2
  | set => exact one_line.set_parts.2
  | lambda among =>
    simp only [OneLine, chars_lambda, Text.oneLine_cons, Text.oneLine_append] at one_line
    exact oneLine_allChars_iff.mp one_line.2.2.2.1 _ among
  | guard among tested =>
    simp only [OneLine, chars_cond, Text.oneLine_append] at one_line
    exact (oneLine_of_branchesChars one_line.1.2).1 _ among _ tested
  | branch among inside =>
    simp only [OneLine, chars_cond, Text.oneLine_append] at one_line
    exact (oneLine_of_branchesChars one_line.1.2).2 _ among _ inside

/-- What is read prints on one line: its names are identifiers. -/
theorem Readable.oneLine {level : Nat} (readable : e.Readable level) : e.OneLine := by
  induction readable with
  | bool value => exact oneLine_boolChars value
  | int value => exact Text.oneLine_intChars value
  | ident room valid => exact oneLine_of_isIdentifier valid
  | list room each ih =>
    simp only [OneLine, chars_list, Text.oneLine_cons, Text.oneLine_append]
    exact ⟨by decide, oneLine_allChars_iff.mpr ih, by simp⟩

end

end Expr

namespace Value

/-- The symbols in a value have names without line ends, and the code of its closures prints on one
line. -/
def OneLine : Value → Prop
  | .symbol name => Text.OneLine name.toList
  | .pair _ first second => first.OneLine ∧ second.OneLine
  | .closure procedure => (Expr.lambda procedure.params procedure.body).OneLine
  | _ => True

/-- Only symbols and closures bring texts of their own. -/
theorem composite_oneLine : Composite OneLine where
  nil := trivial
  bool _ := trivial
  int _ := trivial
  builtin _ := trivial
  pair_iff _ _ _ := Iff.rfl

section

variable {nameOf : Nat → Option String}

/-- A value that is no pair prints on one line. -/
theorem oneLine_atomText (named : ∀ id, ∀ name ∈ nameOf id, Text.OneLine name.toList)
    {value : Value} (is_good : value.OneLine) : Text.OneLine (value.atomText nameOf).toList := by
  cases value with
  | closure procedure =>
    simp only [atomText]
    rcases given : nameOf procedure.id with _ | name
    · simp [procedureText]
    · simp [procedureText, named _ name given]
  | symbol name => exact is_good
  | _ => simp [atomText, procedureText]

mutual

/-- A value adds no line end to a text. -/
theorem oneLine_write (named : ∀ id, ∀ name ∈ nameOf id, Text.OneLine name.toList) :
    ∀ (value : Value) (out : String), value.OneLine → Text.OneLine out.toList →
      Text.OneLine (write nameOf out value).toList
  | .pair _ first second, out, is_good, before => by
    have opened : Text.OneLine (out.push '(').toList := by simp [before]
    have first_line := oneLine_write named first _ is_good.1 opened
    exact oneLine_writeTail named second _ is_good.2 first_line
  | .nil, out, is_good, before | .bool _, out, is_good, before | .int _, out, is_good, before
  | .symbol _, out, is_good, before | .builtin _, out, is_good, before
  | .closure _, out, is_good, before => by
    have atom_line := oneLine_atomText named is_good
    simp [write, before, atom_line]

/-- What follows an element of a list adds no line end to a text. -/
theorem oneLine_writeTail (named : ∀ id, ∀ name ∈ nameOf id, Text.OneLine name.toList) :
    ∀ (value : Value) (out : String), value.OneLine → Text.OneLine out.toList →
      Text.OneLine (writeTail nameOf out value).toList
  | .nil, out, is_good, before => by simp [writeTail, before]
  | .pair _ first second, out, is_good, before => by
    have spaced : Text.OneLine (out.push ' ').toList := by simp [before]
    have first_line := oneLine_write named first _ is_good.1 spaced
    exact oneLine_writeTail named second _ is_good.2 first_line
  | .bool _, out, is_good, before | .int _, out, is_good, before
  | .symbol _, out, is_good, before | .builtin _, out, is_good, before
  | .closure _, out, is_good, before => by
    have atom_line := oneLine_atomText named is_good
    simp [writeTail, before, atom_line]

end

/-- A value prints on one line. -/
theorem oneLine_text (named : ∀ id, ∀ name ∈ nameOf id, Text.OneLine name.toList) {value : Value}
    (is_good : value.OneLine) : Text.OneLine (value.text nameOf).toList :=
  oneLine_write named value "" is_good Text.oneLine_nil

end

end Value

/-- The snippet of a failure to read is on one line. -/
def ReadError.OneLine (error : ReadError) : Prop :=
  ∀ shown ∈ error.snippet, Text.OneLine shown.toList

/-- The texts that an error carries are on one line. -/
def Error.OneLine : Error → Prop
  | .read error => error.OneLine
  | .unbound text | .arityMismatch text _ _ | .notProcedure text | .conditionNotBoolean text
  | .unquotable text => Text.OneLine text.toList
  | _ => True

/-- A failure to read is reported on one line if its snippet is on one line. -/
theorem ReadError.oneLine_message {error : ReadError} (one_line : error.OneLine) :
    Text.OneLine error.message.toList := by
  have cause : Text.OneLine error.cause.message.toList := by
    unfold ReadCause.message
    split <;> simp
  unfold ReadError.message withSnippet
  split
  · exact cause
  · next shown found => simp [cause, one_line shown found]

/-- An error is reported on one line if the texts that it carries are on one line. -/
theorem Error.oneLine_message {error : Error} (one_line : error.OneLine) :
    Text.OneLine error.message.toList := by
  unfold Error.message
  split
  · next error =>
    have inner := ReadError.oneLine_message one_line
    simp [readMessage, inner]
  all_goals simp_all [Error.OneLine]

/-- Code prints on one line, and so do values, the names of closures, and errors. -/
def Regime.oneLine : Regime where
  code := Expr.OneLine
  value := Value.OneLine
  name name := OneLine name.toList
  failure := Error.OneLine

/-- Data that prints on one line stands for values that do. -/
theorem Expr.quotable_oneLine : Quotable OneLine Error.OneLine Value.OneLine where
  composite := Value.composite_oneLine
  symbol _ one_line := one_line
  items _ one_line := one_line.forall_mem
  quote _ one_line := by
    have quote_line : Text.OneLine "quote".toList := by simp
    exact ⟨quote_line, one_line.of_quote⟩
  form e one_line _ := by
    change Text.OneLine e.text.toList
    rw [text, String.toList_ofList]
    exact one_line

/-- Evaluation brings no line end into values, names and errors. -/
theorem Regime.closed_oneLine : Regime.oneLine.Closed where
  part _ _ := Expr.IsPart.oneLine
  define_name _ _ one_line := (Expr.OneLine.define_parts one_line).1
  set_name _ _ one_line := (Expr.OneLine.set_parts one_line).1
  composite := Value.composite_oneLine
  closure_iff _ := Iff.rfl
  quoted datum one_line :=
    Expr.quotable_oneLine.yields_quoted datum (Expr.OneLine.of_quote one_line)
  misuse error misuse := by
    cases misuse with
    | count procedure expected got => exact procedure.oneLine_name
    | _ => trivial
  ident_unbound _ one_line := one_line
  set_unbound _ _ one_line := (Expr.OneLine.set_parts one_line).1
  missing := trivial
  shown nameOf value named is_good :=
    ⟨Value.oneLine_text named is_good, Value.oneLine_text named is_good⟩
  count given named expected got := by
    cases given with
    | none =>
      have anonymous : Text.OneLine "anonymous procedure".toList := by simp
      exact anonymous
    | some name => exact named name rfl
  refused _ := trivial

namespace Reader

/-- A failure to read is reported with a snippet of the source, which is on one line. -/
theorem oneLine_report (source : List Char) (failure : Failure) :
    (failure.report source).OneLine := by
  unfold Failure.report
  split
  · exact fun _ => Text.oneLine_snippet
  · split
    · rintro _ ⟨⟩
    · exact fun _ => Text.oneLine_snippet

/-- The failures among the items of a reader are on one line. -/
theorem oneLine_of_mem_items {reader : Reader} {error : ReadError}
    (among : .error error ∈ reader.items) : error.OneLine := by
  obtain ⟨es, rest, -, ⟨-, items⟩ | ⟨failure, -, -, items⟩⟩ := reader.items_cases
  · rw [items] at among
    simp at among
  · rw [items] at among
    have reported : error = failure.report reader.source := by simpa using among
    rw [reported]
    exact oneLine_report reader.source failure

/-- A text that is not one expression is refused on one line. -/
theorem oneLine_of_single {comments : Bool} {text : String} {error : ReadError}
    (failed : single comments text = .error error) : error.OneLine := by
  unfold single at failed
  split at failed
  · cases failed
    rintro _ ⟨⟩
  · next first later found =>
    have among : .error error ∈ (ofString comments text).items := by
      rw [items_of_next_some found, failed]
      exact List.mem_cons_self
    exact oneLine_of_mem_items among
  · split at failed
    · cases failed
    · cases failed
      exact fun _ => Text.oneLine_snippet

end Reader

/-- What a reader hands out prints on one line, and so does what it expands to. -/
theorem Regime.oneLine_admits (reader : Reader) : Regime.oneLine.Admits reader.items where
  code raw among tree expands := by
    have same : tree.text = raw.text := Expr.text_of_expandsTo expands
    have same_chars : tree.chars = raw.chars := String.ofList_injective same
    have raw_line : raw.OneLine := (reader.readable_of_mem_items among).oneLine
    change Text.OneLine tree.chars
    rw [same_chars]
    exact raw_line
  malformed _ _ _ _ := trivial
  failure _ among := Reader.oneLine_of_mem_items among

/-- Every error of a program text is reported on one line. A reader reports failures without line
ends, whether it reads one expression or all of them, and so does expansion. And whatever sources
are run one after the other on the machine that a program starts on, under any configuration, the
message of each failure has neither line feeds nor carriage returns. -/
theorem errors_print_on_one_line :
    (∀ comments text error, .error error ∈ (Reader.ofString comments text).items ∨
      Reader.single comments text = .error error → Text.OneLine error.message.toList) ∧
    (∀ (e : Expr) (form : Keyword), e.expand = .error form →
      Text.OneLine (Error.malformed form).message.toList) ∧
    ∀ config budget sources, ∀ result ∈ history config budget sources .initial, ∀ error,
      result.1 = .error (.failed error) → Text.OneLine error.message.toList := by
  refine ⟨?_, ?_, ?_⟩
  · intro comments text error failed
    apply ReadError.oneLine_message
    rcases failed with among | failed
    · exact Reader.oneLine_of_mem_items among
    · exact Reader.oneLine_of_single failed
  · intro e form _
    have one_line : (Error.malformed form).OneLine := trivial
    exact Error.oneLine_message one_line
  · intro config budget sources result among error stopped
    have failure : Error.OneLine error :=
      failure_of_history config budget Regime.closed_oneLine .initial
        Regime.closed_oneLine.obeys_initial (fun source _ => Regime.oneLine_admits _) result among
        error stopped
    exact Error.oneLine_message failure

/-- There are line ends in a text that cannot be read, and next to a symbol that is applied as if it
were a procedure. The errors have none. -/
theorem errors_print_on_one_line_of_line_ends :
    (Reader.single true "(a #\r\n b)" = .error ⟨.unexpected 3, some "#\\n b)"⟩ ∧
      Text.OneLine (ReadError.message ⟨.unexpected 3, some "#\\n b)"⟩).toList) ∧
    ∃ result ∈ history ⟨true, 5⟩ 5 [(true, "('a\r\n)")] .initial,
      result.1 = .error (.failed (.notProcedure "a")) ∧
        Text.OneLine (Error.notProcedure "a").message.toList := by
  have refused : Reader.single true "(a #\r\n b)" = .error ⟨.unexpected 3, some "#\\n b)"⟩ := by
    decide +kernel
  have items : (Reader.ofString true "('a\r\n)").items =
      [.ok (.list [.list [.ident "quote", .ident "a"]])] :=
    Reader.items_eq_iff.mpr (by decide +kernel)
  have stopped : (seen (evalProgram ⟨true, 5⟩ 5 true "('a\r\n)" .initial)).1 =
      .error (.failed (.notProcedure "a")) := by
    rw [evalProgram, items]
    decide +kernel
  have one_line := errors_print_on_one_line.2.2 ⟨true, 5⟩ 5 [(true, "('a\r\n)")] _
    List.mem_cons_self _ stopped
  exact ⟨⟨refused, errors_print_on_one_line.1 _ _ _ (.inr refused)⟩, _, List.mem_cons_self,
    stopped, one_line⟩
end TailScheme
