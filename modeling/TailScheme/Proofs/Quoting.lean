import TailScheme.Proofs.ExpandedCode
import TailScheme.Proofs.Parts

/-!
# Quoted data

Quoting fails exactly if there is a special form in the data, and reports the first one
(`Expr.reports_quoted`). Otherwise it makes a value that stands for the data (`Expr.StandsFor`).
This relation says nothing of stamps, so it holds again whenever the same data is quoted again. What
stands for a tree prints as the tree does, although trees and values have printers of their own
(`Expr.StandsFor.text_eq`), it has neither procedures nor dotted tails in it, and all that stands
for the same tree is equal.
-/
namespace TailScheme

open List (Forall₂)
open Value (Making IsPart)

namespace Expr

mutual

/-- A tree and everything in it, outer trees before inner ones and otherwise from left to right. -/
def nodes : Expr → List Expr
  | .list items => .list items :: nodesAll items
  | .quote datum => .quote datum :: datum.nodes
  | .define name value => .define name value :: value.nodes
  | .set name value => .set name value :: value.nodes
  | .lambda params body => .lambda params body :: nodesAll body
  | .cond branches => .cond branches :: nodesBranches branches
  | atom => [atom]

/-- Trees and everything in them. -/
def nodesAll : List Expr → List Expr
  | [] => []
  | item :: items => item.nodes ++ nodesAll items

/-- The tests and bodies of branches and everything in them. -/
def nodesBranches : List Branch → List Expr
  | [] => []
  | .test guard body :: rest => guard.nodes ++ nodesAll body ++ nodesBranches rest
  | .otherwise body :: rest => nodesAll body ++ nodesBranches rest

end

/-- The first special form in a tree that is not a quote. -/
def firstForm? (e : Expr) : Option Expr := e.nodes.find? isForm

/-- The first special form in trees that is not a quote. -/
def firstFormAll? (items : List Expr) : Option Expr := (nodesAll items).find? isForm

mutual

/-- The value is made like the tree: literals stand for themselves, names for symbols, and a list
for a chain of pairs. A quote is a list with its keyword. -/
inductive StandsFor : Value → Expr → Prop where
  | bool (value : Bool) : StandsFor (.bool value) (.bool value)
  | int (value : Int64) : StandsFor (.int value) (.int value)
  | ident (name : String) : StandsFor (.symbol name) (.ident name)
  | list {items : List Expr} {value : Value} (chained : Chained value items) :
      StandsFor value (.list items)
  | quote {datum : Expr} {value : Value} (chained : Chained value [.ident "quote", datum]) :
      StandsFor value (.quote datum)

/-- The value is a chain of pairs for these trees, one after the other. -/
inductive Chained : Value → List Expr → Prop where
  | nil : Chained .nil []
  | cons {item : Expr} {items : List Expr} {id : Nat} {head tail : Value}
      (first : StandsFor head item) (rest : Chained tail items) :
      Chained (.pair id head tail) (item :: items)

end

/-- The report of this form, if there is one, and a good result otherwise. -/
def Reported {α : Type} (good : α → Prop) : Option Expr → Except Error (α × Nat) → Prop
  | some form, result => result = .error (.unquotable form.text)
  | none, result => ∃ value next, result = .ok (value, next) ∧ good value

/-- A computation that reports this form, if there is one, and has a good result otherwise, whatever
stamps are in use. -/
def Reports {α : Type} (form? : Option Expr) (good : α → Prop) (make : Making α) : Prop :=
  ∀ stamp, Reported good form? (make stamp)

section

variable {α β : Type} {form? other? : Option Expr} {good : α → Prop} {better : β → Prop}
  {items : List Expr} {values : List Value}

/-- A good result is handed back. -/
theorem reports_pure {value : α} (is_good : good value) :
    Reports none good (pure value : Making α) :=
  fun stamp => ⟨value, stamp, rfl, is_good⟩

/-- Of two computations in a row the first one may report a form, or else the second one may. -/
theorem Reports.bind {first : Making α} {second : α → Making β}
    (reports : Reports form? good first)
    (then_reports : ∀ value, good value → Reports other? better (second value)) :
    Reports (form?.or other?) better (first >>= second) := by
  intro stamp
  change Reported better (form?.or other?) (first stamp >>= fun made => second made.1 made.2)
  have comes := reports stamp
  cases form? with
  | some form =>
    have refused : first stamp = .error (.unquotable form.text) := comes
    rw [refused]
    rfl
  | none =>
    obtain ⟨value, next, made, is_good⟩ := comes
    rw [made, Option.none_or]
    exact then_reports value is_good next

/-- What is good enough for one purpose may be good enough for another. -/
theorem Reports.imp {better : α → Prop} {make : Making α} (reports : Reports form? good make)
    (implies : ∀ value, good value → better value) : Reports form? better make := by
  intro stamp
  have comes := reports stamp
  cases form? with
  | some form => exact comes
  | none =>
    obtain ⟨value, next, made, is_good⟩ := comes
    exact ⟨value, next, made, implies value is_good⟩

/-- A list of values that stand for trees is a chain for these trees. -/
theorem reports_ofList (each : Forall₂ StandsFor values items) :
    Reports none (fun value => Chained value items) (Value.ofList values) := by
  induction each with
  | nil => exact reports_pure .nil
  | cons first each ih =>
    change Reports (none.or none) _ _
    exact ih.bind fun tail chained stamp => ⟨_, _, rfl, .cons first chained⟩

mutual

/-- Quoting reports the first special form in the data. If there is none, it makes a value that
stands for the data. -/
theorem reports_quoted : ∀ e : Expr,
    Reports e.firstForm? (fun value => StandsFor value e) e.quoted
  | .bool value => reports_pure (.bool value)
  | .int value => reports_pure (.int value)
  | .ident name => reports_pure (.ident name)
  | .list items => by
    have chained := (reports_quotedAll items).bind fun _ each => reports_ofList each
    rw [Option.or_none] at chained
    exact chained.imp fun _ => .list
  | .quote datum => by
    have chained := (reports_quoted datum).bind fun value inner =>
      reports_ofList (.cons (.ident "quote") (.cons inner .nil))
    rw [Option.or_none] at chained
    exact chained.imp fun _ => .quote
  | .define _ _ | .set _ _ | .lambda _ _ | .cond _ => fun _ => rfl

/-- Quoting several pieces of data reports the first special form in them. -/
theorem reports_quotedAll : ∀ items : List Expr,
    Reports (firstFormAll? items) (fun values => Forall₂ StandsFor values items) (quotedAll items)
  | [] => reports_pure .nil
  | item :: items => by
    have split : firstFormAll? (item :: items) = item.firstForm?.or (firstFormAll? items) :=
      List.find?_append ..
    rw [split]
    refine (reports_quoted item).bind fun value inner => ?_
    have joined (values : List Value) (each : Forall₂ StandsFor values items) :
        Reports none (fun values => Forall₂ StandsFor values (item :: items))
          (pure (value :: values)) := reports_pure (.cons inner each)
    have quoted := (reports_quotedAll items).bind joined
    rwa [Option.or_none] at quoted

end

end

end Expr

namespace Value

/-- There is no procedure in the value, and every chain of pairs in it is a proper list. -/
def IsData (value : Value) : Prop :=
  ∀ part, IsPart part value → part.kind ≠ .procedure ∧ (part.isPair = true → part.ending = .nil)

section

variable {value first second : Value} {id : Nat}

/-- An atom is data unless it is a procedure. -/
theorem isData_of_atom (atom : value.isPair = false) (no_procedure : value.kind ≠ .procedure) :
    value.IsData := by
  intro part inside
  obtain rfl := (isPart_atom_iff atom).mp inside
  exact ⟨no_procedure, fun pair => by rw [atom] at pair; cases pair⟩

/-- A pair of data is data if it goes on as a proper list. -/
theorem isData_pair (first_data : first.IsData) (second_data : second.IsData)
    (proper : second.ending = .nil) : (pair id first second).IsData := by
  intro part inside
  rcases isPart_pair_iff.mp inside with rfl | within | within
  · exact ⟨by rintro ⟨⟩, fun _ => proper⟩
  · exact first_data part within
  · exact second_data part within

end

end Value

namespace Expr

section

variable {nameOf : Nat → Option String} {value : Value} {e : Expr} {items : List Expr}

/-- Behind a tree, other trees print with a space before each. -/
theorem allChars_cons_eq (item : Expr) :
    allChars (item :: items) = item.chars ++ items.flatMap fun other => ' ' :: other.chars := by
  induction items generalizing item with
  | nil => simp
  | cons next items ih => rw [allChars_cons_cons, ih, List.flatMap_cons, List.cons_append]

mutual

/-- What stands for a tree prints as the tree does. -/
theorem StandsFor.write_eq : ∀ {value : Value} {e : Expr}, StandsFor value e →
    ∀ out, (value.write nameOf out).toList = out.toList ++ e.chars
  | _, _, .bool value, out => by simp [Value.write, Value.atomText]
  | _, _, .int value, out => by simp [Value.write, Value.atomText]
  | _, _, .ident name, out => by simp [Value.write, Value.atomText]
  | _, _, .list chained, out => by rw [chained.write_eq, chars_list]
  | _, .quote datum, .quote chained, out => by
    have keyword : "(quote ".toList = '(' :: ("quote".toList ++ [' ']) := by decide
    rw [chained.write_eq, chars_quote, allChars_cons_cons, chars_ident, allChars_singleton, keyword]
    simp

/-- A chain for trees prints as a list of them. -/
theorem Chained.write_eq : ∀ {value : Value} {items : List Expr}, Chained value items →
    ∀ out, (value.write nameOf out).toList = out.toList ++ '(' :: (allChars items ++ [')'])
  | _, _, .nil, out => by simp [Value.write, Value.atomText]
  | _, _, .cons first rest, out => by
    rw [Value.write, rest.writeTail_eq, first.write_eq, allChars_cons_eq]
    simp

/-- Behind an element, a chain for trees prints as they do, with a space before each. -/
theorem Chained.writeTail_eq : ∀ {value : Value} {items : List Expr}, Chained value items →
    ∀ out, (value.writeTail nameOf out).toList =
      out.toList ++ ((items.flatMap fun item => ' ' :: item.chars) ++ [')'])
  | _, _, .nil, out => by simp [Value.writeTail]
  | _, _, .cons first rest, out => by
    rw [Value.writeTail, rest.writeTail_eq, first.write_eq]
    simp

end

/-- What stands for a tree has the text of the tree, however closures are named. -/
theorem StandsFor.text_eq (stands : StandsFor value e) : value.text nameOf = e.text := by
  have same : (value.write nameOf "").toList = _ := stands.write_eq ""
  apply String.toList_inj.mp
  simpa [Value.text, text] using same

/-- A chain for trees is a proper list. -/
theorem Chained.ending_eq : ∀ {value : Value} {items : List Expr}, Chained value items →
    value.ending = .nil
  | _, _, .nil => rfl
  | _, _, .cons _ rest => rest.ending_eq

mutual

/-- What stands for a tree is data. -/
theorem StandsFor.isData : ∀ {value : Value} {e : Expr}, StandsFor value e → value.IsData
  | _, _, .bool value => Value.isData_of_atom rfl (by rintro ⟨⟩)
  | _, _, .int value => Value.isData_of_atom rfl (by rintro ⟨⟩)
  | _, _, .ident name => Value.isData_of_atom rfl (by rintro ⟨⟩)
  | _, _, .list chained => chained.isData
  | _, _, .quote chained => chained.isData

/-- A chain for trees is data. -/
theorem Chained.isData : ∀ {value : Value} {items : List Expr}, Chained value items → value.IsData
  | _, _, .nil => Value.isData_of_atom rfl (by rintro ⟨⟩)
  | _, _, .cons first rest => Value.isData_pair first.isData rest.isData rest.ending_eq

end

mutual

/-- All that stands for the same tree is equal. -/
theorem StandsFor.equal : ∀ {value : Value} {e : Expr}, StandsFor value e →
    ∀ {other : Value}, StandsFor other e → value.equal other = true
  | _, _, .bool value, _, .bool _ => by simp [Value.equal, Value.identical]
  | _, _, .int value, _, .int _ => by simp [Value.equal, Value.identical]
  | _, _, .ident name, _, .ident _ => by simp [Value.equal, Value.identical]
  | _, _, .list chained, _, .list other => chained.equal other
  | _, _, .quote chained, _, .quote other => chained.equal other

/-- All chains for the same trees are equal. -/
theorem Chained.equal : ∀ {value : Value} {items : List Expr}, Chained value items →
    ∀ {other : Value}, Chained other items → value.equal other = true
  | _, _, .nil, _, .nil => rfl
  | _, _, .cons first rest, _, .cons other others => by
    simp [Value.equal, first.equal other, rest.equal others]

end

/-- Whatever is in trees is in one of them. -/
theorem mem_nodesAll_iff {node : Expr} :
    node ∈ nodesAll items ↔ ∃ item ∈ items, node ∈ item.nodes := by
  induction items with
  | nil => simp [nodesAll]
  | cons item items ih => simp [nodesAll, ih]

/-- There are no special forms in what is read. -/
theorem Readable.firstForm? {level : Nat} (readable : e.Readable level) : e.firstForm? = none := by
  rw [Expr.firstForm?, List.find?_eq_none]
  induction readable with
  | bool value room => simp [nodes, isForm]
  | int value room => simp [nodes, isForm]
  | ident room valid not_true not_false => simp [nodes, isForm]
  | list room each ih =>
    intro node among
    rw [nodes, List.mem_cons, mem_nodesAll_iff] at among
    rcases among with rfl | ⟨item, listed, inside⟩
    · simp [isForm]
    · exact ih item listed node inside

end

/-- A value that quoting makes stands for the data. -/
theorem standsFor_of_quoted {stamp next : Nat} (made : e.quoted stamp = .ok (value, next)) :
    StandsFor value e := by
  have comes := e.reports_quoted stamp
  rw [made] at comes
  cases first : e.firstForm? with
  | some form =>
    rw [first] at comes
    cases comes
  | none =>
    rw [first] at comes
    obtain ⟨_, _, same, stands⟩ := comes
    cases same
    exact stands

end Expr

section

variable (tailCalls : Bool) (invoke : Call → Run Value) (scope : ScopeId)

/-- Quoting a tree with a special form in it fails with the first one and changes nothing. -/
theorem evaluate_quote_of_form {datum form : Expr} (first : datum.firstForm? = some form)
    (machine : Machine) : evaluate tailCalls invoke (.quote datum) scope machine =
      .error (.failed (.unquotable form.text)) machine := by
  have refused := datum.reports_quoted machine.heap.pairs
  rw [first] at refused
  have failed : datum.quoted machine.heap.pairs = .error (.unquotable form.text) := refused
  rw [evaluate, Run.making, failed]

/-- Quoting a tree with no special form in it makes a value that stands for the tree. -/
theorem evaluate_quote_of_none {datum : Expr} (no_form : datum.firstForm? = none)
    (machine : Machine) : ∃ value after,
      evaluate tailCalls invoke (.quote datum) scope machine = .ok value after ∧
        Expr.StandsFor value datum := by
  have comes := datum.reports_quoted machine.heap.pairs
  rw [no_form] at comes
  obtain ⟨value, next, made, stands⟩ := comes
  refine ⟨value, { machine with heap := { machine.heap with pairs := next } }, ?_, stands⟩
  rw [evaluate, Run.making, made]

/-- If quoting a tree makes a value, then there is no special form in the tree and the value stands
for it. -/
theorem standsFor_of_evaluate_quote {datum : Expr} {value : Value} {machine after : Machine}
    (evaluated : evaluate tailCalls invoke (.quote datum) scope machine = .ok value after) :
    datum.firstForm? = none ∧ Expr.StandsFor value datum := by
  rcases first : datum.firstForm? with _ | form
  · obtain ⟨other, last, made, stands⟩ :=
      evaluate_quote_of_none tailCalls invoke scope first machine
    rw [evaluated] at made
    cases made
    exact ⟨rfl, stands⟩
  · rw [evaluate_quote_of_form tailCalls invoke scope first] at evaluated
    cases evaluated

end

/-- Quoting data at the top level makes a value that stands for it, if there is no special form in
it. -/
theorem eval_quote_of_none (config : Config) (budget : Nat) {datum : Expr}
    (no_form : datum.firstForm? = none) (machine : Machine) : ∃ value after,
      eval config budget (.quote datum) machine = .ok value after ∧
        Expr.StandsFor value datum := by
  obtain ⟨value, after, made, stands⟩ := evaluate_quote_of_none config.tailCalls
    (invoke config budget config.maxDepth) Heap.root no_form machine.begin
  refine ⟨value, after, ?_, stands⟩
  rw [eval, made]

/-- Quoting is faithful. Evaluating a quote gives a value if and only if there is no definition,
assignment, procedure or `cond` anywhere in the data, and otherwise fails with the printed form of
the first of them, changing nothing. The value has no procedure and only proper lists in it, and
prints as the data does. So data that was read from a text, alone or among other expressions, can be
read back from the printed value, and quoting it again, at any time, gives an equal value. -/
theorem quoting_is_faithful :
    (∀ tailCalls invoke scope machine datum,
      ((∃ value after, evaluate tailCalls invoke (.quote datum) scope machine = .ok value after) ↔
        ∀ node ∈ datum.nodes, node.isForm = false) ∧
      (∀ form, datum.nodes.find? Expr.isForm = some form →
        evaluate tailCalls invoke (.quote datum) scope machine =
          .error (.failed (.unquotable form.text)) machine) ∧
      ∀ value after, evaluate tailCalls invoke (.quote datum) scope machine = .ok value after →
        (∀ part, IsPart part value →
          part.kind ≠ .procedure ∧ (part.isPair = true → part.ending = .nil)) ∧
        ∀ heap : Heap, heap.text value = datum.text) ∧
    ∀ config budget comments text datum, Reader.single comments text = .ok datum ∨
        .ok datum ∈ (Reader.ofString comments text).items →
      ∀ machine, ∃ value after, eval config budget (.quote datum) machine = .ok value after ∧
        ∀ other, ∃ again, Reader.single other (after.heap.text value) = .ok again ∧
          ∀ later, ∃ second last, eval config budget (.quote again) later = .ok second last ∧
            second.equal value = true := by
  constructor
  · intro tailCalls invoke scope machine datum
    have none_iff : datum.firstForm? = none ↔ ∀ node ∈ datum.nodes, node.isForm = false := by
      simp [Expr.firstForm?]
    refine ⟨?_, ?_, ?_⟩
    · rw [← none_iff]
      constructor
      · rintro ⟨value, after, evaluated⟩
        exact (standsFor_of_evaluate_quote tailCalls invoke scope evaluated).1
      · intro no_form
        obtain ⟨value, after, evaluated, _⟩ :=
          evaluate_quote_of_none tailCalls invoke scope no_form machine
        exact ⟨value, after, evaluated⟩
    · intro form first
      exact evaluate_quote_of_form tailCalls invoke scope first machine
    · intro value after evaluated
      have stands := (standsFor_of_evaluate_quote tailCalls invoke scope evaluated).2
      exact ⟨stands.isData, fun heap => stands.text_eq⟩
  · intro config budget comments text datum read machine
    have readable : datum.Readable 0 :=
      read.elim readable_of_single (Reader.ofString comments text).readable_of_mem_items
    have no_form := readable.firstForm?
    obtain ⟨value, after, evaluated, stands⟩ := eval_quote_of_none config budget no_form machine
    refine ⟨value, after, evaluated, fun other => ⟨datum, ?_, fun later => ?_⟩⟩
    · rw [Heap.text, stands.text_eq]
      exact single_text_of_readable readable other
    · obtain ⟨second, last, again, also_stands⟩ :=
        eval_quote_of_none config budget no_form later
      exact ⟨second, last, again, also_stands.equal stands⟩

/-- Of two forms in quoted data, the assignment inside a quote is reported, and neither the
procedure in it nor the definition after it. Data with empty lists, a quote mark and a negative
number is read back from the printed value. -/
theorem quoting_is_faithful_of_nested :
    let assignment : Expr := .set "x" (.lambda [] [.int 2])
    let forms : Expr := .list [.quote (.list [.int 0, assignment]), .define "y" (.int 1)]
    let datum : Expr := .list [.list [], .list [.ident "quote", .list [.ident "a"]], .int (-1)]
    forms.nodes.find? Expr.isForm = some assignment ∧
    evaluate true (invoke ⟨true, 200⟩ 0 200) (.quote forms) Heap.root .initial =
      .error (.failed (.unquotable "(set! x (lambda () 2))")) .initial ∧
    Reader.single true "(() '(a) -1)" = .ok datum ∧
    ∃ value after, eval ⟨true, 200⟩ 0 (.quote datum) .initial = .ok value after ∧
      ∃ again, Reader.single false (after.heap.text value) = .ok again ∧
        ∃ second last, eval ⟨true, 200⟩ 0 (.quote again) after = .ok second last ∧
          second.equal value = true := by
  intro assignment forms datum
  have first : forms.nodes.find? Expr.isForm = some assignment := rfl
  have read : Reader.single true "(() '(a) -1)" = .ok datum := by decide +kernel
  obtain ⟨quoting, reading⟩ := quoting_is_faithful
  have refused := (quoting true (invoke ⟨true, 200⟩ 0 200) Heap.root .initial forms).2.1 _ first
  obtain ⟨value, after, made, read_back⟩ :=
    reading ⟨true, 200⟩ 0 true "(() '(a) -1)" datum (.inl read) .initial
  obtain ⟨again, read_again, quoted_again⟩ := read_back false
  exact ⟨first, refused, read, value, after, made, again, read_again, quoted_again after⟩

end TailScheme
