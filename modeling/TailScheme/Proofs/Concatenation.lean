import TailScheme.Proofs.Locality
import TailScheme.Proofs.Viable

/-!
# Programs in pieces

A program may be evaluated in one piece or in two. If the first of two texts is read to its end,
then the two as one program, on separate lines, come to what the first one comes to, followed by the
second one if the first succeeds. A comment at the end of the first text ends with its line, so it
does not reach into the second one, and the second one is read as it is alone; only the places of
its failures are counted from the start of the whole text.

What is evaluated of a text is told by `Proceeds`: the expressions before the first failure, each of
them once and in order.
-/
namespace TailScheme

open Reader Grammar

/-- The failure as it is reported when this many bytes stand in front of the text. -/
def ReadError.later (bytes : Nat) (error : ReadError) : ReadError :=
  match error.cause with
  | .unexpected position => { error with cause := .unexpected (bytes + position) }
  | _ => error

/-- The stop as it is reported when this many bytes stand in front of the text. -/
def Stop.later (bytes : Nat) : Stop → Stop
  | .failed (.read error) => .failed (.read (error.later bytes))
  | stop => stop

/-- No place in the text is named by a stop that comes from running code. -/
theorem Stop.OfRunning.later_eq {stop : Stop} (running : stop.OfRunning) (bytes : Nat) :
    stop.later bytes = stop := by
  cases stop with
  | outOfBudget => rfl
  | failed error =>
    cases error with
    | read error => exact running.elim
    | _ => rfl

namespace Reader

variable {comments : Bool} {source text rest : List Char}

/-- Nothing is handed out for trivia. -/
theorem items_of_trivia (trivia : Trivia comments text rest) :
    items ⟨comments, source, text⟩ = items ⟨comments, source, rest⟩ := by
  have same : Reader.next ⟨comments, source, text⟩ = Reader.next ⟨comments, source, rest⟩ := by
    simp only [Reader.next, skipTrivia_of_trivia trivia]
  rcases next : Reader.next ⟨comments, source, rest⟩ with ⟨_ | item, later⟩
  · rw [items_of_next_none (same.trans next), items_of_next_none next]
  · rw [items_of_next_some (same.trans next), items_of_next_some next]

/-- A failure in a text is reported later if there is more in front of the text. -/
theorem report_append (front : List Char) {failure : Failure}
    (within : ∀ there, failure = .unexpected there → Text.byteSize there ≤ Text.byteSize source) :
    failure.report (front ++ source) = (failure.report source).later (Text.byteSize front) := by
  cases failure with
  | tooDeep there => rfl
  | unexpected there =>
    have bound := within there rfl
    simp only [Failure.report, Text.byteSize_append]
    split
    · rfl
    · simp only [ReadError.later]
      rw [Nat.add_sub_assoc bound]

/-- What stands where a text fails is no longer than the text. -/
theorem byteSize_le_of_failure {there : List Char} {items : List Expr}
    (data : Data comments 0 text items rest)
    (failed : datum comments nestingLimit (skipTrivia comments rest) =
      .error (.unexpected there)) : Text.byteSize there ≤ Text.byteSize text := by
  obtain ⟨-, front, start, -⟩ := stops_of_failure (Nat.add_zero nestingLimit)
    (no_space_skipTrivia comments rest) failed
  obtain ⟨before, rfl, -⟩ := data.exists_front
  obtain ⟨blank, skipped⟩ := (trivia_skipTrivia comments rest).exists_front
  rw [skipped, start]
  simp only [Text.byteSize_append]
  omega

/-- What is handed out as it is when this many bytes stand in front of the text. -/
def laterItem (bytes : Nat) (item : Except ReadError Expr) : Except ReadError Expr :=
  item.mapError (ReadError.later bytes)

/-- A text is read the same with more in front of it that has been read already. -/
theorem items_append_source (front : List Char) (text : String) :
    items ⟨comments, front ++ text.toList, text.toList⟩ =
      (ofString comments text).items.map (laterItem (Text.byteSize front)) := by
  obtain ⟨es, rest, data, outcome⟩ := (ofString comments text).items_cases
  have read : items ⟨comments, front ++ text.toList, text.toList⟩ =
      es.map .ok ++ items ⟨comments, front ++ text.toList, rest⟩ := items_of_data data
  have unmoved : (es.map .ok).map (laterItem (Text.byteSize front)) = es.map .ok := by
    rw [List.map_map]
    rfl
  rcases outcome with ⟨ends, handed⟩ | ⟨failure, more, failed, handed⟩
  · have nothing : items ⟨comments, front ++ text.toList, rest⟩ = [] :=
      (items_of_trivia ends).trans (items_of_next_none rfl)
    rw [read, nothing, handed, unmoved, List.append_nil]
  · have reported : failure.report (front ++ text.toList) =
        (failure.report text.toList).later (Text.byteSize front) :=
      report_append front fun there same => byteSize_le_of_failure data (same ▸ failed)
    have last : items ⟨comments, front ++ text.toList, rest⟩ =
        [.error (failure.report (front ++ text.toList))] := items_of_failure more failed
    rw [read, last, handed, List.map_append, unmoved, reported]
    rfl

/-- Two texts on separate lines are read one after the other if the first is read to its end. -/
theorem items_of_two {first second : String} {es : List Expr}
    (readable : (ofString comments first).items = es.map .ok) :
    (ofString comments (first ++ "\n" ++ second)).items =
      es.map .ok ++ (ofString comments second).items.map (laterItem (first.utf8ByteSize + 1)) := by
  obtain ⟨last, data, ends⟩ := items_eq_ok_iff.mp readable
  obtain ⟨front, whole, alike⟩ := data.exists_front
  have data_there := alike (last ++ '\n' :: second.toList) fun delimited =>
    delimited.append_feed _
  let source := first.toList ++ ['\n'] ++ second.toList
  have source_eq : source = front ++ (last ++ '\n' :: second.toList) := by simp [source, whole]
  have text_eq : (first ++ "\n" ++ second).toList = source := by simp [source]
  have bytes : Text.byteSize (first.toList ++ ['\n']) = first.utf8ByteSize + 1 := by
    rw [Text.byteSize_append, Text.byteSize_toList]
    rfl
  calc (ofString comments (first ++ "\n" ++ second)).items
      = items ⟨comments, source, source⟩ := by rw [ofString, text_eq]
    _ = es.map .ok ++ items ⟨comments, source, last ++ '\n' :: second.toList⟩ :=
        items_of_data (source_eq ▸ data_there)
    _ = es.map .ok ++ items ⟨comments, source, second.toList⟩ := by
        rw [items_of_trivia (ends.append_feed second.toList)]
    _ = es.map .ok ++ (ofString comments second).items.map (laterItem (first.utf8ByteSize + 1)) :=
        by rw [items_append_source, bytes]

end Reader

section

variable (config : Config) (budget : Nat)

/-- Evaluating an expression and what follows it. -/
theorem evalItems_ok_cons (raw : Expr) (items : List (Except ReadError Expr)) (last : Value)
    (machine : Machine) :
    evalItems config budget last (.ok raw :: items) machine =
      match evalDatum config budget raw machine with
      | .ok value after => evalItems config budget value items after
      | .error stop after => .error stop after := by
  change EStateM.bind (evalDatum config budget raw) _ machine = _
  unfold EStateM.bind
  cases evalDatum config budget raw machine <;> rfl

/-- Evaluating what is read in a row is evaluating the first part and then the rest. -/
theorem evalItems_append (es : List Expr) (more : List (Except ReadError Expr)) (last : Value)
    (machine : Machine) :
    evalItems config budget last (es.map .ok ++ more) machine =
      match evalItems config budget last (es.map .ok) machine with
      | .ok value after => evalItems config budget value more after
      | .error stop after => .error stop after := by
  induction es generalizing last machine with
  | nil => rfl
  | cons raw es ih =>
    rw [List.map_cons, List.cons_append, evalItems_ok_cons, evalItems_ok_cons]
    cases evalDatum config budget raw machine with
    | ok value after => exact ih value after
    | error stop after => rfl

/-- A stop in evaluating an expression does not come from reading. -/
theorem later_evalDatum {raw : Expr} {machine after : Machine} {stop : Stop}
    (stopped : evalDatum config budget raw machine = .error stop after) (bytes : Nat) :
    stop.later bytes = stop := by
  unfold evalDatum at stopped
  rcases expands : raw.expand with keyword | e
  · rw [expands] at stopped
    cases stopped
    rfl
  · rw [expands] at stopped
    have stays : (eval config budget e).Stays (fun _ => True) (fun _ => True)
        (Heap.Grants Heap.root e.Defines) (Value.Confined (fun _ => True) fun _ => True) :=
      stays_eval config budget trivial fun _ _ => trivial
    have stayed := stays machine machine.confined_of_all
    rw [show eval config budget e machine = .error stop after from stopped] at stayed
    exact stayed.1.later_eq bytes

/-- What stands in front of a text moves the failure to read it and nothing else. -/
theorem evalItems_later (bytes : Nat) (items : List (Except ReadError Expr)) (last : Value)
    (machine : Machine) :
    evalItems config budget last (items.map (laterItem bytes)) machine =
      match evalItems config budget last items machine with
      | .ok value after => .ok value after
      | .error stop after => .error (stop.later bytes) after := by
  induction items generalizing last machine with
  | nil => rfl
  | cons item items ih =>
    cases item with
    | error error => rfl
    | ok raw =>
      change evalItems config budget last (.ok raw :: items.map (laterItem bytes)) machine = _
      rw [evalItems_ok_cons, evalItems_ok_cons]
      cases stopped : evalDatum config budget raw machine with
      | ok value after => exact ih value after
      | error stop after => simp only [later_evalDatum config budget stopped bytes]

/-- Where something is read, the value does not depend on what came before. -/
theorem evalItems_of_ne_nil {items : List (Except ReadError Expr)} (nonempty : items ≠ [])
    (last other : Value) (machine : Machine) :
    evalItems config budget last items machine = evalItems config budget other items machine := by
  obtain ⟨item, items, rfl⟩ := List.exists_cons_of_ne_nil nonempty
  cases item with
  | error error => rfl
  | ok raw => rw [evalItems_ok_cons, evalItems_ok_cons]

/-- Expressions are evaluated in order, each of them once, and all with a value: `last` is the value
before them and `value` the one after them. -/
inductive Proceeds : List Expr → (last : Value) → Machine → (value : Value) → Machine → Prop where
  | none (last : Value) (machine : Machine) : Proceeds [] last machine last machine
  | next {raw : Expr} {later : List Expr} {last value result : Value}
      {machine middle after : Machine}
      (first : evalDatum config budget raw machine = .ok value middle)
      (more : Proceeds later value middle result after) :
      Proceeds (raw :: later) last machine result after

/-- How evaluating what is read comes to its end on a machine: after the last expression, at a
failure to read, or at an expression that is malformed or stops, which is the last to be looked
at. -/
inductive Finishes (items : List (Except ReadError Expr)) (done : List Expr) (value : Value)
    (machine : Machine) : EStateM.Result Stop Machine Value → Prop where
  | all (read : items = done.map .ok) : Finishes items done value machine (.ok value machine)
  | unread {error : ReadError} {later : List (Except ReadError Expr)}
      (read : items = done.map .ok ++ .error error :: later) :
      Finishes items done value machine (.error (.failed (.read error)) machine)
  | malformed {raw : Expr} {later : List (Except ReadError Expr)} {keyword : Keyword}
      (read : items = done.map .ok ++ .ok raw :: later) (expands : raw.expand = .error keyword) :
      Finishes items done value machine (.error (.failed (.malformed keyword)) machine)
  | stopped {raw e : Expr} {later : List (Except ReadError Expr)} {stop : Stop} {after : Machine}
      (read : items = done.map .ok ++ .ok raw :: later) (expands : raw.expand = .ok e)
      (stops : eval config budget e machine = .error stop after) :
      Finishes items done value machine (.error stop after)

variable {config budget}

/-- One more expression in front is one more that is done. -/
theorem Finishes.cons {items : List (Except ReadError Expr)} {done : List Expr} {value : Value}
    {machine : Machine} {result : EStateM.Result Stop Machine Value} (raw : Expr)
    (finishes : Finishes config budget items done value machine result) :
    Finishes config budget (.ok raw :: items) (raw :: done) value machine result := by
  cases finishes with
  | all read => exact .all (by rw [read, List.map_cons])
  | unread read => exact .unread (by rw [read, List.map_cons, List.cons_append])
  | malformed read expands =>
    exact .malformed (by rw [read, List.map_cons, List.cons_append]) expands
  | stopped read expands stops =>
    exact .stopped (by rw [read, List.map_cons, List.cons_append]) expands stops

/-- What is read is evaluated in order up to its end or the first failure. -/
theorem exists_proceeds (items : List (Except ReadError Expr)) (last : Value) (machine : Machine) :
    ∃ done value middle, Proceeds config budget done last machine value middle ∧
      Finishes config budget items done value middle
        (evalItems config budget last items machine) := by
  induction items generalizing last machine with
  | nil => exact ⟨[], last, machine, .none last machine, .all rfl⟩
  | cons item items ih =>
    cases item with
    | error error => exact ⟨[], last, machine, .none last machine, .unread rfl⟩
    | ok raw =>
      rw [evalItems_ok_cons]
      rcases expands : raw.expand with keyword | e
      · have refused : evalDatum config budget raw machine =
            .error (.failed (.malformed keyword)) machine := by
          simp only [evalDatum, expands, Run.fail]
        rw [refused]
        exact ⟨[], last, machine, .none last machine, .malformed rfl expands⟩
      · have evaluated : evalDatum config budget raw machine = eval config budget e machine := by
          simp only [evalDatum, expands]
        cases stops : eval config budget e machine with
        | error stop after =>
          rw [evaluated, stops]
          exact ⟨[], last, machine, .none last machine, .stopped rfl expands stops⟩
        | ok value middle =>
          obtain ⟨done, result, after, proceeds, finishes⟩ := ih value middle
          rw [evaluated, stops]
          exact ⟨raw :: done, result, after, .next (evaluated.trans stops) proceeds,
            finishes.cons raw⟩

end

/-- A program in one piece and in two come to the same. If a text is read to its end, then it and
another one on the lines after it come to what the first comes to or, if that is a value, to what
the second comes to on the machine that the first leaves; a failure to read the second is reported
as many bytes later as stand in front of it, and the value is that of the first if the second has no
expressions. In any text, the expressions before the first failure are evaluated, each once and in
order, and none after it. -/
theorem evaluation_in_pieces (config : Config) (budget : Nat) (comments : Bool) :
    (∀ (first second : String) (machine : Machine),
      (∀ error, .error error ∉ (ofString comments first).items) →
      evalProgram config budget comments (first ++ "\n" ++ second) machine =
        match evalProgram config budget comments first machine with
        | .error stop after => .error stop after
        | .ok value middle =>
          match evalProgram config budget comments second middle with
          | .error stop after => .error (stop.later (first.utf8ByteSize + 1)) after
          | .ok other after =>
            .ok (if (ofString comments second).items.isEmpty then value else other) after) ∧
    ∀ (text : String) (machine : Machine), ∃ done value middle,
      Proceeds config budget done .nil machine value middle ∧
      Finishes config budget (ofString comments text).items done value middle
        (evalProgram config budget comments text machine) := by
  constructor
  · intro first second machine no_error
    obtain ⟨es, readable⟩ : ∃ es : List Expr,
        (ofString comments first).items = es.map .ok := by
      obtain ⟨es, rest, -, ⟨-, handed⟩ | ⟨failure, -, -, handed⟩⟩ :=
        (ofString comments first).items_cases
      · exact ⟨es, handed⟩
      · refine absurd ?_ (no_error (failure.report (ofString comments first).source))
        simp [handed]
    simp only [evalProgram]
    rw [items_of_two readable, evalItems_append, readable]
    cases evalItems config budget .nil (es.map .ok) machine with
    | error stop after => rfl
    | ok value middle =>
      dsimp only
      rw [evalItems_later]
      by_cases nothing : (ofString comments second).items = []
      · rw [nothing]
        rfl
      · rw [evalItems_of_ne_nil config budget nothing value .nil]
        cases evalItems config budget .nil (ofString comments second).items middle with
        | error stop after => rfl
        | ok other after => simp [nothing]
  · exact fun text machine => exists_proceeds _ .nil machine

/-- A comment ends the first text, and the second one cannot be read to its end. -/
theorem evaluation_in_pieces_of_comment :
    (∀ error, .error error ∉ (ofString true "(define a 1) ; b").items) ∧
    evalProgram ⟨true, 200⟩ 5 true ("(define a 1) ; b" ++ "\n" ++ "a )") .initial =
      match evalProgram ⟨true, 200⟩ 5 true "(define a 1) ; b" .initial with
      | .error stop after => .error stop after
      | .ok value middle =>
        match evalProgram ⟨true, 200⟩ 5 true "a )" middle with
        | .error stop after => .error (stop.later ("(define a 1) ; b".utf8ByteSize + 1)) after
        | .ok other after =>
          .ok (if (ofString true "a )").items.isEmpty then value else other) after := by
  have read : (ofString true "(define a 1) ; b").items =
      [.ok (.list [.ident "define", .ident "a", .int 1])] := items_eq_iff.mpr (by decide +kernel)
  have no_error : ∀ error, .error error ∉ (ofString true "(define a 1) ; b").items := by
    simp [read]
  exact ⟨no_error, (evaluation_in_pieces ⟨true, 200⟩ 5 true).1 _ _ _ no_error⟩

end TailScheme
