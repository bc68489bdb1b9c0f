import TailScheme.Proofs.Effects

/-!
# Places and marks

Whether a call is a tail call is decided by two marks, which the forms of the language set, take
off, save and put back. This module shows what the marks amount to: at every moment they say what
the place of the expression says by the code alone. What carries this through an evaluation is
that the list of what is pending fits the place (`Waits`), level by level, down to the top level.
-/
namespace TailScheme

open StateTransition

namespace Stack

variable {tree : Expr} {stack : Stack}

/-- The level does not depend on marks. -/
@[simp] theorem level_mark (final : Bool) : (stack.mark final).level tree = stack.level tree := by
  obtain ⟨frames, depth, counted⟩ := stack
  cases frames <;> rfl

/-- The level does not depend on what is deferred, as long as the same procedure runs. -/
@[simp] theorem level_clearDeferred : stack.clearDeferred.level tree = stack.level tree := by
  obtain ⟨frames, depth, counted⟩ := stack
  cases frames <;> rfl

/-- A frame to which a call is deferred has the level of the procedure that is called. -/
theorem level_defer {level : Level} {caller : Stack} (call : Call)
    (is_level : stack.level tree = level) (inside : level.caller? = some caller) :
    (stack.defer call).level tree = ⟨call.callee.body, some caller⟩ := by
  obtain ⟨frames, depth, counted⟩ := stack
  subst is_level
  cases frames with
  | nil => simp [level] at inside
  | cons top rest =>
    simp only [level, Option.some.injEq] at inside
    subst inside
    rfl

/-- There is a caller if and only if there is a frame. -/
theorem caller_isSome_iff : (stack.level tree).caller?.isSome = true ↔ stack.frames ≠ [] := by
  obtain ⟨frames, depth, counted⟩ := stack
  cases frames <;> simp [level]

/-- Ending the innermost procedure leaves the stack of its caller. -/
theorem pop_of_level {caller : Stack} (inside : (stack.level tree).caller? = some caller) :
    stack.pop = caller := by
  obtain ⟨frames, depth, counted⟩ := stack
  cases frames with
  | nil => simp [level] at inside
  | cons top rest => simpa [level] using inside

/-- A mark can be read back while a procedure runs. -/
theorem isFinal_mark (final : Bool) :
    (stack.mark final).isFinal = ((stack.level tree).caller?.isSome && final) := by
  obtain ⟨frames, depth, counted⟩ := stack
  cases frames <;> simp [mark, onTop, isFinal, level]

/-- Marks have nothing to do with what is deferred. -/
@[simp] theorem deferred_mark (final : Bool) : (stack.mark final).deferred? = stack.deferred? := by
  obtain ⟨frames, depth, counted⟩ := stack
  cases frames <;> rfl

/-- A call that is deferred is found. -/
theorem deferred_defer {caller : Stack} (call : Call)
    (inside : (stack.level tree).caller? = some caller) :
    (stack.defer call).deferred? = some call := by
  obtain ⟨frames, depth, counted⟩ := stack
  cases frames with
  | nil => simp [level] at inside
  | cons top rest => rfl

/-- A call that is deferred takes the place of the procedure that runs. -/
theorem frames_defer {top : Frame} {below : List Frame} (call : Call)
    (frames : stack.frames = top :: below) :
    (stack.defer call).frames = ⟨call.callee, some call, false⟩ :: below := by
  simp [defer, onTop, frames]

/-- A deferred call that is taken up is deferred no longer. -/
@[simp] theorem deferred_clearDeferred : stack.clearDeferred.deferred? = none := by
  obtain ⟨frames, depth, counted⟩ := stack
  cases frames <;> rfl

/-- Setting the mark to what it is changes nothing. -/
@[simp] theorem mark_isFinal (stack : Stack) : stack.mark stack.isFinal = stack := by
  obtain ⟨frames, depth, counted⟩ := stack
  cases frames <;> rfl

/-- Of two marks the later one counts. -/
@[simp] theorem mark_mark (stack : Stack) (earlier later : Bool) :
    (stack.mark earlier).mark later = stack.mark later := by
  obtain ⟨frames, depth, counted⟩ := stack
  cases frames <;> rfl

/-- Taking a deferred call up leaves the mark alone. -/
@[simp] theorem isFinal_clearDeferred : stack.clearDeferred.isFinal = stack.isFinal := by
  obtain ⟨frames, depth, counted⟩ := stack
  cases frames <;> rfl

end Stack

namespace Place

/-- Whether the mark of the expression that is evaluated next may be set at a place: it is set for
the last expression of a body. -/
def isFinal (code : List Expr) : Place → Bool
  | .code | .clause _ _ => true
  | .item body index => isLast code body index
  | _ => false

/-- The places that have a body are those of code and of branches. -/
theorem cases_of_body {code items : List Expr} {place : Place}
    (found : place.body? code = some items) :
    place = .code ∨ ∃ choice index, place = .clause choice index := by
  cases place with
  | code => exact .inl rfl
  | clause choice index => exact .inr ⟨choice, index, rfl⟩
  | _ => simp [body?] at found

/-- The last expression of a body is where the body ends. -/
theorem isLast_iff {code items : List Expr} {body : Place} {index : Nat}
    (found : body.body? code = some items) :
    isLast code body index = true ↔ items.length = index + 1 := by
  simp [isLast, found]

end Place

namespace Level

/-- Whether a call at a place reuses the frame of the procedure that runs. -/
def tail (tailCalls : Bool) (level : Level) (place : Place) : Bool :=
  tailCalls && level.caller?.isSome && place.isTail level.code

/-- The mark of the innermost frame while a place is evaluated. -/
def mark (tailCalls : Bool) (level : Level) : Place → Bool
  | .code => level.caller?.isSome
  | .clause choice _ => level.tail tailCalls choice
  | .item body _ => mark tailCalls level body
  | .operand application _ => mark tailCalls level application
  | .bound binding => mark tailCalls level binding
  | .guard choice _ => mark tailCalls level choice

/-- No mark is set while no procedure runs. -/
theorem mark_eq_false {tailCalls : Bool} {level : Level} (outside : level.caller? = none)
    (place : Place) : level.mark tailCalls place = false := by
  induction place with
  | code => simp [mark, outside]
  | clause choice index => simp [mark, tail, outside]
  | _ => assumption

/-- Together the two marks say whether a place is in tail position. -/
theorem tail_eq_marks {tailCalls : Bool} {level : Level} {place : Place} {e : Expr}
    (found : place.expr? level.code = some e) :
    (tailCalls && level.mark tailCalls place && place.isFinal level.code) =
      level.tail tailCalls place := by
  cases place with
  | code | clause choice index => simp [Place.expr?] at found
  | item body index =>
    obtain ⟨items, found, _⟩ := Option.bind_eq_some_iff.mp found
    rcases Place.cases_of_body found with rfl | ⟨choice, at_, rfl⟩
    · simp [mark, tail, Place.isTail, Place.isFinal, Bool.and_assoc]
    · simp only [mark, tail, Place.isTail, Place.isFinal]
      cases tailCalls <;> simp [Bool.and_assoc]
  | _ => simp [tail, Place.isTail, Place.isFinal]

end Level

/-- The value of a place is what the list of what is pending waits for. A frame waits between the
marks of its procedure and the place of the call, where the marks of the caller are in order. -/
inductive Waits (tailCalls : Bool) (tree : Expr) : Level → Place → List Pending → Prop where
  /-- Nothing waits for the tree at the top level. -/
  | tree : Waits tailCalls tree ⟨[tree], none⟩ .code []
  /-- The body of a procedure ends with its frame. -/
  | call {body : List Expr} {caller : Stack} {place : Place} {pending : List Pending}
      (waits : Waits tailCalls tree (caller.level tree) place pending)
      (marked : caller.isFinal = (caller.level tree).mark tailCalls place)
      (undeferred : caller.deferred? = none) :
      Waits tailCalls tree ⟨body, some caller⟩ .code (.marks false false :: .frame :: pending)
  /-- The body of a branch ends with the mark of the whole `cond`. -/
  | clause {level : Level} {choice : Place} {pending : List Pending} (index : Nat)
      (outer : Waits tailCalls tree level choice pending) :
      Waits tailCalls tree level (.clause choice index)
        (.marks (level.mark tailCalls choice) false :: pending)
  /-- The last expression of a body gives the value of the body. -/
  | last {level : Level} {body : Place} {items : List Expr} {index : Nat}
      {pending : List Pending} (outer : Waits tailCalls tree level body pending)
      (found : body.body? level.code = some items) (last : items.length = index + 1) :
      Waits tailCalls tree level (.item body index) pending
  /-- Another expression of a body is followed by the next one. -/
  | sequence {level : Level} {body : Place} {done rest : List Expr} {item another : Expr}
      {scope : ScopeId} {pending : List Pending}
      (outer : Waits tailCalls tree level body pending)
      (found : body.body? level.code = some (done ++ item :: another :: rest)) :
      Waits tailCalls tree level (.item body done.length)
        (.sequence body (done.length + 1) (another :: rest) scope :: pending)
  /-- An operand is followed by those after it. -/
  | operand {level : Level} {application : Place} {done left : List Expr} {item : Expr}
      {values : List Value} {scope : ScopeId} {pending : List Pending}
      (outer : Waits tailCalls tree level application pending)
      (found : application.expr? level.code = some (.list (done ++ item :: left)))
      (count : done.length = values.length) :
      Waits tailCalls tree level (.operand application values.length)
        (.operands application (level.tail tailCalls application) values left scope :: pending)
  /-- The value of a definition is what its name is bound to. -/
  | define {level : Level} {place : Place} {name : String} {value : Expr} {scope : ScopeId}
      {pending : List Pending} (outer : Waits tailCalls tree level place pending)
      (found : place.expr? level.code = some (.define name value)) :
      Waits tailCalls tree level (.bound place) (.define name scope :: pending)
  /-- The value of an assignment is what its name is bound to. -/
  | set {level : Level} {place : Place} {name : String} {value : Expr} {scope : ScopeId}
      {pending : List Pending} (outer : Waits tailCalls tree level place pending)
      (found : place.expr? level.code = some (.set name value)) :
      Waits tailCalls tree level (.bound place) (.set name scope :: pending)
  /-- A test is followed by the body of its branch or by the branches after it. -/
  | guard {level : Level} {choice : Place} {done left : List Branch} {guard : Expr}
      {body : List Expr} {scope : ScopeId} {pending : List Pending}
      (outer : Waits tailCalls tree level choice pending)
      (found : choice.expr? level.code = some (.cond (done ++ .test guard body :: left))) :
      Waits tailCalls tree level (.guard choice done.length)
        (.choose choice done.length body left scope (level.tail tailCalls choice) :: pending)

/-- Before a frame ends, its body does. -/
theorem Waits.head_ne_frame {tailCalls : Bool} {tree : Expr} {level : Level} {place : Place}
    {pending : List Pending} (waits : Waits tailCalls tree level place pending) :
    pending.head? ≠ some .frame := by
  induction waits with
  | last _ _ _ ih => exact ih
  | _ => simp

/-- A place is evaluated with the mark of the frame in order and no call deferred to it. -/
structure At (tailCalls : Bool) (tree : Expr) (stack : Stack) (pending : List Pending)
    (place : Place) : Prop where
  waits : Waits tailCalls tree (stack.level tree) place pending
  marked : stack.isFinal = (stack.level tree).mark tailCalls place
  undeferred : stack.deferred? = none

/-- What makes a place evaluated at a known level. -/
theorem At.of_level {tailCalls : Bool} {tree : Expr} {stack : Stack} {pending : List Pending}
    {place : Place} {level : Level} (level_eq : stack.level tree = level)
    (waits : Waits tailCalls tree level place pending)
    (marked : stack.isFinal = level.mark tailCalls place) (undeferred : stack.deferred? = none) :
    At tailCalls tree stack pending place := by
  subst level_eq
  exact ⟨waits, marked, undeferred⟩

/-- In the body of a branch the mark of the frame says whether the `cond` is in tail position. -/
theorem At.clause {tailCalls : Bool} {tree : Expr} {machine : Machine} {pending : List Pending}
    {place : Place} (at_ : At tailCalls tree machine.stack pending place)
    (quiet : machine.final = false) (index : Nat) :
    At tailCalls tree (machine.stack.mark ((machine.stack.level tree).tail tailCalls place))
      (.marks machine.stack.isFinal machine.final :: pending) (.clause place index) := by
  refine ⟨?_, ?_, ?_⟩
  · rw [Stack.level_mark, at_.marked, quiet]
    exact .clause index at_.waits
  · rw [Stack.level_mark, Stack.isFinal_mark]
    simp only [Level.mark, Level.tail]
    cases (machine.stack.level tree).caller?.isSome <;> simp
  · rw [Stack.deferred_mark]
    exact at_.undeferred

/-- Between the deferral of a call and the end of the frame only the ends of bodies wait. -/
inductive Unwinds (tailCalls : Bool) (tree : Expr) (caller : Stack) : List Pending → Prop where
  /-- The body of the procedure is the last one to end. -/
  | frame {pending : List Pending} {place : Place}
      (returns : At tailCalls tree caller pending place) :
      Unwinds tailCalls tree caller (.marks false false :: .frame :: pending)
  /-- A body of a branch ends within another body. -/
  | marks {pending : List Pending} (mark : Bool) (outer : Unwinds tailCalls tree caller pending) :
      Unwinds tailCalls tree caller (.marks mark false :: pending)

/-- What ends last is the body of the procedure, and then its frame. -/
theorem Unwinds.eq_append {tailCalls : Bool} {tree : Expr} {caller : Stack}
    {pending : List Pending} (unwinds : Unwinds tailCalls tree caller pending) :
    ∃ marks rest, pending = marks ++ .marks false false :: .frame :: rest ∧
      ∀ item ∈ marks, item.isMarks = true := by
  induction unwinds with
  | @frame rest _ _ => exact ⟨[], rest, rfl, by simp⟩
  | @marks _ mark _ ih =>
    obtain ⟨marks, rest, rfl, only⟩ := ih
    exact ⟨.marks mark false :: marks, rest, rfl, List.forall_mem_cons.mpr ⟨rfl, only⟩⟩

/-- A frame of a procedure is about to go on or to end. -/
structure AtFrame (tailCalls : Bool) (tree : Expr) (body : List Expr) (pending : List Pending)
    (machine : Machine) : Prop where
  frame : ∃ caller rest place, machine.stack.level tree = ⟨body, some caller⟩ ∧
    pending = .frame :: rest ∧ At tailCalls tree caller rest place
  marked : machine.stack.isFinal = false
  quiet : machine.final = false

/-- A value is handed over at a place, on the way to the end of a frame, or at its end. -/
inductive Given (tailCalls : Bool) (tree : Expr) (pending : List Pending) (machine : Machine) :
    Prop where
  /-- The value is that of a place. -/
  | place {place : Place} (at_ : At tailCalls tree machine.stack pending place)
      (quiet : machine.final = true → place.isFinal (machine.stack.level tree).code = true)
  /-- The value stands in for that of a deferred call. -/
  | unwinds {caller : Stack} {call : Call}
      (deferred : machine.stack.deferred? = some call)
      (inside : machine.stack.level tree = ⟨call.callee.body, some caller⟩)
      (unwinds : Unwinds tailCalls tree caller pending) (quiet : machine.final = false)
  /-- The value has passed the body of the procedure. -/
  | frame {body : List Expr} (frame : AtFrame tailCalls tree body pending machine)
      (deferred : ∀ call, machine.stack.deferred? = some call → call.callee.body = body)

/-- When a frame ends, no call is deferred to the frame of its caller. -/
theorem Given.undeferred_pop {tailCalls : Bool} {tree : Expr} {pending : List Pending}
    {machine : Machine} (given : Given tailCalls tree (.frame :: pending) machine)
    (undeferred : machine.stack.deferred? = none) : machine.stack.pop.deferred? = none := by
  cases given with
  | place at_ quiet => exact absurd rfl at_.waits.head_ne_frame
  | unwinds deferred => simp [undeferred] at deferred
  | frame frame deferred =>
    obtain ⟨caller, rest, place, inside, _, at_⟩ := frame.frame
    have popped : machine.stack.pop = caller := Stack.pop_of_level (by rw [inside])
    rw [popped]
    exact at_.undeferred

namespace Moment

/-- What is done next fits its place in the code, and so do the marks and what is pending. -/
def Consistent (tailCalls : Bool) (tree : Expr) : Moment → Prop
  | ⟨.evaluate place e _, pending, machine⟩ =>
    let level := machine.stack.level tree
    At tailCalls tree machine.stack pending place ∧ place.expr? level.code = some e ∧
      (machine.final = true → place.isFinal level.code = true) ∧
      (level.caller?.isSome = true → place.isFinal level.code = true → machine.final = true)
  | ⟨.operands place tail values items _, pending, machine⟩ =>
    let level := machine.stack.level tree
    At tailCalls tree machine.stack pending place ∧ tail = level.tail tailCalls place ∧
      machine.final = false ∧ ∃ done, done.length = values.length ∧
        place.expr? level.code = some (.list (done ++ items))
  | ⟨.apply place tail _ args, pending, machine⟩ =>
    let level := machine.stack.level tree
    At tailCalls tree machine.stack pending place ∧ tail = level.tail tailCalls place ∧
      machine.final = false ∧ ∃ items, items.length = args.length + 1 ∧
        place.expr? level.code = some (.list items)
  | ⟨.body place index items _, pending, machine⟩ =>
    At tailCalls tree machine.stack pending place ∧ ∃ done, done.length = index ∧
      place.body? (machine.stack.level tree).code = some (done ++ items)
  | ⟨.branches place index branches _ tail, pending, machine⟩ =>
    let level := machine.stack.level tree
    At tailCalls tree machine.stack pending place ∧ tail = level.tail tailCalls place ∧
      machine.final = false ∧ ∃ done, done.length = index ∧
        place.expr? level.code = some (.cond (done ++ branches))
  | ⟨.enter call, pending, machine⟩ =>
    AtFrame tailCalls tree call.callee.body pending machine ∧ machine.stack.deferred? = none
  | ⟨.give _, pending, machine⟩ => Given tailCalls tree pending machine
  | ⟨.stop _, _, _⟩ => True

section

variable {config : Config} {tree : Expr} {pending : List Pending} {machine : Machine}

/-- The value of a place is handed over after a step on the heap. -/
theorem consistent_proceedWith {run : Run Value} (onHeap : run.OnHeap)
    (given : Given config.tailCalls tree pending machine) :
    (proceedWith run pending machine).Consistent config.tailCalls tree := by
  refine proceed_onHeap (motive := fun t => t.Consistent config.tailCalls tree) onHeap
    (fun result heap => ?_) (fun _ _ _ => trivial)
  cases given with
  | place at_ quiet => exact .place at_ quiet
  | unwinds deferred inside unwinds quiet => exact .unwinds deferred inside unwinds quiet
  | frame frame deferred => exact .frame ⟨frame.frame, frame.marked, frame.quiet⟩ deferred

/-- The body of a branch is started with the mark of its place. -/
theorem consistent_choose {place : Place} {index : Nat} {done branches : List Branch}
    {branch : Branch} (scope : ScopeId)
    (at_ : At config.tailCalls tree machine.stack pending place)
    (quiet : machine.final = false) (count : done.length = index)
    (found : place.expr? (machine.stack.level tree).code =
      some (.cond (done ++ branch :: branches))) :
    (choose place index branch.body scope ((machine.stack.level tree).tail config.tailCalls place)
      pending machine).Consistent config.tailCalls tree := by
  refine proceed_onHeap (motive := fun t => t.Consistent config.tailCalls tree)
    (Run.onHeap_openScope scope []) (fun inner heap => ?_) (fun _ _ _ => trivial)
  have found_body : (Place.clause place index).body? (machine.stack.level tree).code =
      some branch.body := by
    subst count
    simp [Place.body?, found]
  refine ⟨at_.clause quiet index, [], rfl, ?_⟩
  simpa [Machine.mark] using found_body

/-- The operands that are left follow those that are evaluated. -/
theorem consistent_operands {place : Place} {values : List Value} {items : List Expr}
    {scope : ScopeId} {tail : Bool} {t : Moment}
    (consistent : Consistent config.tailCalls tree
      ⟨.operands place tail values items scope, pending, machine⟩)
    (follows : next config ⟨.operands place tail values items scope, pending, machine⟩ = some t) :
    t.Consistent config.tailCalls tree := by
  obtain ⟨at_, rfl, quiet, done, count, found⟩ := consistent
  match items, values with
  | [], [] =>
    cases follows
    trivial
  | [], operator :: args =>
    cases follows
    exact ⟨at_, rfl, quiet, done, count, by simpa using found⟩
  | item :: items, values =>
    cases follows
    refine ⟨⟨.operand at_.waits found count, at_.marked, at_.undeferred⟩, ?_, ?_, ?_⟩
    · simp [Place.expr?, found, ← count]
    · simp [quiet]
    · simp [Place.isFinal]

/-- The expressions of a body follow one another, and the last one is marked. -/
theorem consistent_body {place : Place} {index : Nat} {items : List Expr} {scope : ScopeId}
    {t : Moment} (consistent : Consistent config.tailCalls tree
      ⟨.body place index items scope, pending, machine⟩)
    (follows : next config ⟨.body place index items scope, pending, machine⟩ = some t) :
    t.Consistent config.tailCalls tree := by
  obtain ⟨at_, done, rfl, found⟩ := consistent
  match items with
  | [] =>
    cases follows
    refine .place at_ fun _ => ?_
    rcases Place.cases_of_body found with rfl | ⟨choice, index, rfl⟩ <;> rfl
  | [last] =>
    cases follows
    have ends : Place.isLast (machine.stack.level tree).code place done.length = true :=
      (Place.isLast_iff found).mpr (by simp)
    refine ⟨⟨.last at_.waits found (by simp), at_.marked, at_.undeferred⟩, ?_, ?_, ?_⟩
    · simp [Place.expr?, found]
    · exact fun _ => ends
    · exact fun _ _ => rfl
  | item :: another :: rest =>
    cases follows
    have goes_on : ¬Place.isLast (machine.stack.level tree).code place done.length = true := by
      rw [Place.isLast_iff found]
      simp
    refine ⟨⟨.sequence at_.waits found, at_.marked, at_.undeferred⟩, ?_, ?_, ?_⟩
    · simp [Place.expr?, found]
    · simp
    · exact fun _ ends => absurd ends goes_on

/-- The branches that are left follow those whose tests do not hold. -/
theorem consistent_branches {place : Place} {index : Nat} {branches : List Branch}
    {scope : ScopeId} {tail : Bool} {t : Moment}
    (consistent : Consistent config.tailCalls tree
      ⟨.branches place index branches scope tail, pending, machine⟩)
    (follows : next config ⟨.branches place index branches scope tail, pending, machine⟩ =
      some t) : t.Consistent config.tailCalls tree := by
  obtain ⟨at_, rfl, quiet, done, rfl, found⟩ := consistent
  match branches with
  | [] =>
    cases follows
    exact .place at_ (by simp [quiet])
  | .otherwise body :: branches =>
    cases follows
    exact consistent_choose scope at_ quiet rfl found
  | .test guard body :: branches =>
    cases follows
    refine ⟨⟨.guard at_.waits found, at_.marked, at_.undeferred⟩, ?_, ?_, ?_⟩
    · simp [Place.expr?, found, Branch.guard?]
    · simp [quiet]
    · simp [Place.isFinal]

/-- The marks that an expression finds say whether its place is in tail position. -/
theorem tail_of_consistent {place : Place} {e : Expr} {scope : ScopeId}
    (consistent : Consistent config.tailCalls tree ⟨.evaluate place e scope, pending, machine⟩) :
    (config.tailCalls && machine.stack.isFinal && machine.final) =
      (machine.stack.level tree).tail config.tailCalls place := by
  obtain ⟨at_, found, ends, final⟩ := consistent
  rw [at_.marked]
  rcases inside : (machine.stack.level tree).caller? with _ | caller
  · simp [Level.mark_eq_false inside, Level.tail, inside]
  · have same : machine.final = place.isFinal (machine.stack.level tree).code :=
      Bool.eq_iff_iff.mpr ⟨ends, final (by simp [inside])⟩
    rw [same, Level.tail_eq_marks found]

/-- Each form goes on in keeping with the places of its parts. -/
theorem consistent_evaluating {place : Place} {scope : ScopeId} {e : Expr}
    (consistent : Consistent config.tailCalls tree ⟨.evaluate place e scope, pending, machine⟩) :
    (evaluating config place scope pending machine e).Consistent config.tailCalls tree := by
  have taken := tail_of_consistent consistent
  obtain ⟨at_, found, ends, final⟩ := consistent
  have given : Given config.tailCalls tree pending machine := .place at_ ends
  cases e with
  | bool value => exact given
  | int value => exact given
  | ident name => exact consistent_proceedWith (Run.onHeap_lookup scope name) given
  | quote datum => exact consistent_proceedWith (Run.onHeap_quoted datum) given
  | list items => exact ⟨at_, taken, rfl, [], rfl, found⟩
  | define name value =>
    refine ⟨⟨.define at_.waits found, at_.marked, at_.undeferred⟩, ?_, ?_, ?_⟩
    · simp [Place.expr?, found]
    · simp
    · simp [Place.isFinal]
  | set name value =>
    refine ⟨⟨.set at_.waits found, at_.marked, at_.undeferred⟩, ?_, ?_, ?_⟩
    · simp [Place.expr?, found]
    · simp
    · simp [Place.isFinal]
  | lambda params body => exact consistent_proceedWith (Run.onHeap_close params body scope) given
  | cond branches => exact ⟨at_, taken, rfl, [], rfl, found⟩

/-- What is pending at a place in tail position is the ends of bodies, up to the frame. -/
theorem unwinds_of_tail {level : Level} {place : Place} {caller : Stack}
    (waits : Waits config.tailCalls tree level place pending)
    (inside : level.caller? = some caller) (tail : place.isTail level.code = true) :
    Unwinds config.tailCalls tree caller pending := by
  induction waits with
  | tree => simp at inside
  | call waits marked undeferred =>
    obtain rfl := Option.some.inj inside
    exact .frame ⟨waits, marked, undeferred⟩
  | clause index outer ih => exact .marks _ (ih inside tail)
  | last outer found last ih =>
    simp only [Place.isTail, Bool.and_eq_true] at tail
    exact ih inside tail.1
  | sequence outer found ih =>
    simp [Place.isTail, Place.isLast, found] at tail
  | _ => simp [Place.isTail] at tail

/-- A call that is told to be a tail call is made by a procedure, and only the ends of bodies wait
for it. -/
theorem exists_unwinds {place : Place}
    (at_ : At config.tailCalls tree machine.stack pending place)
    (is_tail : (machine.stack.level tree).tail config.tailCalls place = true) :
    ∃ caller, (machine.stack.level tree).caller? = some caller ∧
      Unwinds config.tailCalls tree caller pending := by
  rw [Level.tail, Bool.and_eq_true, Bool.and_eq_true] at is_tail
  obtain ⟨caller, inside⟩ := Option.isSome_iff_exists.mp is_tail.1.2
  exact ⟨caller, inside, unwinds_of_tail at_.waits inside is_tail.2⟩

/-- An application is replaced by its value, by a deferred call or by a frame. -/
theorem consistent_applying {place : Place} {tail : Bool} {operator : Value} {args : List Value}
    (consistent : Consistent config.tailCalls tree
      ⟨.apply place tail operator args, pending, machine⟩) :
    (applying config tail args pending machine operator).Consistent config.tailCalls tree := by
  obtain ⟨at_, tail_eq, quiet, items, count, found⟩ := consistent
  cases operator with
  | builtin procedure =>
    exact consistent_proceedWith (Run.onHeap_builtin procedure args) (.place at_ (by simp [quiet]))
  | closure callee =>
    simp only [applying]
    split
    · next is_tail =>
      rw [tail_eq] at is_tail
      obtain ⟨caller, inside, unwinds⟩ := exists_unwinds at_ is_tail
      exact .unwinds (Stack.deferred_defer _ inside) (Stack.level_defer _ rfl inside) unwinds quiet
    · split
      · exact ⟨⟨⟨_, _, _, rfl, rfl, at_⟩, rfl, quiet⟩, rfl⟩
      · trivial
  | _ => trivial

/-- The body of a procedure is started with the mark of its frame set. -/
theorem consistent_entering {call : Call}
    (consistent : Consistent config.tailCalls tree ⟨.enter call, pending, machine⟩) :
    (entering call pending machine).Consistent config.tailCalls tree := by
  obtain ⟨⟨⟨caller, rest, place, inside, rfl, at_⟩, marked, quiet⟩, undeferred⟩ := consistent
  refine proceed_onHeap (motive := fun t => t.Consistent config.tailCalls tree)
    (Run.onHeap_checkCount call) (fun _ _ => ?_) (fun _ _ _ => trivial)
  refine proceed_onHeap (motive := fun t => t.Consistent config.tailCalls tree)
    (Run.onHeap_openScope _ _) (fun scope heap => ?_) (fun _ _ _ => trivial)
  refine ⟨⟨?_, ?_, ?_⟩, [], rfl, ?_⟩
  · simp only [Machine.mark, Stack.level_mark, inside, marked, quiet]
    exact .call at_.waits at_.marked at_.undeferred
  · have set : (machine.stack.mark true).isFinal = true := by
      rw [Stack.isFinal_mark, inside]
      rfl
    simpa [Machine.mark, inside, Level.mark] using set
  · simpa [Machine.mark] using undeferred
  · simp [Machine.mark, inside, Place.body?]

/-- At the end of the body of a procedure, the frame is about to go on or to end. -/
theorem atFrame_of_marks {body : List Expr} {caller : Stack} {place : Place}
    (inside : machine.stack.level tree = ⟨body, some caller⟩)
    (at_ : At config.tailCalls tree caller pending place) :
    AtFrame config.tailCalls tree body (.frame :: pending)
      { machine.mark false with final := false } := by
  have reset : (machine.stack.mark false).isFinal = false := by
    rw [Stack.isFinal_mark, inside]
    rfl
  refine ⟨⟨caller, pending, place, ?_, rfl, at_⟩, reset, rfl⟩
  simpa [Machine.mark] using inside

/-- At the end of a body both marks are put back. -/
theorem consistent_resuming_body {place : Place} {item : Pending} {value : Value}
    (at_ : At config.tailCalls tree machine.stack (item :: pending) place)
    (body : place = .code ∨ ∃ choice index, place = .clause choice index) :
    (resuming value pending machine item).Consistent config.tailCalls tree := by
  obtain ⟨waits, marked, undeferred⟩ := at_
  generalize level_eq : machine.stack.level tree = level at waits marked
  rcases body with rfl | ⟨choice, index, rfl⟩
  · cases waits with
    | call waits marked_caller undeferred_caller =>
      refine .frame (atFrame_of_marks level_eq ⟨waits, marked_caller, undeferred_caller⟩) ?_
      simp [Machine.mark, undeferred]
  · cases waits with
    | clause _ outer =>
      have restored : (machine.stack.mark (level.mark config.tailCalls choice)).isFinal =
          level.mark config.tailCalls choice := by
        rw [Stack.isFinal_mark, level_eq]
        rcases outside : level.caller? with _ | caller
        · simp [Level.mark_eq_false outside]
        · simp
      exact .place (.of_level ((Stack.level_mark _).trans level_eq) outer restored
        ((Stack.deferred_mark _).trans undeferred)) (by simp)

/-- What waits for the value of a place goes on at the place it is about. -/
theorem consistent_resuming_place {place : Place} {item : Pending} {value : Value}
    (at_ : At config.tailCalls tree machine.stack (item :: pending) place)
    (ends : machine.final = true → place.isFinal (machine.stack.level tree).code = true) :
    (resuming value pending machine item).Consistent config.tailCalls tree := by
  obtain ⟨waits, marked, undeferred⟩ := id at_
  generalize level_eq : machine.stack.level tree = level at waits marked ends
  -- The rule by which the first thing pending fits the place tells where the value goes.
  cases waits with
  | call => exact consistent_resuming_body at_ (.inl rfl)
  | clause => exact consistent_resuming_body at_ (.inr ⟨_, _, rfl⟩)
  | last outer found last =>
    exact consistent_resuming_body (.of_level level_eq outer marked undeferred)
      (Place.cases_of_body found)
  | @sequence _ body done rest first another _ _ outer found =>
    refine ⟨.of_level level_eq outer marked undeferred, done ++ [first], by simp, ?_⟩
    simpa [level_eq] using found
  | @operand _ application done left first values _ _ outer found count =>
    have quiet : machine.final = false := by simpa [Place.isFinal] using ends
    refine ⟨.of_level level_eq outer marked undeferred, by rw [level_eq], quiet,
      done ++ [first], by simp [count], ?_⟩
    simpa [level_eq] using found
  | @define _ binding name _ scope _ outer found =>
    have quiet : machine.final = false := by simpa [Place.isFinal] using ends
    simp only [resuming]
    refine proceed_onHeap (motive := fun t => t.Consistent config.tailCalls tree)
      (Run.onHeap_define scope name value) (fun _ _ => ?_) (fun _ _ _ => trivial)
    exact .place (.of_level level_eq outer marked undeferred) (by simp [quiet])
  | @set _ binding name _ scope _ outer found =>
    have quiet : machine.final = false := by simpa [Place.isFinal] using ends
    simp only [resuming]
    refine proceed_onHeap (motive := fun t => t.Consistent config.tailCalls tree)
      (Run.onHeap_assign scope name value) (fun _ _ => ?_) (fun _ _ _ => trivial)
    exact .place (.of_level level_eq outer marked undeferred) (by simp [quiet])
  | @guard _ choice done left test body scope _ outer found =>
    have quiet : machine.final = false := by simpa [Place.isFinal] using ends
    have at_choice : At config.tailCalls tree machine.stack pending choice :=
      .of_level level_eq outer marked undeferred
    simp only [resuming]
    split
    · rw [← level_eq] at found ⊢
      exact consistent_choose scope at_choice quiet rfl found
    · refine ⟨at_choice, by rw [level_eq], quiet, done ++ [.test test body], by simp, ?_⟩
      simpa [level_eq] using found
    · trivial

/-- On the way to the end of a frame to which a call is deferred, the marks are put back. -/
theorem consistent_resuming_unwinds {caller : Stack} {call : Call} {item : Pending} {value : Value}
    (deferred : machine.stack.deferred? = some call)
    (inside : machine.stack.level tree = ⟨call.callee.body, some caller⟩)
    (unwinds : Unwinds config.tailCalls tree caller (item :: pending)) :
    (resuming value pending machine item).Consistent config.tailCalls tree := by
  cases unwinds with
  | frame returns =>
    refine .frame (atFrame_of_marks inside returns) fun other found => ?_
    simp only [Machine.mark, Stack.deferred_mark, deferred, Option.some.injEq] at found
    rw [found]
  | marks mark outer =>
    exact .unwinds ((Stack.deferred_mark _).trans deferred)
      ((Stack.level_mark _).trans inside) outer rfl

/-- At its end a frame goes on with the call that is deferred to it, or returns. -/
theorem consistent_resuming_frame {body : List Expr} {item : Pending} {value : Value}
    (frame : AtFrame config.tailCalls tree body (item :: pending) machine)
    (deferred : ∀ call, machine.stack.deferred? = some call → call.callee.body = body) :
    (resuming value pending machine item).Consistent config.tailCalls tree := by
  obtain ⟨⟨caller, rest, place, inside, eq, at_⟩, marked, quiet⟩ := frame
  obtain ⟨rfl, rfl⟩ := List.cons.inj eq
  simp only [resuming]
  split
  · next call found =>
    obtain rfl := deferred call found
    refine ⟨⟨⟨caller, _, place, ?_, rfl, at_⟩, ?_, quiet⟩, Stack.deferred_clearDeferred⟩
    · simpa using inside
    · simpa using marked
  · have popped : machine.stack.pop = caller := Stack.pop_of_level (by rw [inside])
    have at_caller : At config.tailCalls tree machine.pop.stack pending place := by
      rw [Machine.pop, popped]
      exact at_
    exact .place at_caller (by simp [Machine.pop, quiet])

/-- A step keeps everything in its place. -/
theorem Consistent.of_next {s t : Moment} (consistent : s.Consistent config.tailCalls tree)
    (follows : next config s = some t) : t.Consistent config.tailCalls tree := by
  revert consistent follows
  fun_cases next config s <;> rintro consistent ⟨⟩
  case case1 => exact consistent_evaluating consistent
  case case2 => exact consistent_operands consistent rfl
  case case3 => trivial
  case case4 => exact consistent_operands consistent rfl
  case case5 => exact consistent_applying consistent
  case case6 => exact consistent_body consistent rfl
  case case7 => exact consistent_body consistent rfl
  case case8 => exact consistent_body consistent rfl
  case case9 => exact consistent_branches consistent rfl
  case case10 => exact consistent_branches consistent rfl
  case case11 => exact consistent_branches consistent rfl
  case case12 => exact consistent_entering consistent
  case case13 value item pending machine =>
    cases consistent with
    | place at_ ends => exact consistent_resuming_place at_ ends
    | unwinds deferred inside unwinds _ => exact consistent_resuming_unwinds deferred inside unwinds
    | frame frame deferred => exact consistent_resuming_frame frame deferred
  case case14 => trivial

/-- Everything stays in its place throughout an evaluation. -/
theorem Consistent.of_reaches {s t : Moment} (consistent : s.Consistent config.tailCalls tree)
    (reached : Reaches (next config) s t) : t.Consistent config.tailCalls tree := by
  induction reached with
  | refl => exact consistent
  | tail _ follows ih => exact ih.of_next follows

/-- At the first moment everything is in its place. -/
theorem consistent_first (tailCalls : Bool) (tree : Expr) {machine : Machine}
    (rest : machine.stack = .empty) : (first tree machine).Consistent tailCalls tree := by
  have level_eq : machine.begin.stack.level tree = ⟨[tree], none⟩ := by
    rw [Machine.begin, rest]
    rfl
  have found : Place.code.body? [tree] = some [tree] := rfl
  refine ⟨.of_level level_eq (.last .tree found rfl) ?_ ?_, ?_, ?_, ?_⟩
  · simp [Machine.begin, rest, Stack.empty, Stack.isFinal, Level.mark]
  · simp [Machine.begin, rest, Stack.empty, Stack.deferred?]
  · simp [level_eq, Place.expr?, found]
  · simp [Machine.begin]
  · simp [level_eq]

/-- Without tail calls no procedure is applied in tail position. -/
theorem Consistent.isTailCall_eq {s : Moment}
    (consistent : s.Consistent config.tailCalls tree)
    (plain : config.tailCalls = false) : s.isTailCall = false := by
  obtain ⟨task, pending, machine⟩ := s
  cases task with
  | apply place tail operator args =>
    obtain ⟨_, tail_eq, _⟩ := consistent
    simpa [isTailCall, Level.tail, plain] using tail_eq
  | _ => rfl

end

end Moment

end TailScheme
