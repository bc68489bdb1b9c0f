import TailScheme.Proofs.Scopes
import TailScheme.Proofs.Parts

/-!
# What a moment has and what a step adds

A moment of an evaluation has the values of its task, those that are kept in what waits, those of
the frames on the stack and those that are bound (`Moment.Has`). A step takes them on. What it adds
is an atom, or the result of a quote or a builtin (`Moment.Makes`), or a new closure
(`Moment.Closes`): a property that all of these have lasts (`Moment.All.of_next`).

The heap is altered in four ways (`Moment.Alters`): pairs are made, a closure is made, a scope is
opened within another one, or a binding is written. No step does two of these.
-/
namespace TailScheme

open StateTransition

/-- The values that a task is about. -/
def Task.values : Task → List Value
  | .operands _ _ values _ _ => values
  | .apply _ _ operator args => operator :: args
  | .enter call => .closure call.callee :: call.args
  | .give value => [value]
  | .evaluate _ _ _ | .body _ _ _ _ | .branches _ _ _ _ _ | .stop _ => []

/-- The values that are kept in what waits. -/
def Pending.values : Pending → List Value
  | .operands _ _ values _ _ => values
  | _ => []

/-- The values that a frame keeps: the procedure that runs in it, and the call that it goes on
with. -/
def Frame.values (frame : Frame) : List Value :=
  .closure frame.running ::
    frame.deferred.toList.flatMap fun call => .closure call.callee :: call.args

namespace Stack

variable {good : Value → Prop} {stack : Stack} {running : Closure} {call : Call}

/-- All values that the frames keep are good. -/
def Keeps (good : Value → Prop) (stack : Stack) : Prop :=
  ∀ frame ∈ stack.frames, ∀ value ∈ frame.values, good value

/-- A good procedure may start. -/
theorem Keeps.push (keeps : stack.Keeps good) (is_good : good (.closure running)) :
    (stack.push running).Keeps good :=
  List.forall_mem_cons.mpr ⟨List.forall_mem_singleton.mpr is_good, keeps⟩

/-- Ending a frame leaves the others. -/
theorem Keeps.pop (keeps : stack.Keeps good) : stack.pop.Keeps good :=
  fun frame among => keeps frame (List.mem_of_mem_tail among)

/-- A change of the innermost frame leaves all values good if those of this frame are. -/
theorem Keeps.onTop {change : Frame → Frame} (keeps : stack.Keeps good)
    (changed : ∀ frame ∈ stack.frames, ∀ value ∈ (change frame).values, good value) :
    (stack.onTop change).Keeps good := by
  obtain ⟨frames, depth, counted⟩ := stack
  cases frames with
  | nil => exact keeps
  | cons top rest =>
    refine List.forall_mem_cons.mpr ⟨changed top List.mem_cons_self, ?_⟩
    exact fun frame among => keeps frame (List.mem_cons_of_mem top among)

/-- Marks are no values. -/
theorem Keeps.mark (keeps : stack.Keeps good) (final : Bool) : (stack.mark final).Keeps good :=
  keeps.onTop keeps

/-- A call of a good procedure with good arguments may be deferred. -/
theorem Keeps.defer (keeps : stack.Keeps good) (callee_good : good (.closure call.callee))
    (args_good : ∀ arg ∈ call.args, good arg) : (stack.defer call).Keeps good := by
  refine keeps.onTop fun _ _ => List.forall_mem_cons.mpr ⟨callee_good, ?_⟩
  simpa using ⟨callee_good, args_good⟩

/-- Taking a deferred call up leaves the procedure that runs. -/
theorem Keeps.clearDeferred (keeps : stack.Keeps good) : stack.clearDeferred.Keeps good := by
  refine keeps.onTop fun frame running => ?_
  have running_good := (List.forall_mem_cons.mp (keeps frame running)).1
  exact List.forall_mem_singleton.mpr running_good

/-- The procedure and the arguments of the call that is deferred to the innermost frame are good. -/
theorem Keeps.deferred? (keeps : stack.Keeps good) (deferred : stack.deferred? = some call) :
    ∀ value ∈ (Task.enter call).values, good value := by
  obtain ⟨frames, depth, counted⟩ := stack
  cases frames with
  | nil => cases deferred
  | cons top rest =>
    have waits : top.deferred = some call := deferred
    intro value among
    refine keeps top List.mem_cons_self value (List.mem_cons_of_mem _ ?_)
    simpa [waits, Task.values] using among

end Stack

namespace Moment

/-- The values that a moment has. -/
inductive Has (s : Moment) : Value → Prop where
  | task {value : Value} (among : value ∈ s.task.values) : Has s value
  | pending {item : Pending} {value : Value} (waits : item ∈ s.pending)
      (among : value ∈ item.values) : Has s value
  | frame {frame : Frame} {value : Value} (running : frame ∈ s.machine.stack.frames)
      (among : value ∈ frame.values) : Has s value
  | bound {scope : ScopeId} {name : String} {value : Value}
      (among : (name, value) ∈ s.machine.heap.locals scope) : Has s value

/-- A quote or a builtin is executed, and this computation with pairs gives the result. -/
inductive Makes : Moment → Value.Making Value → Prop where
  | quote {place : Place} {datum : Expr} {scope : ScopeId} {pending : List Pending}
      {machine : Machine} :
      Makes ⟨.evaluate place (.quote datum) scope, pending, machine⟩ datum.quoted
  | builtin {place : Place} {tail : Bool} {procedure : Builtin} {args : List Value}
      {pending : List Pending} {machine : Machine} :
      Makes ⟨.apply place tail (.builtin procedure) args, pending, machine⟩
        (procedure.apply args)

/-- A `lambda` is evaluated, which makes this closure. -/
inductive Closes : Moment → Closure → Prop where
  | lambda {place : Place} {params : List String} {body : List Expr} {scope : ScopeId}
      {pending : List Pending} {machine : Machine} :
      Closes ⟨.evaluate place (.lambda params body) scope, pending, machine⟩
        ⟨machine.heap.names.size, params, body, scope⟩

/-- A scope with these bindings is opened within another one: for the body of a call, or for the
body of a branch. -/
inductive Opens : Moment → ScopeId → Bindings → Prop where
  | call {call : Call} {pending : List Pending} {machine : Machine}
      (fits : call.args.length = call.callee.params.length) :
      Opens ⟨.enter call, pending, machine⟩ call.callee.scope
        (Bindings.bindAll (call.callee.params.zip call.args) [])
  | otherwise {place : Place} {index : Nat} {body : List Expr} {branches : List Branch}
      {scope : ScopeId} {tail : Bool} {pending : List Pending} {machine : Machine} :
      Opens ⟨.branches place index (.otherwise body :: branches) scope tail, pending, machine⟩
        scope []
  | chosen {place : Place} {index : Nat} {body : List Expr} {branches : List Branch}
      {scope : ScopeId} {tail : Bool} {pending : List Pending} {machine : Machine} :
      Opens ⟨.give (.bool true), .choose place index body branches scope tail :: pending, machine⟩
        scope []

/-- What a step does to the heap. -/
inductive Alters (s : Moment) : Heap → Prop where
  | keep : Alters s s.machine.heap
  | make {make : Value.Making Value} {value : Value} {pairs : Nat} (makes : s.Makes make)
      (made : make s.machine.heap.pairs = .ok (value, pairs)) :
      Alters s { s.machine.heap with pairs }
  | close {procedure : Closure} (closes : s.Closes procedure) :
      Alters s { s.machine.heap with names := s.machine.heap.names.push none }
  | openScope {parent : ScopeId} {bindings : Bindings} (opens : s.Opens parent bindings) :
      Alters s (s.machine.heap.newScope (some parent) bindings).2
  | write {scope : ScopeId} {name : String} {value : Value} (writes : s.Writes scope name value) :
      Alters s ((s.machine.heap.giveName value name).insert scope name value)

/-- All values that a moment has are good. -/
structure All (good : Value → Prop) (s : Moment) : Prop where
  task : ∀ value ∈ s.task.values, good value
  pending : ∀ item ∈ s.pending, ∀ value ∈ item.values, good value
  stack : s.machine.stack.Keeps good
  heap : s.machine.heap.All good

/-- What a step may add to the values of a moment is good. -/
structure Adds (good : Value → Prop) (s : Moment) : Prop where
  atom : ∀ value, value.isObject = false → good value
  made : ∀ make value pairs, s.Makes make → make s.machine.heap.pairs = .ok (value, pairs) →
    good value
  closed : ∀ procedure, s.Closes procedure → good (.closure procedure)

/-- All values of a moment are good if each one that it has is. -/
theorem all_iff {good : Value → Prop} {s : Moment} : s.All good ↔ ∀ value, s.Has value → good value
    where
  mp all value has := by
    cases has with
    | task among => exact all.task _ among
    | pending waits among => exact all.pending _ waits _ among
    | frame running among => exact all.stack _ running _ among
    | bound among => exact all.heap _ _ among
  mpr each :=
    ⟨fun _ among => each _ (.task among), fun _ waits _ among => each _ (.pending waits among),
      fun _ running _ among => each _ (.frame running among),
      fun _ _ among => each _ (.bound among)⟩

end Moment

namespace Moment

section

variable {config : Config} {good : Value → Prop} {pending : List Pending} {machine : Machine}

/-- Handing over what a computation with pairs makes. -/
theorem all_making {make : Value.Making Value}
    (made : ∀ value pairs, make machine.heap.pairs = .ok (value, pairs) → good value)
    (waits : ∀ item ∈ pending, ∀ value ∈ item.values, good value)
    (keeps : machine.stack.Keeps good) (bound : machine.heap.All good) :
    (proceedWith (Run.making make) pending machine).All good := by
  unfold proceedWith proceed Run.making
  rcases outcome : make machine.heap.pairs with error | ⟨value, pairs⟩
  · exact ⟨List.forall_mem_nil _, waits, keeps, bound⟩
  · have value_good := made value pairs outcome
    exact ⟨List.forall_mem_singleton.mpr value_good, waits, keeps, bound.of_scopes rfl⟩

/-- The first step of an expression adds a value at most. -/
theorem all_evaluating {place : Place} {e : Expr} {scope : ScopeId}
    (adds : Adds good ⟨.evaluate place e scope, pending, machine⟩)
    (waits : ∀ item ∈ pending, ∀ value ∈ item.values, good value)
    (keeps : machine.stack.Keeps good) (bound : machine.heap.All good) :
    (evaluating config place scope pending machine e).All good := by
  have gives : ∀ {value}, good value → ∀ item ∈ [value], good item :=
    List.forall_mem_singleton.mpr
  cases e with
  | bool value => exact ⟨gives (adds.atom _ rfl), waits, keeps, bound⟩
  | int value => exact ⟨gives (adds.atom _ rfl), waits, keeps, bound⟩
  | ident name =>
    simp only [evaluating, proceedWith, proceed, Run.lookup]
    rcases found : machine.heap.lookup scope name with _ | value
    · exact ⟨List.forall_mem_nil _, waits, keeps, bound⟩
    · exact ⟨gives (bound.lookup found), waits, keeps, bound⟩
  | quote datum =>
    exact all_making (fun value pairs => adds.made _ value pairs .quote) waits keeps bound
  | list items => exact ⟨List.forall_mem_nil _, waits, keeps, bound⟩
  | define name value =>
    exact ⟨List.forall_mem_nil _, List.forall_mem_cons.mpr ⟨List.forall_mem_nil _, waits⟩, keeps,
      bound⟩
  | set name value =>
    exact ⟨List.forall_mem_nil _, List.forall_mem_cons.mpr ⟨List.forall_mem_nil _, waits⟩, keeps,
      bound⟩
  | lambda params body =>
    exact ⟨gives (adds.closed _ .lambda), waits, keeps, bound.of_scopes rfl⟩
  | cond branches => exact ⟨List.forall_mem_nil _, waits, keeps, bound⟩

/-- Applying a procedure takes its arguments on or gives its result. -/
theorem all_applying {place : Place} {tail : Bool} {operator : Value} {args : List Value}
    (adds : Adds good ⟨.apply place tail operator args, pending, machine⟩)
    (all : ∀ value ∈ operator :: args, good value)
    (waits : ∀ item ∈ pending, ∀ value ∈ item.values, good value)
    (keeps : machine.stack.Keeps good) (bound : machine.heap.All good) :
    (applying config tail args pending machine operator).All good := by
  obtain ⟨operator_good, args_good⟩ := List.forall_mem_cons.mp all
  cases operator with
  | builtin procedure =>
    exact all_making (fun value pairs => adds.made _ value pairs .builtin) waits keeps bound
  | closure callee =>
    simp only [applying]
    split
    · exact ⟨List.forall_mem_singleton.mpr (adds.atom _ rfl), waits,
        keeps.defer operator_good args_good, bound⟩
    · split
      · exact ⟨all, List.forall_mem_cons.mpr ⟨List.forall_mem_nil _, waits⟩,
          keeps.push operator_good, bound⟩
      · exact ⟨List.forall_mem_nil _, waits, keeps, bound⟩
  | _ => exact ⟨List.forall_mem_nil _, waits, keeps, bound⟩

/-- A body in a scope of its own has no other values than those that are bound there. -/
theorem all_start {place : Place} {items : List Expr} {parent : ScopeId} {bindings : Bindings}
    {final : Bool} (bindings_good : bindings.All good)
    (waits : ∀ item ∈ pending, ∀ value ∈ item.values, good value)
    (keeps : machine.stack.Keeps good) (bound : machine.heap.All good) :
    (start place items (machine.heap.newScope (some parent) bindings).1 final pending
      { machine with heap := (machine.heap.newScope (some parent) bindings).2 }).All good :=
  ⟨List.forall_mem_nil _, List.forall_mem_cons.mpr ⟨List.forall_mem_nil _, waits⟩,
    keeps.mark final, bound.newScope bindings_good⟩

/-- Starting a call binds the arguments. -/
theorem all_entering {call : Call} (args_good : ∀ arg ∈ call.args, good arg)
    (waits : ∀ item ∈ pending, ∀ value ∈ item.values, good value)
    (keeps : machine.stack.Keeps good) (bound : machine.heap.All good) :
    (entering call pending machine).All good := by
  by_cases fits : call.args.length = call.callee.params.length
  · have bindings_good : (Bindings.bindAll (call.callee.params.zip call.args) []).All good :=
      .bindAll (fun entry among => args_good _ (List.of_mem_zip among).2) (List.forall_mem_nil _)
    simp only [entering, proceed, checkCount, if_pos fits]
    exact all_start bindings_good waits keeps bound
  · simp only [entering, proceed, checkCount, if_neg fits]
    exact ⟨List.forall_mem_nil _, waits, keeps, bound⟩

/-- What waits for a value takes it on, binds it, or gives an atom in its place. -/
theorem all_resuming {value : Value} {item : Pending} (nil_good : good .nil)
    (value_good : good value) (item_good : ∀ value ∈ item.values, good value)
    (waits : ∀ item ∈ pending, ∀ value ∈ item.values, good value)
    (keeps : machine.stack.Keeps good) (bound : machine.heap.All good) :
    (resuming value pending machine item).All good := by
  have gives_nil : ∀ value ∈ [Value.nil], good value := List.forall_mem_singleton.mpr nil_good
  cases item with
  | operands place tail values items scope =>
    have all_good : ∀ member ∈ values ++ [value], good member :=
      List.forall_mem_append.mpr ⟨item_good, List.forall_mem_singleton.mpr value_good⟩
    exact ⟨all_good, waits, keeps, bound⟩
  | define name scope =>
    exact ⟨gives_nil, waits, keeps, (bound.of_scopes Heap.scopes_giveName).insert value_good⟩
  | set name scope =>
    have assigned : (machine.heap.assign scope name value).2.All good := bound.assign value_good
    simp only [resuming, proceed, Run.assign]
    generalize machine.heap.assign scope name value = outcome at assigned
    obtain ⟨_ | _, heap⟩ := outcome
    · exact ⟨List.forall_mem_nil _, waits, keeps, assigned⟩
    · exact ⟨gives_nil, waits, keeps, assigned.of_scopes Heap.scopes_giveName⟩
  | choose place index body branches scope tail =>
    simp only [resuming]
    split
    · exact all_start (List.forall_mem_nil _) waits keeps bound
    · exact ⟨List.forall_mem_nil _, waits, keeps, bound⟩
    · exact ⟨List.forall_mem_nil _, waits, keeps, bound⟩
  | sequence place index items scope => exact ⟨List.forall_mem_nil _, waits, keeps, bound⟩
  | marks frame own =>
    exact ⟨List.forall_mem_singleton.mpr value_good, waits, keeps.mark frame, bound⟩
  | frame =>
    simp only [resuming]
    split
    · next call deferred =>
      exact ⟨keeps.deferred? deferred, List.forall_mem_cons.mpr ⟨List.forall_mem_nil _, waits⟩,
        keeps.clearDeferred, bound⟩
    · exact ⟨List.forall_mem_singleton.mpr value_good, waits, keeps.pop, bound⟩

/-- What all values of a moment are, and what a step may add, are all values of the next moment. -/
theorem All.of_next {s t : Moment} (all : s.All good) (adds : s.Adds good)
    (follows : next config s = some t) : t.All good := by
  obtain ⟨task, waits, keeps, bound⟩ := all
  have gives_nil : ∀ value ∈ [Value.nil], good value :=
    List.forall_mem_singleton.mpr (adds.atom _ rfl)
  revert follows
  fun_cases next config s <;> rintro ⟨⟩
  case case1 => exact all_evaluating adds waits keeps bound
  case case2 =>
    exact ⟨List.forall_mem_nil _, List.forall_mem_cons.mpr ⟨task, waits⟩, keeps, bound⟩
  case case3 => exact ⟨List.forall_mem_nil _, waits, keeps, bound⟩
  case case4 => exact ⟨task, waits, keeps, bound⟩
  case case5 => exact all_applying adds task waits keeps bound
  case case6 => exact ⟨gives_nil, waits, keeps, bound⟩
  case case7 => exact ⟨List.forall_mem_nil _, waits, keeps, bound⟩
  case case8 =>
    exact ⟨List.forall_mem_nil _, List.forall_mem_cons.mpr ⟨List.forall_mem_nil _, waits⟩, keeps,
      bound⟩
  case case9 => exact ⟨gives_nil, waits, keeps, bound⟩
  case case10 => exact all_start (List.forall_mem_nil _) waits keeps bound
  case case11 =>
    exact ⟨List.forall_mem_nil _, List.forall_mem_cons.mpr ⟨List.forall_mem_nil _, waits⟩, keeps,
      bound⟩
  case case12 => exact all_entering (List.forall_mem_cons.mp task).2 waits keeps bound
  case case13 =>
    obtain ⟨item_good, others_good⟩ := List.forall_mem_cons.mp waits
    have value_good := List.forall_mem_singleton.mp task
    exact all_resuming (adds.atom _ rfl) value_good item_good others_good keeps bound
  case case14 cause item pending machine =>
    obtain ⟨-, others_good⟩ := List.forall_mem_cons.mp waits
    cases item with
    | frame => exact ⟨List.forall_mem_nil _, others_good, keeps.pop, bound⟩
    | _ => exact ⟨List.forall_mem_nil _, others_good, keeps, bound⟩

/-- Making pairs alters the stamps alone. -/
theorem alters_making {s : Moment} {make : Value.Making Value} (makes : s.Makes make) :
    s.Alters (proceedWith (Run.making make) pending s.machine).machine.heap := by
  simp only [proceedWith, proceed, Run.making]
  rcases outcome : make s.machine.heap.pairs with error | ⟨value, pairs⟩
  · exact .keep
  · exact .make makes outcome

/-- What the first step of an expression does to the heap. -/
theorem alters_evaluating (place : Place) (e : Expr) (scope : ScopeId) :
    Alters ⟨.evaluate place e scope, pending, machine⟩
      (evaluating config place scope pending machine e).machine.heap := by
  cases e with
  | ident name =>
    simp only [evaluating, proceedWith, proceed, Run.lookup]
    cases machine.heap.lookup scope name <;> exact .keep
  | quote datum => exact alters_making .quote
  | lambda params body => exact .close .lambda
  | _ => exact .keep

/-- What applying a procedure does to the heap. -/
theorem alters_applying (place : Place) (tail : Bool) (operator : Value) (args : List Value) :
    Alters ⟨.apply place tail operator args, pending, machine⟩
      (applying config tail args pending machine operator).machine.heap := by
  cases operator with
  | builtin procedure => exact alters_making .builtin
  | closure callee =>
    simp only [applying]
    split
    · exact .keep
    · split <;> exact .keep
  | _ => exact .keep

/-- What starting a call does to the heap. -/
theorem alters_entering (call : Call) :
    Alters ⟨.enter call, pending, machine⟩ (entering call pending machine).machine.heap := by
  by_cases fits : call.args.length = call.callee.params.length
  · simp only [entering, proceed, checkCount, if_pos fits]
    exact .openScope (.call fits)
  · simp only [entering, proceed, checkCount, if_neg fits]
    exact .keep

/-- What the receiver of a value does to the heap. -/
theorem alters_resuming (value : Value) (item : Pending) :
    Alters ⟨.give value, item :: pending, machine⟩
      (resuming value pending machine item).machine.heap := by
  cases item with
  | define name scope => exact .write .define
  | set name scope =>
    rcases found : machine.heap.find? scope name with _ | ⟨holder, old⟩
    · simp only [resuming, proceed, Run.assign, Heap.assign, found]
      exact .keep
    · have written : (machine.heap.insert holder name value).giveName value name =
          (machine.heap.giveName value name).insert holder name value := by
        cases value <;> rfl
      simp only [resuming, proceed, Run.assign, Heap.assign, found, if_pos, written]
      exact .write (.set found)
  | choose place index body branches scope tail =>
    simp only [resuming]
    split
    · exact .openScope .chosen
    · exact .keep
    · exact .keep
  | frame =>
    simp only [resuming]
    split <;> exact .keep
  | _ => exact .keep

/-- What a step does to the heap. -/
theorem alters_of_next {s t : Moment} (follows : next config s = some t) :
    s.Alters t.machine.heap := by
  revert follows
  fun_cases next config s <;> rintro ⟨⟩
  case case1 place e scope pending machine => exact alters_evaluating place e scope
  case case5 place tail operator args pending machine =>
    exact alters_applying place tail operator args
  case case10 => exact .openScope .otherwise
  case case12 call pending machine => exact alters_entering call
  case case13 value item pending machine => exact alters_resuming value item
  case case14 cause item pending machine => cases item <;> exact .keep
  all_goals exact .keep

end

end Moment

end TailScheme
