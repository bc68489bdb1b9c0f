import TailScheme.Proofs.Ancestry
import TailScheme.Proofs.Equality

/-!
# How values travel

Values reach other places as they are. What is bound is what is found, until the name is written
again (`Stage.find?_of_follows`). The body of a call sees the arguments under the parameters, and
everything else as it is seen from the scope that the closure captured (`Moment.next_enter`). A
frame hands the value of its last body to whatever waited for the call, however many calls were
deferred to it before (`Moment.Returns.reaches`). And what `cons` and `list` put into pairs is what
`car` and `cdr` take out (`Builtin.takesOut`).
-/
namespace TailScheme

open StateTransition

namespace Bindings

variable {name : String}

/-- A name is left alone when other names are bound. -/
theorem find?_bindAll_of_not_mem {entries : List (String × Value)}
    (others : name ∉ entries.map Prod.fst) (bindings : Bindings) :
    (bindAll entries bindings).find? name = bindings.find? name := by
  induction entries generalizing bindings with
  | nil => rfl
  | cons entry entries ih =>
    rw [List.map_cons, List.mem_cons, not_or] at others
    rw [bindAll, ih others.2, find?_bind, if_neg (Ne.symm others.1)]

/-- A parameter is bound to the argument at its place, the last one if there are several. -/
theorem find?_bindAll_zip {params : List String} {args : List Value} {index : Nat} {value : Value}
    (param : params[index]? = some name) (arg : args[index]? = some value)
    (last : name ∉ params.drop (index + 1)) (bindings : Bindings) :
    (bindAll (params.zip args) bindings).find? name = some value := by
  induction params generalizing args index bindings with
  | nil => cases param
  | cons first params ih =>
    cases args with
    | nil => cases arg
    | cons head args =>
      cases index with
      | zero =>
        cases param
        cases arg
        have others : name ∉ (params.zip args).map Prod.fst := by
          intro among
          obtain ⟨entry, listed, same⟩ := List.mem_map.mp among
          exact last (same ▸ (List.of_mem_zip listed).1)
        rw [List.zip_cons_cons, bindAll, find?_bindAll_of_not_mem others, find?_bind, if_pos rfl]
      | succ index => exact ih param arg last _

/-- A name that is no parameter is not bound. -/
theorem find?_bindAll_zip_of_not_mem {params : List String} {args : List Value}
    (other : name ∉ params) : (bindAll (params.zip args) []).find? name = none := by
  refine find?_bindAll_of_not_mem (fun among => other ?_) []
  obtain ⟨entry, listed, rfl⟩ := List.mem_map.mp among
  exact (List.of_mem_zip listed).1

end Bindings

/-- What a binding that is written leaves alone. -/
theorem Heap.find?_insert_of_ne {heap : Heap} {scope other : ScopeId} {name label : String}
    {value : Value} (different : ¬(scope = other ∧ name = label)) :
    ((heap.insert scope name value).locals other).find? label =
      (heap.locals other).find? label := by
  rcases Nat.lt_or_ge scope heap.scopes.size with inside | missing
  · rw [find?_insert inside, if_neg different]
  · rw [locals_insert_of_le missing]

namespace Stage

/-- From one stage to the next, a definition, an assignment or something done between evaluations
gives this value to the name in the scope. -/
inductive Writes : Stage → Stage → ScopeId → String → Value → Prop where
  | step {hand : List Value} {s t : Moment} {scope : ScopeId} {name : String} {value : Value}
      (writes : s.Writes scope name value) : Writes (busy hand s) (busy hand t) scope name value
  | insert {hand : List Value} {heap : Heap} {scope : ScopeId} {name : String} {value : Value}
      (there : scope < heap.scopes.size) :
      Writes (idle hand heap) (idle hand (heap.insert scope name value)) scope name value
  | assign {hand : List Value} {heap : Heap} {scope holder : ScopeId} {name : String}
      {value old : Value} (found : heap.find? scope name = some (holder, old)) :
      Writes (idle hand heap) (idle hand (heap.assign scope name value).2) holder name value

section

variable {config : Config} {stage after : Stage} {scope : ScopeId} {name : String} {value : Value}

/-- A binding lasts unless the same name is written in the same scope. -/
theorem find?_of_follows (follows : Follows config stage after)
    (found : (stage.heap.locals scope).find? name = some value) :
    (after.heap.locals scope).find? name = some value ∨
      ∃ other, stage.Writes after scope name other := by
  have inserted : ∀ holder label value', holder = scope ∧ label = name ∨
      ((stage.heap.insert holder label value').locals scope).find? name = some value := by
    intro holder label value'
    by_cases same : holder = scope ∧ label = name
    · exact .inl same
    · exact .inr (by rwa [Heap.find?_insert_of_ne same])
  cases follows with
  | @openScope hand heap parent there =>
    have old : scope ≠ heap.scopes.size := Nat.ne_of_lt (Heap.lt_size_of_find? found)
    exact .inl (by rwa [Stage.heap, Heap.locals_newScope, if_neg old])
  | @insert hand heap holder label value' among =>
    rcases inserted holder label value' with ⟨rfl, rfl⟩ | lasts
    · exact .inr ⟨value', .insert (Heap.lt_size_of_find? found)⟩
    · exact .inl lasts
  | @assign hand heap inner label value' among =>
    rcases answers : heap.find? inner label with _ | ⟨holder, old⟩
    · exact .inl (by simpa only [Stage.heap, Heap.assign, answers] using found)
    · rcases inserted holder label value' with ⟨rfl, rfl⟩ | lasts
      · exact .inr ⟨value', .assign answers⟩
      · exact .inl (by simpa only [Stage.heap, Heap.assign, answers] using lasts)
  | next step =>
    rcases Moment.find?_of_next step found with lasts | ⟨other, writes⟩
    · exact .inl lasts
    · exact .inr ⟨other, .step writes⟩
  | _ => exact .inl found

/-- What is written is bound. -/
theorem find?_of_writes (rooted : stage.Rooted) (follows : Follows config stage after)
    (writes : stage.Writes after scope name value) :
    (after.heap.locals scope).find? name = some value := by
  cases writes with
  | step writes =>
    cases follows with
    | next step => exact Moment.find?_of_writes (rooted.anchored _ _ rfl) writes step
  | insert there =>
    rw [Stage.heap, Heap.find?_insert there, if_pos ⟨rfl, rfl⟩]
  | assign answers =>
    have there := (rooted.forest.holder_of_find? _ answers).binds.lt_size
    simp only [Stage.heap, Heap.assign, answers] at there ⊢
    rw [Heap.find?_insert there, if_pos ⟨rfl, rfl⟩]

end

end Stage

namespace Moment

/-- A call that was started in a frame comes to a value: its body gives the value while no call is
deferred to the frame, or some call is deferred when its body ends, and that call comes to the
value. The number counts the calls that were deferred. -/
inductive Returns (config : Config) (pending : List Pending) (value : Value) :
    Nat → Call → Machine → Machine → Prop where
  | last {call : Call} {machine after : Machine}
      (body : Reaches (next config) ⟨.enter call, .frame :: pending, machine⟩
        ⟨.give value, .frame :: pending, after⟩)
      (none_deferred : after.stack.deferred? = none) :
      Returns config pending value 0 call machine after
  | tailCall {count : Nat} {call following : Call} {unused : Value}
      {machine between after : Machine}
      (body : Reaches (next config) ⟨.enter call, .frame :: pending, machine⟩
        ⟨.give unused, .frame :: pending, between⟩)
      (deferred : between.stack.deferred? = some following)
      (rest : Returns config pending value count following
        { between with stack := between.stack.clearDeferred } after) :
      Returns config pending value (count + 1) call machine after

/-- The operands that are left give their values one after the other, each on the machine that the
one before it left; with the values before them, these are the results. -/
inductive Gathers (config : Config) (place : Place) (tail : Bool) (scope : ScopeId)
    (pending : List Pending) :
    List Value → List Expr → Machine → List Value → Machine → Prop where
  | done {values : List Value} {machine : Machine} :
      Gathers config place tail scope pending values [] machine values machine
  | more {values results : List Value} {item : Expr} {items : List Expr} {value : Value}
      {machine between after : Machine}
      (evaluates : Reaches (next config)
        ⟨.evaluate (.operand place values.length) item scope,
          .operands place tail values items scope :: pending, machine⟩
        ⟨.give value, .operands place tail values items scope :: pending, between⟩)
      (rest : Gathers config place tail scope pending (values ++ [value]) items between results
        after) :
      Gathers config place tail scope pending values (item :: items) machine results after

section

variable {config : Config} {pending : List Pending} {value : Value} {machine after : Machine}

/-- The first value of an application is applied to the others. -/
theorem Gathers.reaches {place : Place} {tail : Bool} {scope : ScopeId} {values args : List Value}
    {items : List Expr} {operator : Value}
    (gathers : Gathers config place tail scope pending values items machine (operator :: args)
      after) :
    Reaches (next config) ⟨.operands place tail values items scope, pending, machine⟩
      ⟨.apply place tail operator args, pending, after⟩ := by
  generalize results_eq : operator :: args = results at gathers
  induction gathers with
  | done =>
    subst results_eq
    exact .single rfl
  | more evaluates _ ih =>
    have goes_on := ih results_eq
    exact .head rfl (evaluates.trans (.head rfl goes_on))

/-- Whatever waited for a call gets the value to which the call comes. -/
theorem Returns.reaches {count : Nat} {call : Call}
    (returns : Returns config pending value count call machine after) :
    Reaches (next config) ⟨.enter call, .frame :: pending, machine⟩
      ⟨.give value, pending, after.pop⟩ := by
  induction returns with
  | last body none_deferred => exact body.tail (next_frame_of_none none_deferred)
  | tailCall body deferred _ ih =>
    exact (body.tail (next_frame_of_some deferred)).trans ih

/-- The name evaluates to what the scope that answers for it binds it to. -/
theorem next_ident {place : Place} {name : String} {scope holder : ScopeId}
    (forest : machine.heap.Forest) (held : machine.heap.Holder name scope holder)
    (bound : (machine.heap.locals holder).find? name = some value) :
    next config ⟨.evaluate place (.ident name) scope, pending, machine⟩ =
      some ⟨.give value, pending, machine⟩ := by
  have found : machine.heap.lookup scope name = some value := (held.lookup_eq forest).trans bound
  simp only [next, evaluating, proceedWith, proceed, Run.lookup, found]

/-- A call of the right number of arguments starts its body in a scope of its own, from which the
parameters are the arguments and every other name is what it is from the scope that the closure
captured. -/
theorem next_enter {call : Call} (forest : machine.heap.Forest)
    (there : call.callee.scope < machine.heap.scopes.size)
    (fits : call.args.length = call.callee.params.length) :
    ∃ t inner, next config ⟨.enter call, pending, machine⟩ = some t ∧
      t.task = .body .code 0 call.callee.body inner ∧
      (∀ index name arg, call.callee.params[index]? = some name → call.args[index]? = some arg →
        name ∉ call.callee.params.drop (index + 1) →
        t.machine.heap.lookup inner name = some arg) ∧
      ∀ name ∉ call.callee.params,
        t.machine.heap.lookup inner name = machine.heap.lookup call.callee.scope name := by
  let bindings := Bindings.bindAll (call.callee.params.zip call.args) []
  let opened := (machine.heap.newScope (some call.callee.scope) bindings).2
  have seen : ∀ name, opened.lookup machine.heap.scopes.size name =
      (bindings.find? name).or (machine.heap.lookup call.callee.scope name) :=
    fun name => forest.lookup_newScope there bindings
  have step : next config ⟨.enter call, pending, machine⟩ =
      some (start .code call.callee.body machine.heap.scopes.size true pending
        { machine with heap := opened }) := by
    simp only [next, entering, proceed, checkCount, if_pos fits]
    rfl
  refine ⟨_, machine.heap.scopes.size, step, rfl, fun index name arg param passed last => ?_,
    fun name other => ?_⟩
  · refine (seen name).trans ?_
    rw [Bindings.find?_bindAll_zip param passed last, Option.some_or]
  · refine (seen name).trans ?_
    rw [Bindings.find?_bindAll_zip_of_not_mem other, Option.none_or]

/-- A call that is not refused starts in a frame of its own, or the frame of its caller goes on with
it: with the procedure that was applied and with its arguments. -/
theorem next_apply_closure {place : Place} {tail : Bool} {callee : Closure} {args : List Value}
    {t : Moment} (runs : tail = true → machine.stack.frames ≠ [])
    (follows : next config ⟨.apply place tail (.closure callee) args, pending, machine⟩ = some t) :
    t.task = .enter ⟨callee, args⟩ ∨ t.machine.stack.deferred? = some ⟨callee, args⟩ ∨
      t.task = .stop (.failed (.callDepthExceeded config.maxDepth)) := by
  cases follows
  simp only [applying]
  split
  · next in_tail =>
    obtain ⟨heap, ⟨frames, depth, counted⟩, final, peak, deferrals⟩ := machine
    cases frames with
    | nil => exact absurd rfl (runs in_tail)
    | cons top rest => exact .inr (.inl rfl)
  · split
    · exact .inl rfl
    · exact .inr (.inr rfl)

end

end Moment

/-- Values are conveyed as they are from this moment on, whatever it does next: a name evaluates to
what it is bound to, the values of operands become the arguments, a procedure is called with them,
its body finds them under the parameters and finds everything else as the closure captured it, and
the value of the last body is what the caller gets. -/
structure Moment.Conveys (config : Config) (s : Moment) : Prop where
  found : ∀ place name scope holder value, s.task = .evaluate place (.ident name) scope →
    s.machine.heap.Holder name scope holder →
    (s.machine.heap.locals holder).find? name = some value →
    next config s = some ⟨.give value, s.pending, s.machine⟩
  gathered : ∀ place tail items scope operator args after,
    s.task = .operands place tail [] items scope →
    Gathers config place tail scope s.pending [] items s.machine (operator :: args) after →
    Reaches (next config) s ⟨.apply place tail operator args, s.pending, after⟩
  applied : ∀ place tail callee args t, s.task = .apply place tail (.closure callee) args →
    (tail = true → s.machine.stack.frames ≠ []) → next config s = some t →
    t.task = .enter ⟨callee, args⟩ ∨ t.machine.stack.deferred? = some ⟨callee, args⟩ ∨
      t.task = .stop (.failed (.callDepthExceeded config.maxDepth))
  entered : ∀ call, s.task = .enter call → call.args.length = call.callee.params.length →
    ∃ t inner, next config s = some t ∧ t.task = .body .code 0 call.callee.body inner ∧
      (∀ index name arg, call.callee.params[index]? = some name → call.args[index]? = some arg →
        name ∉ call.callee.params.drop (index + 1) →
        t.machine.heap.lookup inner name = some arg) ∧
      ∀ name ∉ call.callee.params,
        t.machine.heap.lookup inner name = s.machine.heap.lookup call.callee.scope name
  returned : ∀ call pending count value after, s.task = .enter call →
    s.pending = .frame :: pending → Returns config pending value count call s.machine after →
    Reaches (next config) s ⟨.give value, pending, after.pop⟩

/-- Values are conveyed in a forest of scopes in which those of the closures are. -/
theorem Moment.conveys (config : Config) {s : Moment} (forest : s.machine.heap.Forest)
    (there : ∀ call, s.task = .enter call → call.callee.scope < s.machine.heap.scopes.size) :
    s.Conveys config := by
  obtain ⟨task, pending, machine⟩ := s
  constructor
  · rintro place name scope holder value rfl held bound
    exact next_ident forest held bound
  · rintro place tail items scope operator args after rfl gathers
    exact gathers.reaches
  · rintro place tail callee args t rfl runs follows
    exact next_apply_closure runs follows
  · rintro call rfl fits
    exact next_enter forest (there call rfl) fits
  · rintro call pending count value after rfl rfl returns
    exact returns.reaches

namespace Builtin

/-- Applying the builtin to these arguments gives the value and changes nothing. -/
def Gives (config : Config) (procedure : Builtin) (args : List Value) (value : Value) : Prop :=
  ∀ place tail pending machine,
    Moment.next config ⟨.apply place tail (.builtin procedure) args, pending, machine⟩ =
      some ⟨.give value, pending, machine⟩

/-- Every value is `eq?` to itself; what `cons` put into a pair is taken out by `car` and `cdr`; and
from the list that `list` made, `cdr` as often as one likes and then `car` takes the value at that
place, and the last `cdr` gives the empty list. -/
structure TakesOut (config : Config) : Prop where
  identical : ∀ value, Gives config .identical [value, value] (.bool true)
  cons : ∀ first second place tail pending machine, ∃ pair after,
    Moment.next config
        ⟨.apply place tail (.builtin .cons) [first, second], pending, machine⟩ =
      some ⟨.give pair, pending, after⟩ ∧
    Gives config .car [pair] first ∧ Gives config .cdr [pair] second
  list : ∀ values place tail pending machine, ∃ (cell : Nat → Value) (after : Machine),
    Moment.next config ⟨.apply place tail (.builtin .list) values, pending, machine⟩ =
      some ⟨.give (cell 0), pending, after⟩ ∧
    (∀ index value, values[index]? = some value →
      Gives config .car [cell index] value ∧ Gives config .cdr [cell index] (cell (index + 1))) ∧
    cell values.length = .nil

/-- What the builtins put into pairs they take out as it is. -/
theorem takesOut (config : Config) : TakesOut config where
  identical value place tail pending machine := by
    have compared : Moment.next config
        ⟨.apply place tail (.builtin .identical) [value, value], pending, machine⟩ =
      some ⟨.give (.bool (value.identical value)), pending, machine⟩ := rfl
    rw [compared, Value.identical_refl]
  cons first second place tail pending machine :=
    ⟨.pair machine.heap.pairs first second, _, rfl, fun _ _ _ _ => rfl, fun _ _ _ _ => rfl⟩
  list values place tail pending machine := by
    let cell : Nat → Value := fun index => Value.chain machine.heap.pairs (values.drop index)
    have made : Builtin.list.apply values machine.heap.pairs =
        .ok (cell 0, machine.heap.pairs + values.length) := Value.ofList_eq _ values
    refine ⟨cell, _, Moment.next_of_makes .builtin made, fun index value at_place => ?_, ?_⟩
    · obtain ⟨inside, rfl⟩ := List.getElem?_eq_some_iff.mp at_place
      have cell_eq : cell index = .pair (machine.heap.pairs + (values.length - (index + 1)))
          values[index] (cell (index + 1)) := Value.chain_drop inside
      rw [cell_eq]
      exact ⟨fun _ _ _ _ => rfl, fun _ _ _ _ => rfl⟩
    · change Value.chain _ (values.drop values.length) = .nil
      rw [List.drop_length]
      rfl

end Builtin

end TailScheme
