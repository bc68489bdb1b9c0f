import TailScheme.Proofs.Contents
import TailScheme.Proofs.Expansion
import TailScheme.Proofs.Histories

/-!
# What evaluation keeps

Some properties of a program last for as long as it runs: that only expanded code is evaluated, or
that no name has a line end in it. Such a property asks something of code, and with it something of
the values that a machine holds, of the names that closures are given, and of the failures that
evaluation stops with. These are put together as a `Regime`. A regime is closed (`Regime.Closed`) if
each single step of evaluation keeps to it. Then so do whole evaluations, because they are made of
such steps (`obeys_evaluate`), and so does every sequence of sources (`failure_of_history`). The
induction is done here once for all regimes.
-/
namespace TailScheme

/-- What is asked of code, of values, of the names of closures, and of failures. -/
structure Regime where
  code : Expr → Prop
  value : Value → Prop
  name : String → Prop
  failure : Error → Prop

namespace Regime

/-- Evaluation does not leave the regime: what code of the regime is made of and what it evaluates
to is of the regime again, and so are the failures that it can come to. -/
structure Closed (regime : Regime) : Prop where
  part : ∀ inner e, Expr.IsPart inner e → regime.code e → regime.code inner
  define_name : ∀ name value, regime.code (.define name value) → regime.name name
  set_name : ∀ name value, regime.code (.set name value) → regime.name name
  composite : Value.Composite regime.value
  closure_iff : ∀ procedure : Closure, regime.value (.closure procedure) ↔
    regime.code (.lambda procedure.params procedure.body)
  quoted : ∀ datum, regime.code (.quote datum) →
    datum.quoted.Yields regime.failure regime.value
  misuse : ∀ error : Error, error.IsMisuse → regime.failure error
  ident_unbound : ∀ name, regime.code (.ident name) → regime.failure (.unbound name)
  set_unbound : ∀ name value, regime.code (.set name value) → regime.failure (.unbound name)
  missing : regime.failure .missingProcedure
  shown : ∀ nameOf value, (∀ id, ∀ name ∈ nameOf id, regime.name name) → regime.value value →
    regime.failure (.notProcedure (value.text nameOf)) ∧
      regime.failure (.conditionNotBoolean (value.text nameOf))
  count : ∀ given : Option String, (∀ name ∈ given, regime.name name) → ∀ expected got,
    regime.failure (.arityMismatch (given.getD "anonymous procedure") (.exact expected) got)
  refused : ∀ limit, regime.failure (.callDepthExceeded limit)

/-- The stops of the regime. Running out of budget says nothing about the program. -/
def stop (regime : Regime) : Stop → Prop
  | .failed error => regime.failure error
  | .outOfBudget => True

end Regime

namespace Heap

section

variable {heap : Heap} {scope : ScopeId} {name : String} {value : Value} {id : Nat}

/-- A new closure is anonymous, and the others keep their names. -/
theorem nameOf_newClosure {params : List String} {body : List Expr} :
    (heap.newClosure params body scope).2.nameOf id = heap.nameOf id := by
  unfold nameOf newClosure
  by_cases new : id = heap.names.size
  · simp [new]
  · simp [Array.getElem?_push, new]

/-- Naming a value brings no other name than that one. -/
theorem nameOf_giveName {given : String}
    (named : (heap.giveName value name).nameOf id = some given) :
    heap.nameOf id = some given ∨ given = name := by
  cases value with
  | closure procedure =>
    simp only [giveName, nameOf, Array.getElem?_modify] at named ⊢
    by_cases same : procedure.id = id
    · rw [if_pos same] at named
      rcases old : heap.names[id]? with _ | _ | old_name
      · simp [old] at named
      · simp [old] at named
        exact .inr named.symm
      · simp [old] at named ⊢
        exact .inl named
    · rw [if_neg same] at named
      exact .inl named
  | _ => exact .inl named

end

end Heap

/-- The machine holds only what is of the regime. -/
structure Machine.Obeys (regime : Regime) (machine : Machine) : Prop where
  values : machine.All regime.value
  names : ∀ id, ∀ name ∈ machine.heap.nameOf id, regime.name name

namespace Run

/-- The machine is still within the regime, and the result is of its kind or the stop is of the
regime. -/
def Obeyed {α : Type} (regime : Regime) (result : α → Prop) :
    EStateM.Result Stop Machine α → Prop
  | .ok value after => result value ∧ after.Obeys regime
  | .error stop after => regime.stop stop ∧ after.Obeys regime

/-- A step from a machine within the regime stays within the regime. -/
def Obeys {α : Type} (regime : Regime) (result : α → Prop) (run : Run α) : Prop :=
  ∀ machine : Machine, machine.Obeys regime → Obeyed regime result (run machine)

/-- A step gives no name to a closure. -/
def NamesNone {α : Type} (run : Run α) : Prop :=
  ∀ machine id name, (left (run machine)).heap.nameOf id = some name →
    machine.heap.nameOf id = some name

section

variable {α β : Type} {regime : Regime} {result : α → Prop} {later : β → Prop}

/-- A step that names nothing stays within the regime if it keeps to its values. -/
theorem Keeps.obeys {run : Run α} (keeps : run.Keeps regime.value regime.stop result)
    (names_none : run.NamesNone) : run.Obeys regime result := by
  intro machine obeys
  have kept := keeps machine obeys.values
  have names := names_none machine
  generalize run machine = outcome at kept names
  cases outcome with
  | ok value after =>
    exact ⟨kept.1, kept.2, fun id name named => obeys.names id name (names id name named)⟩
  | error stop after =>
    exact ⟨kept.1, kept.2, fun id name named => obeys.names id name (names id name named)⟩

/-- A value is handed back. -/
theorem obeys_pure {value : α} (is_good : result value) :
    (pure value : Run α).Obeys regime result :=
  fun _ obeys => ⟨is_good, obeys⟩

/-- A failure of the regime is reported. -/
theorem obeys_fail {error : Error} (failure : regime.failure error) :
    (fail error : Run α).Obeys regime result :=
  fun _ obeys => ⟨failure, obeys⟩

/-- Two steps in a row. -/
theorem Obeys.bind {run : Run α} {rest : α → Run β} (first : run.Obeys regime result)
    (second : ∀ value, result value → (rest value).Obeys regime later) :
    (run >>= rest).Obeys regime later := by
  intro machine obeys
  change Obeyed regime later (EStateM.bind run rest machine)
  unfold EStateM.bind
  match run machine, first machine obeys with
  | .ok value after, obeyed => exact second value obeyed.1 after obeyed.2
  | .error stop after, obeyed => exact obeyed

/-- Marks around a body have nothing to do with the regime. -/
theorem Obeys.withMarks {body : Run Value} (obeys_body : body.Obeys regime regime.value)
    (final : Bool) : (withMarks final body).Obeys regime regime.value := by
  intro machine obeys
  have marked : (machine.mark final).Obeys regime :=
    ⟨⟨obeys.values.heap, obeys.values.stack.mark final⟩, obeys.names⟩
  unfold Run.withMarks
  match body (machine.mark final), obeys_body (machine.mark final) marked with
  | .ok value after, ⟨is_good, values, names⟩ =>
    exact ⟨is_good, ⟨values.heap, values.stack.mark _⟩, names⟩
  | .error stop after, obeyed => exact obeyed

/-- A frame of its own has nothing to do with the regime. -/
theorem Obeys.withFrame {body : Run Value} (obeys_body : body.Obeys regime regime.value)
    (running : Closure) : (withFrame running body).Obeys regime regime.value := by
  intro machine obeys
  have pushed : (machine.push running).Obeys regime :=
    ⟨⟨obeys.values.heap, obeys.values.stack.push running⟩, obeys.names⟩
  unfold Run.withFrame
  match body (machine.push running), obeys_body (machine.push running) pushed with
  | .ok value after, ⟨is_good, values, names⟩ =>
    exact ⟨is_good, ⟨values.heap, values.stack.pop⟩, names⟩
  | .error stop after, ⟨of_regime, values, names⟩ =>
    exact ⟨of_regime, ⟨values.heap, values.stack.pop⟩, names⟩

end

end Run

section

variable {regime : Regime} {tailCalls : Bool} {invoke : Call → Run Value}

/-- Calls within the regime stay within it. -/
def CallsObey (regime : Regime) (invoke : Call → Run Value) : Prop :=
  ∀ call : Call, call.All regime.value → (invoke call).Obeys regime regime.value

namespace Run

/-- Marking the next expression has nothing to do with the regime. -/
theorem obeys_setFinal (final : Bool) : (setFinal final).Obeys regime fun _ => True :=
  (keeps_setFinal final).obeys fun _ _ _ named => named

/-- Taking the mark off has nothing to do with the regime. -/
theorem obeys_takeTailMark (tailCalls : Bool) :
    (takeTailMark tailCalls).Obeys regime fun _ => True :=
  (keeps_takeTailMark tailCalls).obeys fun _ _ _ named => named

/-- A call within the regime may be deferred. -/
theorem obeys_defer {call : Call} {value : Value} (value_good : regime.value value)
    (is_good : call.All regime.value) :
    Obeys regime regime.value fun machine => .ok value (machine.defer call) :=
  (keeps_defer value_good is_good).obeys fun _ _ _ named => named

/-- A deferred call that is taken up is of the regime. -/
theorem obeys_takeDeferred :
    takeDeferred.Obeys regime fun deferred => ∀ call ∈ deferred, call.All regime.value := by
  apply keeps_takeDeferred.obeys
  intro machine id name named
  unfold takeDeferred at named
  split at named <;> exact named

/-- What is made within the regime is of the regime. -/
theorem obeys_making {make : Value.Making Value}
    (yields : make.Yields regime.failure regime.value) :
    (making make).Obeys regime regime.value := by
  apply (keeps_making yields fun _ failure => failure).obeys
  intro machine id name named
  unfold making at named
  split at named <;> exact named

/-- A scope with values of the regime may be opened. -/
theorem obeys_openScope (parent : ScopeId) {bindings : Bindings}
    (bindings_good : bindings.All regime.value) :
    (openScope parent bindings).Obeys regime fun _ => True :=
  (keeps_openScope parent bindings_good).obeys fun _ _ _ named => named

/-- A closure is as good as its code. -/
theorem obeys_close {params : List String} {body : List Expr} {scope : ScopeId}
    (code_good : ∀ id, regime.value (.closure ⟨id, params, body, scope⟩)) :
    (close params body scope).Obeys regime regime.value := by
  apply (keeps_close code_good).obeys
  intro machine id name named
  have same : (machine.heap.newClosure params body scope).2.nameOf id = machine.heap.nameOf id :=
    Heap.nameOf_newClosure
  exact same.symm.trans named

/-- A value that is looked up is of the regime. -/
theorem obeys_lookup {scope : ScopeId} {name : String}
    (unbound : regime.failure (.unbound name)) :
    (lookup scope name).Obeys regime regime.value := by
  apply (keeps_lookup unbound).obeys
  intro machine id given named
  unfold lookup at named
  split at named <;> exact named

/-- A value of the regime may be bound to a name of the regime. -/
theorem obeys_define {scope : ScopeId} {name : String} {value : Value}
    (name_good : regime.name name) (is_good : regime.value value) :
    (define scope name value).Obeys regime fun _ => True := by
  intro machine obeys
  have kept : Kept regime.value regime.stop (fun _ => True) (define scope name value machine) :=
    keeps_define is_good machine obeys.values
  refine ⟨trivial, kept.2, ?_⟩
  intro id given named
  rcases Heap.nameOf_giveName named with old | rfl
  · exact obeys.names id given old
  · exact name_good

/-- A value of the regime may be assigned to a name of the regime. -/
theorem obeys_assign {scope : ScopeId} {name : String} {value : Value}
    (name_good : regime.name name) (is_good : regime.value value)
    (unbound : regime.failure (.unbound name)) :
    (assign scope name value).Obeys regime fun _ => True := by
  intro machine obeys
  have kept : Kept regime.value regime.stop (fun _ => True) (assign scope name value machine) :=
    keeps_assign is_good unbound machine obeys.values
  have old_names : ∀ id,
      (machine.heap.assign scope name value).2.nameOf id = machine.heap.nameOf id := by
    unfold Heap.assign
    split <;> exact fun _ => rfl
  unfold assign at kept ⊢
  generalize machine.heap.assign scope name value = outcome at kept old_names
  obtain ⟨_ | _, heap⟩ := outcome
  · exact ⟨unbound, kept.2, fun id given named => obeys.names id given (old_names id ▸ named)⟩
  · refine ⟨trivial, kept.2, ?_⟩
    intro id given named
    rcases Heap.nameOf_giveName named with old | rfl
    · exact obeys.names id given (old_names id ▸ old)
    · exact name_good

/-- A failure may show a value of the regime if it is of the regime however the closures are named
there. -/
theorem obeys_fail_shown {α : Type} {result : α → Prop} {value : Value} {cause : String → Error}
    (shown : ∀ nameOf, (∀ id, ∀ name ∈ nameOf id, regime.name name) →
      regime.failure (cause (value.text nameOf))) :
    (do fail (cause (← printed value)) : Run α).Obeys regime result :=
  fun machine obeys => ⟨shown machine.heap.nameOf obeys.names, obeys⟩

end Run

/-- Applying a procedure of the regime stays within the regime. -/
theorem obeys_applyTo (closed : regime.Closed) (calls : CallsObey regime invoke) (tail : Bool)
    {operator : Value} {args : List Value} (is_good : regime.value operator)
    (args_good : ∀ arg ∈ args, regime.value arg) :
    (applyTo invoke tail operator args).Obeys regime regime.value := by
  cases operator with
  | builtin procedure =>
    have yields := procedure.yields_apply closed.composite args_good
    exact Run.obeys_making fun stamp => (yields stamp).mono closed.misuse
  | closure callee =>
    have call_good : Call.All regime.value ⟨callee, args⟩ := ⟨is_good, args_good⟩
    cases tail with
    | true => exact Run.obeys_defer closed.composite.nil call_good
    | false => exact calls _ call_good
  | _ => exact Run.obeys_fail_shown fun nameOf named => (closed.shown nameOf _ named is_good).1

/-- A body in a scope of its own stays within the regime. -/
theorem obeys_inScope {scope : ScopeId} {bindings : Bindings} {final : Bool}
    {body : ScopeId → Run Value} (bindings_good : bindings.All regime.value)
    (obeys : ∀ inner, (body inner).Obeys regime regime.value) :
    (Run.openScope scope bindings >>= fun inner => Run.withMarks final (body inner)).Obeys regime
      regime.value :=
  (Run.obeys_openScope scope bindings_good).bind fun inner _ => (obeys inner).withMarks final

mutual

/-- Evaluating code of the regime stays within the regime. -/
theorem obeys_evaluate (closed : regime.Closed) (calls : CallsObey regime invoke) :
    ∀ (e : Expr) (scope : ScopeId), regime.code e →
      (evaluate tailCalls invoke e scope).Obeys regime regime.value
  | .bool value, scope, _ => Run.obeys_pure (closed.composite.bool value)
  | .int value, scope, _ => Run.obeys_pure (closed.composite.int value)
  | .ident name, scope, code => Run.obeys_lookup (closed.ident_unbound name code)
  | .quote datum, scope, code => Run.obeys_making (closed.quoted datum code)
  | .list items, scope, code => by
    have each : ∀ item ∈ items, regime.code item :=
      fun item among => closed.part item _ (.item among) code
    refine (Run.obeys_takeTailMark tailCalls).bind fun tail _ => ?_
    refine (obeys_evaluateAll closed calls items scope each).bind fun values values_good => ?_
    cases values with
    | nil => exact Run.obeys_fail closed.missing
    | cons operator args =>
      rw [List.forall_mem_cons] at values_good
      exact obeys_applyTo closed calls tail values_good.1 values_good.2
  | .define name value, scope, code => by
    have inner := closed.part value _ .define code
    have name_good := closed.define_name name value code
    refine (Run.obeys_setFinal false).bind fun _ _ => ?_
    refine (obeys_evaluate closed calls value scope inner).bind fun result result_good => ?_
    exact (Run.obeys_define name_good result_good).bind fun _ _ =>
      Run.obeys_pure closed.composite.nil
  | .set name value, scope, code => by
    have inner := closed.part value _ .set code
    have name_good := closed.set_name name value code
    have unbound := closed.set_unbound name value code
    refine (Run.obeys_setFinal false).bind fun _ _ => ?_
    refine (obeys_evaluate closed calls value scope inner).bind fun result result_good => ?_
    exact (Run.obeys_assign name_good result_good unbound).bind fun _ _ =>
      Run.obeys_pure closed.composite.nil
  | .lambda params body, scope, code =>
    Run.obeys_close fun id => (closed.closure_iff ⟨id, params, body, scope⟩).mpr code
  | .cond branches, scope, code => by
    refine (Run.obeys_takeTailMark tailCalls).bind fun tail _ => ?_
    apply obeys_evaluateBranches closed calls branches scope tail
    · exact fun branch among guard tested => closed.part guard _ (.guard among tested) code
    · exact fun branch among item inside => closed.part item _ (.branch among inside) code

/-- Evaluating trees of the regime from left to right stays within the regime. -/
theorem obeys_evaluateAll (closed : regime.Closed) (calls : CallsObey regime invoke) :
    ∀ (items : List Expr) (scope : ScopeId), (∀ item ∈ items, regime.code item) →
      (evaluateAll tailCalls invoke items scope).Obeys regime fun values =>
        ∀ value ∈ values, regime.value value
  | [], scope, _ => Run.obeys_pure (List.forall_mem_nil _)
  | item :: items, scope, each => by
    rw [List.forall_mem_cons] at each
    refine (obeys_evaluate closed calls item scope each.1).bind fun value is_good => ?_
    refine (obeys_evaluateAll closed calls items scope each.2).bind fun values all_good => ?_
    exact Run.obeys_pure (List.forall_mem_cons.mpr ⟨is_good, all_good⟩)

/-- Evaluating a body of the regime stays within the regime. -/
theorem obeys_evaluateBody (closed : regime.Closed) (calls : CallsObey regime invoke) :
    ∀ (items : List Expr) (scope : ScopeId), (∀ item ∈ items, regime.code item) →
      (evaluateBody tailCalls invoke items scope).Obeys regime regime.value
  | [], scope, _ => Run.obeys_pure closed.composite.nil
  | [last], scope, each =>
    (Run.obeys_setFinal true).bind fun _ _ =>
      obeys_evaluate closed calls last scope (List.forall_mem_singleton.mp each)
  | item :: next :: rest, scope, each => by
    rw [List.forall_mem_cons] at each
    refine (Run.obeys_setFinal false).bind fun _ _ => ?_
    refine (obeys_evaluate closed calls item scope each.1).bind fun _ _ => ?_
    exact obeys_evaluateBody closed calls (next :: rest) scope each.2

/-- Choosing among branches of the regime stays within the regime. -/
theorem obeys_evaluateBranches (closed : regime.Closed) (calls : CallsObey regime invoke) :
    ∀ (branches : List Branch) (scope : ScopeId) (tail : Bool),
      (∀ branch ∈ branches, ∀ guard, branch.guard? = some guard → regime.code guard) →
      (∀ branch ∈ branches, ∀ item ∈ branch.body, regime.code item) →
      (evaluateBranches tailCalls invoke branches scope tail).Obeys regime regime.value
  | [], scope, tail, _, _ => Run.obeys_pure closed.composite.nil
  | .otherwise body :: branches, scope, tail, _, bodies =>
    obeys_inScope (List.forall_mem_nil _) fun inner =>
      obeys_evaluateBody closed calls body inner (bodies _ List.mem_cons_self)
  | .test guard body :: branches, scope, tail, tests, bodies => by
    rw [List.forall_mem_cons] at tests bodies
    have guard_code := tests.1 guard rfl
    refine (obeys_evaluate closed calls guard scope guard_code).bind fun value is_good => ?_
    match value with
    | .bool true =>
      exact obeys_inScope (List.forall_mem_nil _) fun inner =>
        obeys_evaluateBody closed calls body inner bodies.1
    | .bool false =>
      exact obeys_evaluateBranches closed calls branches scope tail tests.2 bodies.2
    | .nil | .int _ | .symbol _ | .builtin _ | .pair _ _ _ | .closure _ =>
      exact Run.obeys_fail_shown fun nameOf named => (closed.shown nameOf _ named is_good).2

end

/-- Checking the number of arguments stays within the regime. -/
theorem obeys_checkCount (closed : regime.Closed) (call : Call) :
    (checkCount call).Obeys regime fun _ => True := by
  intro machine obeys
  unfold checkCount
  dsimp only
  split
  · exact ⟨trivial, obeys⟩
  · have given := obeys.names call.callee.id
    exact ⟨closed.count (machine.heap.nameOf call.callee.id) given _ _, obeys⟩

/-- Running the body of a closure of the regime stays within the regime. -/
theorem obeys_enter (closed : regime.Closed) (calls : CallsObey regime invoke) {call : Call}
    (is_good : call.All regime.value) :
    (enter tailCalls invoke call).Obeys regime regime.value := by
  have entries : Bindings.All regime.value (call.callee.params.zip call.args) :=
    fun entry among => is_good.args entry.2 (List.of_mem_zip among).2
  have bindings : (Bindings.bindAll (call.callee.params.zip call.args) []).All regime.value :=
    .bindAll entries (List.forall_mem_nil _)
  -- A closure keeps the code of the `lambda` that made it, so its body is code of the regime.
  have code := (closed.closure_iff call.callee).mp is_good.callee
  have each : ∀ item ∈ call.callee.body, regime.code item :=
    fun item among => closed.part item _ (.lambda among) code
  exact (obeys_checkCount closed call).bind fun _ _ => obeys_inScope bindings fun inner =>
    obeys_evaluateBody closed calls call.callee.body inner each

/-- The calls of a frame stay within the regime. -/
theorem obeys_runCalls (closed : regime.Closed) (calls : CallsObey regime invoke) (budget : Nat) :
    CallsObey regime (runCalls tailCalls invoke budget) := by
  induction budget with
  | zero =>
    intro call is_good
    refine (obeys_enter closed calls is_good).bind fun value value_good => ?_
    refine Run.obeys_takeDeferred.bind fun deferred _ => ?_
    cases deferred with
    | none => exact Run.obeys_pure value_good
    | some next => exact fun machine obeys => ⟨trivial, obeys⟩
  | succ budget ih =>
    intro call is_good
    refine (obeys_enter closed calls is_good).bind fun value value_good => ?_
    refine Run.obeys_takeDeferred.bind fun deferred deferred_good => ?_
    cases deferred with
    | none => exact Run.obeys_pure value_good
    | some next => exact ih next (deferred_good next rfl)

end

section

variable {regime : Regime} (config : Config) (budget : Nat)

/-- Calls outside tail position stay within the regime, whatever room there is. -/
theorem obeys_invoke (closed : regime.Closed) (room : Nat) :
    CallsObey regime (invoke config budget room) := by
  induction room with
  | zero => exact fun _ _ => Run.obeys_fail (closed.refused config.maxDepth)
  | succ room ih =>
    exact fun call is_good => (obeys_runCalls closed ih budget call is_good).withFrame call.callee

/-- Evaluating code of the regime at the top level stays within the regime. -/
theorem obeys_eval (closed : regime.Closed) {e : Expr} (code : regime.code e) :
    (eval config budget e).Obeys regime regime.value := by
  intro machine obeys
  have walked : (evaluate config.tailCalls (invoke config budget config.maxDepth) e
      Heap.root).Obeys regime regime.value :=
    obeys_evaluate closed (obeys_invoke config budget closed config.maxDepth) e Heap.root code
  have begun : machine.begin.Obeys regime :=
    ⟨⟨obeys.values.heap, obeys.values.stack⟩, obeys.names⟩
  unfold eval
  match evaluate config.tailCalls (invoke config budget config.maxDepth) e Heap.root
    machine.begin, walked machine.begin begun with
  | .ok value after, obeyed => exact obeyed
  | .error stop after, ⟨of_regime, values, names⟩ =>
    exact ⟨of_regime, ⟨values.heap, fun _ among => by cases among⟩, names⟩

/-- What a reader hands out is of the regime: trees expand to code, or are refused as it allows, and
the failures are of the regime. -/
structure Regime.Admits (regime : Regime) (items : List (Except ReadError Expr)) : Prop where
  code : ∀ raw, .ok raw ∈ items → ∀ tree, raw.expand = .ok tree → regime.code tree
  malformed : ∀ raw, .ok raw ∈ items → ∀ form, raw.expand = .error form →
    regime.failure (.malformed form)
  failure : ∀ error, .error error ∈ items → regime.failure (.read error)

/-- Evaluating what a reader hands out stays within the regime. -/
theorem obeys_evalItems (closed : regime.Closed) {items : List (Except ReadError Expr)}
    (admits : regime.Admits items) {last : Value} (last_good : regime.value last) :
    (evalItems config budget last items).Obeys regime regime.value := by
  induction items generalizing last with
  | nil => exact Run.obeys_pure last_good
  | cons item items ih =>
    cases item with
    | error error => exact Run.obeys_fail (admits.failure error List.mem_cons_self)
    | ok raw =>
      have datum : (evalDatum config budget raw).Obeys regime regime.value := by
        unfold evalDatum
        rcases expands : raw.expand with form | tree
        · exact Run.obeys_fail (admits.malformed raw List.mem_cons_self form expands)
        · exact obeys_eval config budget closed
            (admits.code raw List.mem_cons_self tree expands)
      have later : regime.Admits items := {
        code := fun raw among => admits.code raw (List.mem_cons_of_mem _ among)
        malformed := fun raw among => admits.malformed raw (List.mem_cons_of_mem _ among)
        failure := fun error among => admits.failure error (List.mem_cons_of_mem _ among) }
      exact datum.bind fun value value_good => ih later value_good

/-- On a machine within the regime, sources stop with nothing but failures of the regime. -/
theorem failure_of_history (closed : regime.Closed) {sources : List (Bool × String)} :
    ∀ machine : Machine, machine.Obeys regime →
      (∀ source ∈ sources, regime.Admits (Reader.ofString source.1 source.2).items) →
      ∀ result ∈ history config budget sources machine, ∀ error,
        result.1 = .error (.failed error) → regime.failure error := by
  induction sources with
  | nil => exact fun _ _ _ => List.forall_mem_nil _
  | cons source sources ih =>
    intro machine obeys admits
    rw [List.forall_mem_cons] at admits
    have obeyed : Run.Obeyed regime regime.value
        (evalProgram config budget source.1 source.2 machine) :=
      obeys_evalItems config budget closed admits.1 closed.composite.nil machine obeys
    rw [history, List.forall_mem_cons]
    generalize evalProgram config budget source.1 source.2 machine = outcome at obeyed
    cases outcome with
    | ok value after => exact ⟨(by rintro _ ⟨⟩), ih after obeyed.2 admits.2⟩
    | error stop after =>
      refine ⟨?_, ih after obeyed.2 admits.2⟩
      intro error same
      have stopped : stop = .failed error := Except.error.inj same
      rw [stopped] at obeyed
      exact obeyed.1

/-- A program starts within every regime. -/
theorem Regime.Closed.obeys_initial (closed : regime.Closed) : Machine.initial.Obeys regime where
  values := ⟨Heap.all_initial closed.composite.builtin, fun _ among => by cases among⟩
  names := fun id name named => by
    have no_names : Machine.initial.heap.nameOf id = none := rfl
    rw [no_names] at named
    cases named

end

end TailScheme
