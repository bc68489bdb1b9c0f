import TailScheme.Proofs.Answers
import TailScheme.Proofs.Chains
import TailScheme.Proofs.Histories
import TailScheme.Proofs.Listing
import TailScheme.Proofs.Placement

/-!
# What code sees

A heap is extended when scopes are made and written in while all scopes that were there stay as they
are (`Heap.Extends`): whatever was seen from those is still seen. What a piece of code needs to see
from its scope is listed by the names and their values (`Heap.Shows`). An expression that is made of
integers, names and builtins has the same value from all scopes that show the same, and changes
nothing (`Denotes`).

With that, the body of a procedure is run one expression at a time. A choice between two
expressions and the definition of a procedure come down to what is left of the body. A call at its
end is deferred if it is a tail call, and the frame goes on with it as if it had just started
(`runCalls_of_tail_call`); otherwise the body gives what the callee gives (`withMarks_of_value`,
`withMarks_of_error`).
-/
namespace TailScheme

/-- An entry that is found is listed. -/
theorem Bindings.mem_of_find? {name : String} {value : Value} {bindings : Bindings}
    (found : bindings.find? name = some value) : (name, value) ∈ bindings := by
  induction bindings with
  | nil => cases found
  | cons entry rest ih =>
    obtain ⟨label, old⟩ := entry
    rw [find?] at found
    split at found
    · next same =>
      obtain rfl : label = name := eq_of_beq same
      cases found
      exact List.mem_cons_self
    · exact List.mem_cons_of_mem _ (ih found)

namespace Heap

/-- The definition of a procedure in a scope. -/
def define (heap : Heap) (scope : ScopeId) (name : String) (params : List String)
    (body : List Expr) : Heap :=
  let (procedure, made) := heap.newClosure params body scope
  (made.giveName (.closure procedure) name).insert scope name (.closure procedure)

/-- One heap extends another: the scopes that were there are as they were. -/
structure Extends (heap after : Heap) : Prop where
  forest : after.Forest
  size_le : heap.scopes.size ≤ after.scopes.size
  same : ∀ scope < heap.scopes.size, after.scopes[scope]? = heap.scopes[scope]?

/-- From the scope, the entries are seen. -/
structure Shows (heap : Heap) (scope : ScopeId) (entries : Bindings) : Prop where
  forest : heap.Forest
  there : scope < heap.scopes.size
  seen : ∀ name value, entries.find? name = some value → heap.lookup scope name = some value

section

variable {heap middle after : Heap} {scope : ScopeId} {name : String} {value : Value}
  {entries : Bindings}

/-- A heap extends itself. -/
theorem Extends.refl (forest : heap.Forest) : heap.Extends heap :=
  ⟨forest, Nat.le_refl _, fun _ _ => rfl⟩

/-- Extensions of extensions are extensions. -/
theorem Extends.trans (first : heap.Extends middle) (second : middle.Extends after) :
    heap.Extends after :=
  ⟨second.forest, first.size_le.trans second.size_le, fun scope there =>
    (second.same scope (Nat.lt_of_lt_of_le there first.size_le)).trans (first.same scope there)⟩

/-- Only the scopes of an extension matter. -/
theorem Extends.of_scopes (extended : heap.Extends middle)
    (scopes_eq : after.scopes = middle.scopes) : heap.Extends after :=
  ⟨extended.forest.objects scopes_eq, scopes_eq ▸ extended.size_le, scopes_eq ▸ extended.same⟩

/-- A scope may be made within one that is there. -/
theorem Extends.newScope (extended : heap.Extends after) {parent : ScopeId}
    (there : parent < after.scopes.size) (bindings : Bindings) :
    heap.Extends (after.newScope (some parent) bindings).2 where
  forest := extended.forest.newChild parent there bindings
  size_le := by
    rw [Heap.newScope, Array.size_push]
    exact Nat.le_succ_of_le extended.size_le
  same scope old := by
    have not_new : scope ≠ after.scopes.size :=
      Nat.ne_of_lt (Nat.lt_of_lt_of_le old extended.size_le)
    rw [Heap.newScope, Array.getElem?_push, if_neg not_new]
    exact extended.same scope old

/-- A new scope may be written in. -/
theorem Extends.insert (extended : heap.Extends after) (new : heap.scopes.size ≤ scope)
    (name : String) (value : Value) : heap.Extends (after.insert scope name value) where
  forest := extended.forest.insert scope name value
  size_le := by
    rw [size_insert]
    exact extended.size_le
  same other old := by
    have different : scope ≠ other := Nat.ne_of_gt (Nat.lt_of_lt_of_le old new)
    rw [Heap.insert, Array.getElem?_modify, if_neg different]
    exact extended.same other old

/-- What is seen from the scopes that were there is still seen. -/
theorem Extends.lookup_eq (extended : heap.Extends after) (forest : heap.Forest)
    (there : scope < heap.scopes.size) : after.lookup scope name = heap.lookup scope name := by
  revert there
  induction scope using forest.outward_induction with
  | step scope ih =>
    intro there
    have same := extended.same scope there
    have same_locals : after.locals scope = heap.locals scope := by rw [locals, locals, same]
    have same_parent : after.parentOf scope = heap.parentOf scope := by
      rw [parentOf, parentOf, same]
    rw [extended.forest.lookup_eq, forest.lookup_eq, same_locals, same_parent]
    rcases within : heap.parentOf scope with _ | outer
    · rfl
    · rw [Option.bind_some, Option.bind_some,
        ih outer within (Nat.lt_trans (forest.parent_lt within) there)]

/-- A scope shows in an extension what it showed before. -/
theorem Shows.of_extends (shows : heap.Shows scope entries) (extended : heap.Extends after) :
    after.Shows scope entries where
  forest := extended.forest
  there := Nat.lt_of_lt_of_le shows.there extended.size_le
  seen name value among :=
    (extended.lookup_eq shows.forest shows.there).trans (shows.seen name value among)

/-- Entries are seen if each of them is. -/
theorem Shows.of_entries (forest : heap.Forest) (there : scope < heap.scopes.size)
    (each : ∀ entry ∈ entries, heap.lookup scope entry.1 = some entry.2) :
    heap.Shows scope entries :=
  ⟨forest, there, fun _ _ found => each _ (Bindings.mem_of_find? found)⟩

/-- Only the scopes matter to what is shown. -/
theorem Shows.of_scopes (shows : heap.Shows scope entries)
    (scopes_eq : after.scopes = heap.scopes) : after.Shows scope entries :=
  shows.of_extends ((Extends.refl shows.forest).of_scopes scopes_eq)

/-- A new scope shows what it binds and then what its parent shows. -/
theorem Shows.newScope (shows : heap.Shows scope entries) (bindings : Bindings) :
    (heap.newScope (some scope) bindings).2.Shows heap.scopes.size (bindings ++ entries) where
  forest := shows.forest.newChild scope shows.there bindings
  there := by
    rw [Heap.newScope, Array.size_push]
    exact Nat.lt_succ_self _
  seen name value among := by
    have child : (heap.newScope (some scope) bindings).2.lookup heap.scopes.size name = _ :=
      shows.forest.lookup_newScope shows.there bindings
    rw [child]
    rw [Bindings.find?_append] at among
    rcases bound : Bindings.find? name bindings with _ | local_value
    · rw [bound, Option.none_or] at among
      rw [Option.none_or]
      exact shows.seen name value among
    · rw [bound, Option.some_or] at among
      rw [Option.some_or, among]

/-- A scope that is written in shows what is written. -/
theorem Shows.insert (shows : heap.Shows scope entries) (name : String) (value : Value) :
    (heap.insert scope name value).Shows scope ((name, value) :: entries) where
  forest := shows.forest.insert scope name value
  there := by
    rw [size_insert]
    exact shows.there
  seen label other among := by
    have rebound := shows.forest.rebound_insert scope name value
    rw [Bindings.find?] at among
    split at among
    · next same =>
      obtain rfl : name = label := eq_of_beq same
      rw [← among]
      exact rebound.changed (.here ((binds_insert_iff shows.there).mpr (.inl ⟨rfl, rfl⟩)))
    · next different =>
      have other_name : ¬(label = name ∧ (heap.insert scope name value).Holder name scope scope) :=
        fun both => different (beq_iff_eq.mpr both.1.symm)
      rw [rebound.kept other_name]
      exact shows.seen label other among

/-- A procedure may be defined in a new scope. -/
theorem Extends.define (extended : heap.Extends after) (new : heap.scopes.size ≤ scope)
    (name : String) (params : List String) (body : List Expr) :
    heap.Extends (after.define scope name params body) := by
  have made : heap.Extends (after.newClosure params body scope).2 := extended.of_scopes rfl
  exact (made.of_scopes scopes_giveName).insert new name _

/-- A scope shows the procedure that is defined in it. -/
theorem Shows.define (shows : heap.Shows scope entries) (name : String) (params : List String)
    (body : List Expr) : (heap.define scope name params body).Shows scope
      ((name, .closure ⟨heap.names.size, params, body, scope⟩) :: entries) := by
  have made : (heap.newClosure params body scope).2.Shows scope entries := shows.of_scopes rfl
  exact (made.of_scopes scopes_giveName).insert name _

end

end Heap

/-- Of two marks that are set in a row, the one that is set last counts, and the ones from before
are put back. -/
theorem Run.withMarks_withMarks (outer inner : Bool) (body : Run Value) (heap : Heap)
    (machine : Machine) :
    Run.withMarks outer
        (fun before => Run.withMarks inner body { before with heap, final := false }) machine =
      Run.withMarks inner (fun before => body { before with final := false })
        { machine with heap } := by
  simp only [Run.withMarks, Machine.mark, Stack.mark_mark]
  cases body { machine with heap, stack := machine.stack.mark inner, final := false } with
  | ok value after => simp only [Stack.mark_mark]
  | error stop after => rfl

section

variable {tailCalls : Bool} {invoke : Call → Run Value} {entries : Bindings} {name : String}
  {value : Value} {builtin : Builtin} {items : List Expr} {values : List Value} {e : Expr}

variable (tailCalls invoke) in
/-- The expression has the value from every scope that shows the entries, and changes nothing. -/
def Denotes (entries : Bindings) (e : Expr) (value : Value) : Prop :=
  ∀ scope machine, machine.heap.Shows scope entries → machine.final = false →
    evaluate tailCalls invoke e scope machine = .ok value machine

/-- An integer denotes itself. -/
theorem denotes_int (value : Int64) : Denotes tailCalls invoke entries (.int value) (.int value) :=
  fun _ _ _ _ => rfl

/-- A name denotes the value of its entry. -/
theorem denotes_ident (found : entries.find? name = some value) :
    Denotes tailCalls invoke entries (.ident name) value := by
  intro scope machine shows _
  have looked_up := shows.seen name value found
  rw [evaluate, Run.lookup, looked_up]

/-- Expressions that denote values are evaluated to the values, and nothing changes. -/
theorem evaluateAll_of_denotes (each : List.Forall₂ (Denotes tailCalls invoke entries) items values)
    {scope : ScopeId} {machine : Machine} (shows : machine.heap.Shows scope entries)
    (unmarked : machine.final = false) :
    evaluateAll tailCalls invoke items scope machine = .ok values machine := by
  induction each with
  | nil => rfl
  | cons first later ih =>
    have evaluated := first scope machine shows unmarked
    simp only [evaluateAll, Bind.bind, EStateM.bind, evaluated, ih]
    rfl

/-- A combination of a builtin denotes what the builtin makes of the operands without pairs. -/
theorem denotes_builtin (operator : entries.find? name = some (.builtin builtin))
    (each : List.Forall₂ (Denotes tailCalls invoke entries) items values)
    (applied : ∀ stamp, builtin.apply values stamp = .ok (value, stamp)) :
    Denotes tailCalls invoke entries (.list (.ident name :: items)) value := by
  intro scope machine shows unmarked
  have same : { machine with final := false } = machine := by rw [← unmarked]
  have parts := evaluateAll_of_denotes (.cons (denotes_ident operator) each) shows unmarked
  rw [← same] at parts
  rw [evaluate_list parts, same, applyTo, Run.making, applied]

variable {scope : ScopeId} {machine : Machine} {caller : Stack} {running : Closure} {call : Call}
  {guard chosen other : Expr} {truth : Bool} {heap : Heap}

/-- A body that ends with a name gives the value of its entry. -/
theorem withMarks_ident (found : entries.find? name = some value)
    (shows : machine.heap.Shows scope entries) (final : Bool) :
    Run.withMarks final (evaluateBody tailCalls invoke [.ident name] scope) machine =
      .ok value machine := by
  have looked_up := shows.seen name value found
  simp only [Run.withMarks, evaluateBody, evaluate, Bind.bind, EStateM.bind, Run.setFinal,
    Run.lookup, Machine.mark, looked_up, Stack.mark_mark, Stack.mark_isFinal]

variable (machine) in
/-- A body that ends with a call whose operands denote values applies the closure, in tail position
if there are tail calls and the mark of the body is set. -/
theorem withMarks_call {callee : Closure} (operator : entries.find? name = some (.closure callee))
    (each : List.Forall₂ (Denotes tailCalls invoke entries) items values)
    (shows : machine.heap.Shows scope entries) (runs : machine.stack = caller.push running)
    (final : Bool) :
    Run.withMarks final (evaluateBody tailCalls invoke [.list (.ident name :: items)] scope)
        machine =
      Run.withMarks final (fun inner =>
        applyTo invoke (tailCalls && final) (.closure callee) values { inner with final := false })
        machine := by
  have applied : evaluate tailCalls invoke (.list (.ident name :: items)) scope
      { machine with stack := machine.stack.mark final, final := true } =
      applyTo invoke (tailCalls && (machine.stack.mark final).isFinal && true) (.closure callee)
        values { machine with stack := machine.stack.mark final, final := false } :=
    evaluate_list (evaluateAll_of_denotes (.cons (denotes_ident operator) each) shows rfl)
  have marked : (machine.stack.mark final).isFinal = final := by
    rw [runs]
    rfl
  rw [marked, Bool.and_true] at applied
  have body : evaluateBody tailCalls invoke [.list (.ident name :: items)] scope
      (machine.mark final) = _ := applied
  rw [Run.withMarks, body]
  rfl

/-- A body that starts with the definition of a procedure goes on with what follows. -/
theorem withMarks_define {params : List String} {body rest : List Expr} {next : Expr}
    (final : Bool) :
    Run.withMarks final (evaluateBody tailCalls invoke
        (.define name (.lambda params body) :: next :: rest) scope) machine =
      Run.withMarks final (evaluateBody tailCalls invoke (next :: rest) scope)
        { machine with heap := machine.heap.define scope name params body } := by
  have unmarked : ∀ before : Machine,
      evaluateBody tailCalls invoke (next :: rest) scope { before with final := false } =
        evaluateBody tailCalls invoke (next :: rest) scope before := by
    cases rest <;> exact fun _ => rfl
  have goes_on : evaluateBody tailCalls invoke (.define name (.lambda params body) :: next :: rest)
      scope (machine.mark final) = _ :=
    unmarked { machine with
      heap := machine.heap.define scope name params body, stack := machine.stack.mark final }
  rw [Run.withMarks, goes_on]
  rfl

/-- If a body is a choice between two expressions, the one that the test asks for is evaluated in a
scope of its own, with the mark of its own position. -/
theorem evaluateBody_cond (guarded : Denotes tailCalls invoke entries guard (.bool truth))
    (shows : machine.heap.Shows scope entries) :
    evaluateBody tailCalls invoke [.cond [.test guard [chosen], .otherwise [other]]] scope
        machine =
      Run.withMarks (tailCalls && machine.stack.isFinal)
        (evaluateBody tailCalls invoke [if truth then chosen else other]
          machine.heap.scopes.size)
        { machine with heap := (machine.heap.newScope (some scope) []).2, final := false } := by
  have tested := guarded scope { machine with final := false } shows rfl
  simp only [evaluateBody, evaluate, evaluateBranches, Bind.bind, EStateM.bind, Run.setFinal,
    Run.takeTailMark, tested, Bool.and_true]
  cases truth <;> rfl

/-- The body of a call is run in a new scope that binds the arguments. -/
theorem enter_eq (fits : call.args.length = call.callee.params.length) :
    enter tailCalls invoke call machine =
      Run.withMarks true
        (evaluateBody tailCalls invoke call.callee.body machine.heap.scopes.size)
        { machine with heap := (machine.heap.newScope (some call.callee.scope)
          (Bindings.bindAll (call.callee.params.zip call.args) [])).2 } := by
  simp only [enter, Bind.bind, EStateM.bind, checkCount, if_pos fits]
  rfl

/-- If the body of a call is a choice between two expressions, the one that the test asks for is
evaluated in a scope of its own, in tail position if there are tail calls. -/
theorem enter_cond
    (body_eq : call.callee.body = [.cond [.test guard [chosen], .otherwise [other]]])
    (fits : call.args.length = call.callee.params.length)
    (opens : (machine.heap.newScope (some call.callee.scope)
      (Bindings.bindAll (call.callee.params.zip call.args) [])).2 = heap)
    (runs : machine.stack = caller.push running)
    (guarded : Denotes tailCalls invoke entries guard (.bool truth))
    (shows : heap.Shows machine.heap.scopes.size entries) :
    enter tailCalls invoke call machine =
      Run.withMarks tailCalls
        (evaluateBody tailCalls invoke [if truth then chosen else other] heap.scopes.size)
        { machine with heap := (heap.newScope (some machine.heap.scopes.size) []).2 } := by
  have tail : (machine.stack.mark true).isFinal = true := by
    rw [runs]
    rfl
  have body : evaluateBody tailCalls invoke [.cond [.test guard [chosen], .otherwise [other]]]
      machine.heap.scopes.size ({ machine with heap }.mark true) =
      Run.withMarks (tailCalls && (machine.stack.mark true).isFinal)
        (evaluateBody tailCalls invoke [if truth then chosen else other] heap.scopes.size)
        { { machine with heap }.mark true with
          heap := (heap.newScope (some machine.heap.scopes.size) []).2, final := false } :=
    evaluateBody_cond guarded shows
  rw [tail, Bool.and_true] at body
  rw [enter_eq fits, body_eq, opens, Run.withMarks, body]
  exact Run.withMarks_withMarks true tailCalls
    (evaluateBody tailCalls invoke [if truth then chosen else other] heap.scopes.size) _ _

/-- A frame whose call gives a value, and to which nothing is deferred, is done. -/
theorem runCalls_of_value {budget : Nat} {after : Machine}
    (entered : enter tailCalls invoke call machine = .ok value after)
    (undeferred : after.stack.deferred? = none) :
    runCalls tailCalls invoke budget call machine = .ok value after := by
  cases budget <;>
    simp only [runCalls, Bind.bind, EStateM.bind, entered, Run.takeDeferred, undeferred] <;> rfl

/-- A frame whose call fails is done. -/
theorem runCalls_of_error {budget : Nat} {stop : Stop} {after : Machine}
    (entered : enter tailCalls invoke call machine = .error stop after) :
    runCalls tailCalls invoke budget call machine = .error stop after := by
  cases budget <;> simp only [runCalls, Bind.bind, EStateM.bind, entered]

/-- A frame goes on with the call that its body has ended with as if it had just started. -/
theorem runCalls_of_tail_call {budget : Nat} {callee : Closure} {final : Bool} {middle : Machine}
    (entered : enter true invoke call machine = Run.withMarks final (fun inner =>
      applyTo invoke true (.closure callee) values { inner with final := false }) middle)
    (runs : middle.stack = caller.push running) :
    runCalls true invoke (budget + 1) call machine = runCalls true invoke budget ⟨callee, values⟩
      { middle with stack := caller.push callee, deferrals := middle.deferrals + 1 } := by
  obtain ⟨heap, stack, own, peak, deferrals⟩ := middle
  subst runs
  simp only [runCalls, Bind.bind, EStateM.bind, entered]
  rfl

/-- A closure that is not called in tail position is invoked. -/
theorem applyTo_closure (callee : Closure) (args : List Value) :
    applyTo invoke false (.closure callee) args = invoke ⟨callee, args⟩ := rfl

/-- Without tail calls, a call at the end of a body gives what the callee gives. -/
theorem withMarks_of_value {callee : Closure} {final : Bool} {peak : Nat}
    (returned : invoke ⟨callee, values⟩
      { machine with stack := machine.stack.mark final, final := false } =
        .ok value { machine with heap, stack := machine.stack.mark final, final := false, peak }) :
    Run.withMarks final (fun inner =>
      applyTo invoke false (.closure callee) values { inner with final := false }) machine =
        .ok value { machine with heap, peak } := by
  simp only [Run.withMarks, applyTo_closure, Machine.mark, returned, Stack.mark_mark,
    Stack.mark_isFinal]

/-- Without tail calls, a call at the end of a body fails if the callee fails. -/
theorem withMarks_of_error {callee : Closure} {final : Bool} {stop : Stop} {after : Machine}
    (failed : invoke ⟨callee, values⟩
      { machine with stack := machine.stack.mark final, final := false } = .error stop after) :
    Run.withMarks final (fun inner =>
      applyTo invoke false (.closure callee) values { inner with final := false }) machine =
        .error stop after := by
  simp only [Run.withMarks, applyTo_closure, Machine.mark, failed]

end

section

variable {config : Config} {budget room : Nat} {call : Call} {machine after : Machine}
  {value : Value} {heap : Heap}

/-- A call whose body gives a value without deferring anything leaves the stack as it was. -/
theorem invoke_of_value {peak : Nat}
    (entered : enter config.tailCalls (invoke config budget room) call
      (machine.push call.callee) = .ok value { machine.push call.callee with heap, peak }) :
    invoke config budget (room + 1) call machine = .ok value { machine with heap, peak } := by
  rw [invoke, Run.withFrame, runCalls_of_value entered rfl]
  simp [Machine.push, Machine.pop]

/-- A call whose body fails, fails. -/
theorem invoke_of_error {stop : Stop}
    (entered : enter config.tailCalls (invoke config budget room) call
      (machine.push call.callee) = .error stop after) :
    invoke config budget (room + 1) call machine = .error stop after.pop := by
  rw [invoke, Run.withFrame, runCalls_of_error entered]

/-- A call at the top level gives what the callee gives. -/
theorem evalOn_call {entries : Bindings} {name : String} {callee : Closure} {items : List Expr}
    {values : List Value} (operator : entries.find? name = some (.closure callee))
    (each : List.Forall₂
      (Denotes config.tailCalls (invoke config budget config.maxDepth) entries) items values)
    (shows : heap.Shows Heap.root entries) :
    evalOn config budget (.list (.ident name :: items)) heap =
      seen (invoke config budget config.maxDepth ⟨callee, values⟩ (Machine.ofHeap heap).begin) := by
  have evaluated : evaluate config.tailCalls (invoke config budget config.maxDepth)
      (.list (.ident name :: items)) Heap.root (Machine.ofHeap heap).begin =
      applyTo (invoke config budget config.maxDepth) (config.tailCalls && false && false)
        (.closure callee) values (Machine.ofHeap heap).begin :=
    evaluate_list (evaluateAll_of_denotes (.cons (denotes_ident operator) each) shows rfl)
  rw [Bool.and_false] at evaluated
  rw [evalOn, eval, evaluated, applyTo_closure]
  cases invoke config budget config.maxDepth ⟨callee, values⟩ (Machine.ofHeap heap).begin <;> rfl

end

end TailScheme
