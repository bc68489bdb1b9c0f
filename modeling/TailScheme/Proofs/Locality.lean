import TailScheme.Proofs.Footprint
import TailScheme.Proofs.Histories

/-!
# Definitions are local

A definition adds its name to the scope in which it is evaluated, and an assignment adds none. The
bodies of procedures and branches are evaluated in scopes of their own, wherever the scopes lie that
their closures were made in, so what they define is never added to a scope that was there before.
-/
namespace TailScheme

open Heap (Grants)
open Value (hereditary_confined)

section

variable {live : ScopeId → Prop} {changes : String → Prop}
  {tailCalls : Bool} {invoke : Call → Run Value}

/-- Confined calls add no names to the scopes that are there. -/
def CallsStay (live : ScopeId → Prop) (changes : String → Prop) (invoke : Call → Run Value) :
    Prop :=
  ∀ call : Call, call.All (Value.Confined live changes) →
    (invoke call).Stays live changes (fun _ _ => False) (Value.Confined live changes)

/-- Applying a confined procedure adds no names. -/
theorem stays_applyTo (calls : CallsStay live changes invoke) (tail : Bool) {operator : Value}
    {args : List Value} {creates : ScopeId → String → Prop}
    (confined : operator.Confined live changes)
    (args_confined : ∀ arg ∈ args, arg.Confined live changes) :
    (applyTo invoke tail operator args).Stays live changes creates
      (Value.Confined live changes) := by
  cases operator with
  | builtin procedure =>
    have composite := (hereditary_confined live changes).toComposite
    have yields := procedure.yields_apply composite args_confined
    exact Run.stays_making yields fun _ misuse => misuse.ofRunning
  | closure callee =>
    have call_confined : Call.All (Value.Confined live changes) ⟨callee, args⟩ :=
      ⟨confined, args_confined⟩
    cases tail with
    | true => exact Run.stays_defer call_confined
    | false => exact (calls _ call_confined).mono
  | _ => exact (Run.stays_printed _).bind fun _ _ => Run.stays_fail trivial

mutual

/-- Evaluating a tree adds only names to its scope that are defined in this tree for this scope. -/
theorem stays_evaluate (calls : CallsStay live changes invoke) {names : String → Prop} :
    ∀ (e : Expr) (scope : ScopeId), live scope → (∀ name, e.Defines name → names name) →
      (∀ name, e.Rebinds name → changes name) →
      (evaluate tailCalls invoke e scope).Stays live changes (Grants scope names)
        (Value.Confined live changes)
  | .bool _, _, _, _, _ => Run.stays_pure trivial
  | .int _, _, _, _, _ => Run.stays_pure trivial
  | .ident _, _, alive, _, _ => Run.stays_lookup alive
  | .quote datum, _, _, _, _ =>
    Run.stays_making (datum.yields_quoted (hereditary_confined live changes))
      fun _ unquotable => unquotable.ofRunning
  | .list items, scope, alive, defined, rebound => by
    refine (Run.stays_takeTailMark tailCalls).bind fun tail _ => ?_
    have items_stay := stays_evaluateAll calls items scope alive
      (fun item among name inside => defined name (.item among inside))
      (fun item among name inside => rebound name (.part (.item among) inside))
    refine items_stay.bind fun values confined => ?_
    cases values with
    | nil => exact Run.stays_fail trivial
    | cons operator args =>
      rw [List.forall_mem_cons] at confined
      exact stays_applyTo calls tail confined.1 confined.2
  | .define name value, scope, alive, defined, rebound => by
    refine (Run.stays_setFinal false).bind fun _ _ => ?_
    have value_stays := stays_evaluate calls value scope alive
      (fun label inside => defined label (.define inside))
      (fun label inside => rebound label (.part .define inside))
    refine value_stays.bind fun result confined => ?_
    have granted : Grants scope names scope name := ⟨rfl, defined name .here⟩
    exact (Run.stays_define confined granted (rebound name .define)).bind fun _ _ =>
      Run.stays_pure trivial
  | .set name value, scope, alive, defined, rebound => by
    refine (Run.stays_setFinal false).bind fun _ _ => ?_
    have value_stays := stays_evaluate calls value scope alive
      (fun label inside => defined label (.set inside))
      (fun label inside => rebound label (.part .set inside))
    refine value_stays.bind fun result confined => ?_
    exact (Run.stays_assign confined (rebound name .set)).bind fun _ _ => Run.stays_pure trivial
  | .lambda params body, scope, alive, _, rebound =>
    Run.stays_close alive fun item among name inside =>
      rebound name (.part (.lambda among) inside)
  | .cond branches, scope, alive, defined, rebound =>
    (Run.stays_takeTailMark tailCalls).bind fun tail _ =>
      stays_evaluateBranches calls branches scope tail alive
        (fun branch among guard tested name inside => defined name (.guard among tested inside))
        (fun branch among guard tested name inside =>
          rebound name (.part (.guard among tested) inside))
        (fun branch among item inside_body name inside =>
          rebound name (.part (.branch among inside_body) inside))

/-- Evaluating trees adds only names to their scope that are defined in them for this scope. -/
theorem stays_evaluateAll (calls : CallsStay live changes invoke) {names : String → Prop} :
    ∀ (items : List Expr) (scope : ScopeId), live scope →
      (∀ item ∈ items, ∀ name, item.Defines name → names name) →
      (∀ item ∈ items, ∀ name, item.Rebinds name → changes name) →
      (evaluateAll tailCalls invoke items scope).Stays live changes (Grants scope names)
        fun values => ∀ value ∈ values, value.Confined live changes
  | [], _, _, _, _ => Run.stays_pure (List.forall_mem_nil _)
  | item :: items, scope, alive, defined, rebound => by
    rw [List.forall_mem_cons] at defined rebound
    have item_stays := stays_evaluate calls item scope alive defined.1 rebound.1
    refine item_stays.bind fun value confined => ?_
    have items_stay := stays_evaluateAll calls items scope alive defined.2 rebound.2
    refine items_stay.bind fun values all_confined => ?_
    exact Run.stays_pure (List.forall_mem_cons.mpr ⟨confined, all_confined⟩)

/-- A body may add any name to its own scope. -/
theorem stays_evaluateBody (calls : CallsStay live changes invoke) :
    ∀ (items : List Expr) (scope : ScopeId), live scope →
      (∀ item ∈ items, ∀ name, item.Rebinds name → changes name) →
      (evaluateBody tailCalls invoke items scope).Stays live changes
        (Grants scope fun _ => True) (Value.Confined live changes)
  | [], _, _, _ => Run.stays_pure trivial
  | [last], scope, alive, rebound =>
    (Run.stays_setFinal true).bind fun _ _ =>
      stays_evaluate calls last scope alive (fun _ _ => trivial)
        (List.forall_mem_singleton.mp rebound)
  | item :: next :: rest, scope, alive, rebound => by
    rw [List.forall_mem_cons] at rebound
    refine (Run.stays_setFinal false).bind fun _ _ => ?_
    have item_stays := stays_evaluate calls item scope alive (fun _ _ => trivial) rebound.1
    exact item_stays.bind fun _ _ => stays_evaluateBody calls (next :: rest) scope alive rebound.2

/-- Choosing a branch adds only names that are defined in the tests. -/
theorem stays_evaluateBranches (calls : CallsStay live changes invoke) {names : String → Prop} :
    ∀ (branches : List Branch) (scope : ScopeId) (tail : Bool), live scope →
      (∀ branch ∈ branches, ∀ guard, branch.guard? = some guard →
        ∀ name, guard.Defines name → names name) →
      (∀ branch ∈ branches, ∀ guard, branch.guard? = some guard →
        ∀ name, guard.Rebinds name → changes name) →
      (∀ branch ∈ branches, ∀ item ∈ branch.body, ∀ name, item.Rebinds name → changes name) →
      (evaluateBranches tailCalls invoke branches scope tail).Stays live changes
        (Grants scope names) (Value.Confined live changes)
  | [], _, _, _, _, _, _ => Run.stays_pure trivial
  | .otherwise body :: branches, scope, tail, alive, _, _, bodies =>
    Run.stays_inScope alive (List.forall_mem_nil _) fun inner inner_alive =>
      stays_evaluateBody calls body inner inner_alive (bodies _ List.mem_cons_self)
  | .test guard body :: branches, scope, tail, alive, defined, rebound, bodies => by
    rw [List.forall_mem_cons] at defined rebound bodies
    have guard_stays := stays_evaluate calls guard scope alive (defined.1 guard rfl)
      (rebound.1 guard rfl)
    refine guard_stays.bind fun value _ => ?_
    match value with
    | .bool true =>
      exact Run.stays_inScope alive (List.forall_mem_nil _) fun inner inner_alive =>
        stays_evaluateBody calls body inner inner_alive bodies.1
    | .bool false =>
      exact stays_evaluateBranches calls branches scope tail alive defined.2 rebound.2 bodies.2
    | .nil | .int _ | .symbol _ | .builtin _ | .pair _ _ _ | .closure _ =>
      exact (Run.stays_printed _).bind fun _ _ => Run.stays_fail trivial

end

/-- Running the body of a confined closure adds no names to the scopes that are there. -/
theorem stays_enter (calls : CallsStay live changes invoke) :
    CallsStay live changes (enter tailCalls invoke) := by
  intro call confined
  have entries : Bindings.All (Value.Confined live changes)
      (call.callee.params.zip call.args) :=
    fun entry among => confined.args entry.2 (List.of_mem_zip among).2
  have bindings : (Bindings.bindAll (call.callee.params.zip call.args) []).All
      (Value.Confined live changes) := .bindAll entries (List.forall_mem_nil _)
  obtain ⟨alive, code⟩ := confined.callee
  exact (Run.stays_checkCount call).bind fun _ _ =>
    Run.stays_inScope alive bindings fun inner inner_alive =>
      stays_evaluateBody calls call.callee.body inner inner_alive code

/-- The calls of a frame add no names to the scopes that are there. -/
theorem stays_runCalls (calls : CallsStay live changes invoke) (budget : Nat) :
    CallsStay live changes (runCalls tailCalls invoke budget) := by
  induction budget with
  | zero =>
    intro call confined
    refine (stays_enter calls call confined).bind fun value value_confined => ?_
    refine Run.stays_takeDeferred.bind fun deferred _ => ?_
    cases deferred with
    | none => exact Run.stays_pure value_confined
    | some next => exact Run.stays_outOfBudget
  | succ budget ih =>
    intro call confined
    refine (stays_enter calls call confined).bind fun value value_confined => ?_
    refine Run.stays_takeDeferred.bind fun deferred deferred_confined => ?_
    cases deferred with
    | none => exact Run.stays_pure value_confined
    | some next => exact ih next (deferred_confined next rfl)

end

/-- Calls outside tail position add no names to the scopes that are there, whatever room there
is. -/
theorem stays_invoke {live : ScopeId → Prop} {changes : String → Prop} (config : Config)
    (budget room : Nat) : CallsStay live changes (invoke config budget room) := by
  induction room with
  | zero => exact fun _ _ => Run.stays_fail trivial
  | succ room ih =>
    exact fun call confined => (stays_runCalls ih budget call confined).withFrame call.callee

/-- Evaluating a tree at the top level adds only names to the top level that the tree defines
there. -/
theorem stays_eval {live : ScopeId → Prop} {changes : String → Prop} (config : Config)
    (budget : Nat) {e : Expr} (alive : live Heap.root)
    (rebound : ∀ name, e.Rebinds name → changes name) :
    (eval config budget e).Stays live changes (Grants Heap.root e.Defines)
      (Value.Confined live changes) := by
  intro machine confined
  have walked : Run.Stays live changes (Grants Heap.root e.Defines) (Value.Confined live changes)
      (evaluate config.tailCalls (invoke config budget config.maxDepth) e Heap.root) :=
    stays_evaluate (stays_invoke config budget config.maxDepth) e Heap.root alive (fun _ => id)
      rebound
  have stayed := walked machine.begin ⟨confined.heap, confined.stack⟩
  unfold eval
  match evaluate config.tailCalls (invoke config budget config.maxDepth) e Heap.root
    machine.begin, stayed with
  | .ok value after, ⟨is_confined, traced⟩ => exact ⟨is_confined, traced.confined, traced.footprint⟩
  | .error stop after, ⟨running, traced⟩ =>
    exact ⟨running, ⟨traced.confined.heap, fun _ among => by cases among⟩, traced.footprint⟩

/-- Every value is confined if all scopes are alive and all names may change. -/
theorem Value.confined_of_all (value : Value) :
    value.Confined (fun _ => True) fun _ => True := by
  induction value with
  | pair id first second first_ih second_ih => exact ⟨first_ih, second_ih⟩
  | closure procedure => exact ⟨trivial, fun _ _ _ _ => trivial⟩
  | _ => trivial

/-- Every call is confined if all scopes are alive and all names may change. -/
theorem Call.confined_of_all (call : Call) :
    call.All (Value.Confined (fun _ => True) fun _ => True) :=
  ⟨Value.confined_of_all _, fun arg _ => arg.confined_of_all⟩

/-- Every machine is confined if all scopes are alive and all names may change. -/
theorem Machine.confined_of_all (machine : Machine) :
    machine.Confined (fun _ => True) fun _ => True :=
  ⟨⟨fun _ _ _ => Value.confined_of_all _, fun _ _ _ => trivial, fun _ => trivial⟩,
    fun _ _ call _ => call.confined_of_all⟩

namespace Heap

/-- The scopes that were there bind the same names. -/
def SameNames (before after : Heap) : Prop :=
  ∀ scope < before.scopes.size, ∀ name, after.Binds scope name ↔ before.Binds scope name

/-- The names of a scope to which none are granted stay the same. -/
theorem Footprint.binds_iff {creates : ScopeId → String → Prop} {changes : String → Prop}
    {before after : Heap} {scope : ScopeId} {name : String}
    (footprint : Footprint creates changes before after) (old : scope < before.scopes.size)
    (refused : ¬creates scope name) : after.Binds scope name ↔ before.Binds scope name :=
  ⟨fun binds => (footprint.created old binds).resolve_right refused, footprint.kept⟩

end Heap

/-- Whatever a step comes to, the machine that is left is traced. -/
theorem Run.Stays.traced {α : Type} {live : ScopeId → Prop} {changes : String → Prop}
    {creates : ScopeId → String → Prop} {result : α → Prop} {run : Run α}
    (stays : run.Stays live changes creates result) {machine : Machine}
    (confined : machine.Confined live changes) :
    Run.Traced live changes creates machine (left (run machine)) := by
  match run machine, stays machine confined with
  | .ok value after, stayed => exact stayed.2
  | .error stop after, stayed => exact stayed.2

/-- A step that grants no names leaves the names of all scopes as they were. -/
theorem Run.Stays.sameNames {α : Type} {result : α → Prop} {run : Run α}
    (stays : run.Stays (fun _ => True) (fun _ => True) (fun _ _ => False) result)
    (machine : Machine) : machine.heap.SameNames (left (run machine)).heap :=
  fun _ old _ => (stays.traced machine.confined_of_all).footprint.binds_iff old id

/-- Definitions are local, and assignments create nothing. Whether the evaluation of a tree ends
with a value or not, and whatever closures it calls, the scopes that were there bind the same names
as before, but for the scope of the tree: that one loses no name and gains only names that the tree
defines outside the bodies of procedures and branches. Calls and bodies of branches leave the names
of all scopes as they were. -/
theorem definitions_are_local (config : Config) (budget room : Nat) :
    (∀ (e : Expr) (scope : ScopeId) (machine : Machine),
      let after := left (evaluate config.tailCalls (invoke config budget room) e scope machine)
      (∀ other < machine.heap.scopes.size, other ≠ scope → ∀ name,
        after.heap.Binds other name ↔ machine.heap.Binds other name) ∧
      (∀ name, machine.heap.Binds scope name → after.heap.Binds scope name) ∧
      (scope < machine.heap.scopes.size → ∀ name, after.heap.Binds scope name →
        machine.heap.Binds scope name ∨ e.Defines name)) ∧
    (∀ (call : Call) (machine : Machine),
      machine.heap.SameNames (left (invoke config budget room call machine)).heap) ∧
    ∀ (body : List Expr) (scope : ScopeId) (tail : Bool) (machine : Machine),
      machine.heap.SameNames (left ((do
        let inner ← Run.openScope scope []
        Run.withMarks tail
          (evaluateBody config.tailCalls (invoke config budget room) body inner) : Run Value)
        machine)).heap := by
  have calls : CallsStay (fun _ => True) (fun _ => True) (invoke config budget room) :=
    stays_invoke config budget room
  refine ⟨?_, ?_, ?_⟩
  · intro e scope machine after
    have stays : Run.Stays (fun _ => True) (fun _ => True) (Grants scope e.Defines)
        (Value.Confined (fun _ => True) fun _ => True)
        (evaluate config.tailCalls (invoke config budget room) e scope) :=
      stays_evaluate calls e scope trivial (fun _ => id) fun _ _ => trivial
    have footprint := (stays.traced machine.confined_of_all).footprint
    refine ⟨?_, ?_, ?_⟩
    · intro other old different name
      exact footprint.binds_iff old fun granted => different granted.1
    · exact fun name => footprint.kept
    · exact fun old name binds => (footprint.created old binds).imp_right And.right
  · exact fun call machine => (calls call call.confined_of_all).sameNames machine
  · intro body scope tail machine
    have stays : Run.Stays (fun _ => True) (fun _ => True) (fun _ _ => False)
        (Value.Confined (fun _ => True) fun _ => True)
        (Run.openScope scope [] >>= fun inner => Run.withMarks tail
          (evaluateBody config.tailCalls (invoke config budget room) body inner)) :=
      Run.stays_inScope trivial (List.forall_mem_nil _) fun inner _ =>
        stays_evaluateBody calls body inner trivial fun _ _ _ _ => trivial
    exact stays.sameNames machine

/-- A procedure that is made and called in an inner scope defines a name for itself alone, while the
definition among the arguments of the call adds its name to that scope. -/
theorem definitions_are_local_of_call :
    let machine := Machine.ofHeap (Heap.initial.newScope (some Heap.root) []).2
    let e := Expr.list [.lambda ["y"] [.define "w" (.ident "y")], .define "z" (.int 1)]
    let after := left (evaluate true (invoke ⟨true, 200⟩ 5 200) e 1 machine)
    (Heap.root < machine.heap.scopes.size ∧ Heap.root ≠ 1 ∧
      (after.heap.Binds Heap.root "w" ↔ machine.heap.Binds Heap.root "w")) ∧
    (1 < machine.heap.scopes.size ∧ after.heap.Binds 1 "z" ∧ ¬machine.heap.Binds 1 "z" ∧
      (machine.heap.Binds 1 "z" ∨ e.Defines "z") ∧ ¬after.heap.Binds 1 "w") := by
  intro machine e after
  obtain ⟨others, -, own⟩ := (definitions_are_local ⟨true, 200⟩ 5 200).1 e 1 machine
  have old : 1 < machine.heap.scopes.size := by decide
  have gained : after.heap.Binds 1 "z" := by
    unfold Heap.Binds
    decide
  refine ⟨⟨by decide, by decide, others Heap.root (by decide) (by decide) "w"⟩, old, gained, ?_,
    own old "z" gained, ?_⟩
  · unfold Heap.Binds
    decide
  · unfold Heap.Binds
    decide

end TailScheme
