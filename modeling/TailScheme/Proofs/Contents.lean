import TailScheme.Proofs.Failures

/-!
# What a machine holds

Values are kept in the scopes of the heap and in the calls that are deferred to frames, and nowhere
else. So a property of all values that a machine holds is kept by a step as soon as the step stores
none without it (`Run.Keeps`). This is said once for each step that `evaluate` is made of, whatever
the property is.
-/
namespace TailScheme

namespace Bindings

/-- All bound values are good. -/
def All (good : Value → Prop) (bindings : Bindings) : Prop := ∀ entry ∈ bindings, good entry.2

section

variable {good : Value → Prop} {bindings : Bindings} {name : String} {value : Value}

/-- A value that is found is good. -/
theorem All.find? (all : bindings.All good) (found : bindings.find? name = some value) :
    good value := by
  induction bindings with
  | nil => cases found
  | cons entry rest ih =>
    rw [All, List.forall_mem_cons] at all
    rw [Bindings.find?] at found
    split at found
    · cases found
      exact all.1
    · exact ih all.2 found

/-- Binding a good value leaves all values good. -/
theorem All.bind (all : bindings.All good) (is_good : good value) :
    (bindings.bind name value).All good := by
  induction bindings with
  | nil => exact List.forall_mem_singleton.mpr is_good
  | cons entry rest ih =>
    rw [All, List.forall_mem_cons] at all
    rw [Bindings.bind]
    split
    · exact List.forall_mem_cons.mpr ⟨is_good, all.2⟩
    · exact List.forall_mem_cons.mpr ⟨all.1, ih all.2⟩

/-- Binding good values leaves all values good. -/
theorem All.bindAll {entries : Bindings} (entries_good : entries.All good)
    (all : bindings.All good) : (Bindings.bindAll entries bindings).All good := by
  induction entries generalizing bindings with
  | nil => exact all
  | cons entry entries ih =>
    rw [All, List.forall_mem_cons] at entries_good
    exact ih entries_good.2 (all.bind entries_good.1)

end

end Bindings

namespace Heap

section

variable {heap : Heap} {scope other : ScopeId} {name : String} {value : Value}

/-- Binding a name changes the bindings of one scope. -/
theorem locals_insert : (heap.insert scope name value).locals other =
    if scope = other ∧ other < heap.scopes.size then (heap.locals other).bind name value
    else heap.locals other := by
  unfold locals insert
  by_cases same : scope = other
  · by_cases inside : other < heap.scopes.size
    · simp [Array.getElem_modify, same, inside]
    · simp [same, inside]
  · simp [Array.getElem?_modify, same]

/-- A new scope has the bindings it is made with. -/
theorem locals_newScope {parent : Option ScopeId} {bindings : Bindings} :
    (heap.newScope parent bindings).2.locals other =
      if other = heap.scopes.size then bindings else heap.locals other := by
  unfold locals newScope
  by_cases new : other = heap.scopes.size
  · simp [new]
  · simp [Array.getElem?_push, new]

/-- Giving a closure its name changes no scope. -/
theorem scopes_giveName : (heap.giveName value name).scopes = heap.scopes := by
  unfold giveName
  split <;> rfl

end

/-- All values in the scopes are good. -/
def All (good : Value → Prop) (heap : Heap) : Prop := ∀ scope, (heap.locals scope).All good

section

variable {good : Value → Prop} {heap : Heap} {scope : ScopeId} {name : String} {value : Value}

/-- The scopes are all that counts. -/
theorem All.of_scopes {after : Heap} (all : heap.All good) (same : after.scopes = heap.scopes) :
    after.All good := by
  intro scope
  have locals_eq : after.locals scope = heap.locals scope := by
    unfold locals
    rw [same]
  rw [locals_eq]
  exact all scope

/-- A value that is found along scopes is good. -/
theorem All.findAlong {scopes : List ScopeId} {holder : ScopeId} (all : heap.All good)
    (found : heap.findAlong name scopes = some (holder, value)) : good value := by
  induction scopes with
  | nil => cases found
  | cons inner scopes ih =>
    rw [Heap.findAlong] at found
    split at found
    · next found_here =>
      have is_good := (all inner).find? found_here
      cases found
      exact is_good
    · exact ih found

/-- A value that is looked up is good. -/
theorem All.lookup (all : heap.All good) (found : heap.lookup scope name = some value) :
    good value := by
  unfold Heap.lookup at found
  obtain ⟨⟨holder, result⟩, found_along, rfl⟩ := Option.map_eq_some_iff.mp found
  exact all.findAlong found_along

/-- Binding a good value leaves all values good. -/
theorem All.insert (all : heap.All good) (is_good : good value) :
    (heap.insert scope name value).All good := by
  intro other
  rw [locals_insert]
  split
  · exact (all other).bind is_good
  · exact all other

/-- Assigning a good value leaves all values good. -/
theorem All.assign (all : heap.All good) (is_good : good value) :
    (heap.assign scope name value).2.All good := by
  unfold Heap.assign
  split
  · exact all
  · exact all.insert is_good

/-- Making a scope with good values leaves all values good. -/
theorem All.newScope {parent : Option ScopeId} {bindings : Bindings} (all : heap.All good)
    (bindings_good : bindings.All good) : (heap.newScope parent bindings).2.All good := by
  intro other
  rw [locals_newScope]
  split
  · exact bindings_good
  · exact all other

/-- A program starts with nothing but builtins. -/
theorem all_initial (builtins_good : ∀ procedure, good (.builtin procedure)) :
    initial.All good := by
  refine All.newScope ?_ ?_
  · intro scope entry among
    simp [locals, empty] at among
  · intro entry among
    obtain ⟨procedure, _, rfl⟩ := List.mem_map.mp among
    exact builtins_good procedure

end

end Heap

/-- The procedure and the arguments of a call are good. -/
structure Call.All (good : Value → Prop) (call : Call) : Prop where
  callee : good (.closure call.callee)
  args : ∀ arg ∈ call.args, good arg

namespace Stack

/-- All calls that are deferred to frames are good. -/
def All (good : Value → Prop) (stack : Stack) : Prop :=
  ∀ frame ∈ stack.frames, ∀ call ∈ frame.deferred, call.All good

section

variable {good : Value → Prop} {stack : Stack}

/-- No call is deferred to a frame that starts. -/
theorem All.push (all : stack.All good) (running : Closure) : (stack.push running).All good :=
  List.forall_mem_cons.mpr ⟨(by rintro _ ⟨⟩), all⟩

/-- Ending a frame leaves all calls good. -/
theorem All.pop (all : stack.All good) : stack.pop.All good :=
  fun frame among => all frame (List.mem_of_mem_tail among)

/-- A change of the innermost frame leaves all calls good if those of this frame are. -/
theorem All.onTop {change : Frame → Frame} (all : stack.All good)
    (changed : ∀ frame ∈ stack.frames, ∀ call ∈ (change frame).deferred, call.All good) :
    (stack.onTop change).All good := by
  obtain ⟨frames, depth, counted⟩ := stack
  cases frames with
  | nil => exact all
  | cons top rest =>
    refine List.forall_mem_cons.mpr ⟨changed top List.mem_cons_self, ?_⟩
    exact fun frame among => all frame (List.mem_cons_of_mem top among)

/-- Marks have nothing to do with calls. -/
theorem All.mark (all : stack.All good) (final : Bool) : (stack.mark final).All good :=
  all.onTop all

/-- A good call may be deferred. -/
theorem All.defer {call : Call} (all : stack.All good) (is_good : call.All good) :
    (stack.defer call).All good := by
  refine all.onTop fun frame _ deferred among => ?_
  cases among
  exact is_good

/-- Taking a deferred call up leaves the others good. -/
theorem All.clearDeferred (all : stack.All good) : stack.clearDeferred.All good :=
  all.onTop (by rintro _ _ _ ⟨⟩)

/-- The call that is deferred to the innermost frame is good. -/
theorem All.deferred? {call : Call} (all : stack.All good)
    (deferred : stack.deferred? = some call) : call.All good := by
  obtain ⟨frames, depth, counted⟩ := stack
  cases frames with
  | nil => cases deferred
  | cons top rest => exact all top List.mem_cons_self call deferred

end

end Stack

/-- All values that the machine holds are good. -/
structure Machine.All (good : Value → Prop) (machine : Machine) : Prop where
  heap : machine.heap.All good
  stack : machine.stack.All good

namespace Run

/-- The machine still holds only good values, and the result is of its kind or the stop is
allowed. -/
def Kept {α : Type} (good : Value → Prop) (allowed : Stop → Prop) (result : α → Prop) :
    EStateM.Result Stop Machine α → Prop
  | .ok value after => result value ∧ after.All good
  | .error stop after => allowed stop ∧ after.All good

/-- A step from a machine that holds only good values keeps to them. -/
def Keeps {α : Type} (good : Value → Prop) (allowed : Stop → Prop) (result : α → Prop)
    (run : Run α) : Prop :=
  ∀ machine : Machine, machine.All good → Kept good allowed result (run machine)

section

variable {α : Type} {good : Value → Prop} {allowed : Stop → Prop} {result : α → Prop}

/-- Marking the next expression changes no value. -/
theorem keeps_setFinal (final : Bool) :
    (setFinal final).Keeps good allowed fun _ => True :=
  fun _ all => ⟨trivial, all.heap, all.stack⟩

/-- Taking the mark off changes no value. -/
theorem keeps_takeTailMark (tailCalls : Bool) :
    (takeTailMark tailCalls).Keeps good allowed fun _ => True :=
  fun _ all => ⟨trivial, all.heap, all.stack⟩

/-- A deferred call that is taken up is good. -/
theorem keeps_takeDeferred :
    takeDeferred.Keeps good allowed fun deferred => ∀ call ∈ deferred, call.All good := by
  intro machine all
  unfold takeDeferred
  rcases deferred : machine.stack.deferred? with _ | call
  · exact ⟨(by rintro _ ⟨⟩), all⟩
  · refine ⟨?_, all.heap, all.stack.clearDeferred⟩
    rintro _ ⟨⟩
    exact all.stack.deferred? deferred

/-- Deferring a good call is allowed. -/
theorem keeps_defer {call : Call} {value : Value} (value_good : good value)
    (is_good : call.All good) :
    Keeps good allowed good fun machine => .ok value (machine.defer call) :=
  fun _ all => ⟨value_good, all.heap, all.stack.defer is_good⟩

/-- What is made of good values is good. -/
theorem keeps_making {make : Value.Making α} {failure : Error → Prop}
    (yields : make.Yields failure result)
    (is_allowed : ∀ error, failure error → allowed (.failed error)) :
    (making make).Keeps good allowed result := by
  intro machine all
  unfold making
  match make machine.heap.pairs, yields machine.heap.pairs with
  | .ok (value, pairs), is_good => exact ⟨is_good, all.heap.of_scopes rfl, all.stack⟩
  | .error error, failed => exact ⟨is_allowed error failed, all⟩

/-- Opening a scope with good values is allowed. -/
theorem keeps_openScope (parent : ScopeId) {bindings : Bindings}
    (bindings_good : bindings.All good) :
    (openScope parent bindings).Keeps good allowed fun _ => True :=
  fun _ all => ⟨trivial, all.heap.newScope bindings_good, all.stack⟩

/-- A closure is as good as its code. -/
theorem keeps_close {params : List String} {body : List Expr} {scope : ScopeId}
    (code_good : ∀ id, good (.closure ⟨id, params, body, scope⟩)) :
    (close params body scope).Keeps good allowed good :=
  fun machine all => ⟨code_good machine.heap.names.size, all.heap.of_scopes rfl, all.stack⟩

/-- A value that is looked up is good. -/
theorem keeps_lookup {scope : ScopeId} {name : String}
    (is_allowed : allowed (.failed (.unbound name))) :
    (lookup scope name).Keeps good allowed good := by
  intro machine all
  unfold lookup
  rcases found : machine.heap.lookup scope name with _ | value
  · exact ⟨is_allowed, all⟩
  · exact ⟨all.heap.lookup found, all⟩

/-- A good value may be bound. -/
theorem keeps_define {scope : ScopeId} {name : String} {value : Value} (is_good : good value) :
    (define scope name value).Keeps good allowed fun _ => True :=
  fun _ all => ⟨trivial, (all.heap.of_scopes Heap.scopes_giveName).insert is_good, all.stack⟩

/-- A good value may be assigned. -/
theorem keeps_assign {scope : ScopeId} {name : String} {value : Value} (is_good : good value)
    (is_allowed : allowed (.failed (.unbound name))) :
    (assign scope name value).Keeps good allowed fun _ => True := by
  intro machine all
  have assigned : (machine.heap.assign scope name value).2.All good := all.heap.assign is_good
  unfold assign
  generalize machine.heap.assign scope name value = outcome at assigned
  obtain ⟨_ | _, heap⟩ := outcome
  · exact ⟨is_allowed, assigned, all.stack⟩
  · exact ⟨trivial, assigned.of_scopes Heap.scopes_giveName, all.stack⟩

end

end Run

end TailScheme
