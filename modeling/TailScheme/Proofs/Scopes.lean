import TailScheme.Proofs.Effects
import TailScheme.Proofs.Contents

/-!
# What an evaluation does to the scopes

A step of an evaluation opens a scope, or it writes one binding of one scope, or it leaves all
scopes alone. Only definitions and assignments write (`Moment.Writes`). So a binding lasts until the
same name is written again in the same scope (`Moment.find?_of_reaches`).

A definition writes into the scope in which it is evaluated, and would be lost if there were none
under that number. That there is one is an invariant: all scopes that an evaluation refers to, by
what it does next, by what waits and by the closures it holds, are there (`Moment.Anchored`).
-/
namespace TailScheme

open StateTransition

namespace Heap

section

variable {heap after : Heap} {scope holder : ScopeId} {name : String} {value : Value}

/-- The scopes determine what each of them binds. -/
theorem locals_of_scopes (same : after.scopes = heap.scopes) (scope : ScopeId) :
    after.locals scope = heap.locals scope := by
  unfold locals
  rw [same]

/-- A scope that binds something is there. -/
theorem lt_size_of_find? (found : (heap.locals scope).find? name = some value) :
    scope < heap.scopes.size := by
  by_contra missing
  have nothing : heap.scopes[scope]? = none :=
    Array.getElem?_eq_none (Nat.le_of_not_lt missing)
  unfold locals at found
  rw [nothing] at found
  cases found

/-- A name that is found along scopes is bound in the scope where it is found. -/
theorem find?_of_findAlong {scopes : List ScopeId}
    (found : heap.findAlong name scopes = some (holder, value)) :
    (heap.locals holder).find? name = some value := by
  induction scopes with
  | nil => cases found
  | cons inner scopes ih =>
    rw [findAlong] at found
    split at found
    · next found_here =>
      cases found
      exact found_here
    · exact ih found

/-- The scopes determine what they are when a binding is written. -/
theorem scopes_insert (same : after.scopes = heap.scopes) :
    (after.insert scope name value).scopes = (heap.insert scope name value).scopes := by
  unfold insert
  rw [same]

/-- Writing a binding makes no scope. -/
theorem size_insert : (heap.insert scope name value).scopes.size = heap.scopes.size :=
  Array.size_modify ..

/-- The scopes are those of before, or one more. -/
def Opens (heap after : Heap) : Prop :=
  after.scopes = heap.scopes ∨
    ∃ parent bindings, after.scopes = heap.scopes.push ⟨some parent, bindings⟩

/-- The scopes that were there bind what they bound. -/
theorem Opens.find? (opens : heap.Opens after)
    (found : (heap.locals scope).find? name = some value) :
    (after.locals scope).find? name = some value := by
  rcases opens with same | ⟨parent, bindings, pushed⟩
  · rwa [locals_of_scopes same]
  · have old : scope ≠ heap.scopes.size := Nat.ne_of_lt (lt_size_of_find? found)
    have locals_eq : after.locals scope = heap.locals scope := by
      rw [locals_of_scopes (show after.scopes = (heap.newScope (some parent) bindings).2.scopes
        from pushed), locals_newScope, if_neg old]
    rwa [locals_eq]

end

end Heap

/-- A step that changes no scope. -/
def Run.KeepsScopes {α : Type} (run : Run α) : Prop := ∀ machine : Machine,
  match run machine with
  | .ok _ after | .error _ after => after.heap.scopes = machine.heap.scopes

namespace Run

/-- Making pairs changes no scope. -/
theorem keepsScopes_making {α : Type} (make : Value.Making α) : (making make).KeepsScopes := by
  intro machine
  unfold making
  cases make machine.heap.pairs <;> rfl

/-- Making a closure changes no scope. -/
theorem keepsScopes_close (params : List String) (body : List Expr) (scope : ScopeId) :
    (close params body scope).KeepsScopes :=
  fun _ => rfl

/-- Looking a name up changes no scope. -/
theorem keepsScopes_lookup (scope : ScopeId) (name : String) :
    (lookup scope name).KeepsScopes := by
  intro machine
  unfold lookup
  cases machine.heap.lookup scope name <;> rfl

/-- Checking the number of arguments changes no scope. -/
theorem keepsScopes_checkCount (call : Call) : (checkCount call).KeepsScopes := by
  intro machine
  by_cases fits : call.args.length = call.callee.params.length
  · simp only [checkCount, if_pos fits]
  · simp only [checkCount, if_neg fits]

end Run

namespace Moment

/-- A definition or an assignment is executed: this value becomes that of the name in the scope. -/
inductive Writes : Moment → ScopeId → String → Value → Prop where
  | define {value : Value} {name : String} {scope : ScopeId} {pending : List Pending}
      {machine : Machine} :
      Writes ⟨.give value, .define name scope :: pending, machine⟩ scope name value
  | set {value old : Value} {name : String} {scope holder : ScopeId} {pending : List Pending}
      {machine : Machine} (found : machine.heap.find? scope name = some (holder, old)) :
      Writes ⟨.give value, .set name scope :: pending, machine⟩ holder name value

section

variable {α : Type} {config : Config} {pending : List Pending} {machine : Machine}

/-- A step that changes no scope, and what comes after it. -/
theorem opens_proceed {run : Run α} (keeps : run.KeepsScopes) {go : α → Machine → Moment}
    (goes : ∀ result after, after.heap.scopes = machine.heap.scopes →
      machine.heap.Opens (go result after).machine.heap) :
    machine.heap.Opens (proceed run pending machine go).machine.heap := by
  have same := keeps machine
  unfold proceed
  split
  · next result after ok =>
    rw [ok] at same
    exact goes result after same
  · next cause after failed =>
    rw [failed] at same
    exact .inl same

/-- Handing over the value of a step that changes no scope. -/
theorem opens_proceedWith {run : Run Value} (keeps : run.KeepsScopes) :
    machine.heap.Opens (proceedWith run pending machine).machine.heap :=
  opens_proceed keeps fun _ _ same => .inl same

/-- The body of a branch gets a scope. -/
theorem opens_choose (place : Place) (index : Nat) (body : List Expr) (scope : ScopeId)
    (tail : Bool) :
    machine.heap.Opens (choose place index body scope tail pending machine).machine.heap :=
  .inr ⟨scope, [], rfl⟩

/-- The first step of an expression changes no scope. -/
theorem opens_evaluating (place : Place) (scope : ScopeId) (e : Expr) :
    machine.heap.Opens (evaluating config place scope pending machine e).machine.heap := by
  cases e with
  | ident name => exact opens_proceedWith (Run.keepsScopes_lookup scope name)
  | quote datum => exact opens_proceedWith (Run.keepsScopes_making datum.quoted)
  | lambda params body => exact opens_proceedWith (Run.keepsScopes_close params body scope)
  | _ => exact .inl rfl

/-- Applying a procedure changes no scope. -/
theorem opens_applying (tail : Bool) (args : List Value) (operator : Value) :
    machine.heap.Opens (applying config tail args pending machine operator).machine.heap := by
  cases operator with
  | builtin procedure => exact opens_proceedWith (Run.keepsScopes_making _)
  | closure callee =>
    simp only [applying]
    split
    · exact .inl rfl
    · split <;> exact .inl rfl
  | _ => exact .inl rfl

/-- The body of a call gets a scope. -/
theorem opens_entering (call : Call) :
    machine.heap.Opens (entering call pending machine).machine.heap := by
  refine opens_proceed (Run.keepsScopes_checkCount call) fun _ after same => ?_
  refine .inr ⟨call.callee.scope, Bindings.bindAll (call.callee.params.zip call.args) [], ?_⟩
  rw [← same]
  rfl

/-- What waits for a value opens a scope at most, unless it is a definition or an assignment. -/
theorem opens_or_writes (value : Value) (item : Pending) :
    machine.heap.Opens (resuming value pending machine item).machine.heap ∨
      ∃ scope name value', Writes ⟨.give value, item :: pending, machine⟩ scope name value' := by
  cases item with
  | define name scope => exact .inr ⟨scope, name, value, .define⟩
  | set name scope =>
    cases found : machine.heap.find? scope name with
    | none =>
      refine .inl (.inl ?_)
      simp only [resuming, proceed, Run.assign, Heap.assign, found]
      rfl
    | some place => exact .inr ⟨place.1, name, value, .set found⟩
  | choose place index body branches scope tail =>
    simp only [resuming]
    split
    · exact .inl (opens_choose _ _ _ _ _)
    · exact .inl (.inl rfl)
    · exact .inl (.inl rfl)
  | frame =>
    simp only [resuming]
    split <;> exact .inl (.inl rfl)
  | _ => exact .inl (.inl rfl)

end

section

variable {config : Config} {s t : Moment} {scope : ScopeId} {name : String} {value : Value}

/-- Executing a definition or an assignment writes the binding. -/
theorem scopes_of_writes (writes : s.Writes scope name value) (follows : next config s = some t) :
    t.machine.heap.scopes = (s.machine.heap.insert scope name value).scopes := by
  cases writes with
  | define =>
    cases follows
    exact Heap.scopes_insert Heap.scopes_giveName
  | set found =>
    cases follows
    simp only [resuming, proceed, Run.assign, Heap.assign, found, if_pos]
    exact Heap.scopes_giveName

/-- What one step does to the scopes. -/
theorem scopes_of_next (follows : next config s = some t) :
    s.machine.heap.Opens t.machine.heap ∨ ∃ scope name value, s.Writes scope name value := by
  revert follows
  fun_cases next config s <;> rintro ⟨⟩
  case case1 place e scope pending machine => exact .inl (opens_evaluating place scope e)
  case case5 place tail operator args pending machine =>
    exact .inl (opens_applying tail args operator)
  case case10 => exact .inl (opens_choose _ _ _ _ _)
  case case12 call pending machine => exact .inl (opens_entering call)
  case case13 value item pending machine => exact opens_or_writes value item
  case case14 cause item pending machine =>
    cases item <;> exact .inl (.inl rfl)
  all_goals exact .inl (.inl rfl)

/-- No scope disappears. -/
theorem size_le_of_next (follows : next config s = some t) :
    s.machine.heap.scopes.size ≤ t.machine.heap.scopes.size := by
  rcases scopes_of_next follows with (same | ⟨parent, bindings, pushed⟩) |
    ⟨scope, name, value, writes⟩
  · rw [same]
  · rw [pushed, Array.size_push]
    exact Nat.le_succ _
  · rw [scopes_of_writes writes follows, Heap.size_insert]

/-- A binding lasts unless the same name is written in the same scope. -/
theorem find?_of_next (follows : next config s = some t)
    (found : (s.machine.heap.locals scope).find? name = some value) :
    (t.machine.heap.locals scope).find? name = some value ∨
      ∃ other, s.Writes scope name other := by
  rcases scopes_of_next follows with opens | ⟨holder, written, other, writes⟩
  · exact .inl (opens.find? found)
  · by_cases same : holder = scope ∧ written = name
    · obtain ⟨rfl, rfl⟩ := same
      exact .inr ⟨other, writes⟩
    · left
      rw [Heap.locals_of_scopes (scopes_of_writes writes follows), Heap.locals_insert]
      split
      · next written_here =>
        have other_name : written ≠ name := fun name_eq => same ⟨written_here.1, name_eq⟩
        rwa [Bindings.find?_bind, if_neg other_name]
      · exact found

/-- A binding lasts along a run unless the same name is written in the same scope. -/
theorem find?_of_reaches (reached : Reaches (next config) s t)
    (found : (s.machine.heap.locals scope).find? name = some value) :
    (t.machine.heap.locals scope).find? name = some value ∨
      ∃ u other, Reaches (next config) s u ∧ Reaches (next config) u t ∧
        u.Writes scope name other := by
  induction reached with
  | refl => exact .inl found
  | @tail u v reached follows ih =>
    rcases ih with lasts | ⟨w, other, before, after, writes⟩
    · rcases find?_of_next follows lasts with lasts | ⟨other, writes⟩
      · exact .inl lasts
      · exact .inr ⟨u, other, reached, .single follows, writes⟩
    · exact .inr ⟨w, other, before, after.tail follows, writes⟩

end

end Moment

/-- The scopes that a value refers to, by the closures in it, are among the first `count`. -/
def Value.Within (count : Nat) : Value → Prop
  | .pair _ first second => first.Within count ∧ second.Within count
  | .closure procedure => procedure.scope < count
  | _ => True

/-- Pairs refer to no scopes of their own. -/
theorem Value.hereditary_within (count : Nat) : Hereditary (Within count) where
  nil := trivial
  bool _ := trivial
  int _ := trivial
  symbol _ := trivial
  builtin _ := trivial
  pair_iff _ _ _ := Iff.rfl

section

variable {count more : Nat}

/-- More scopes may only be of use. -/
theorem Value.Within.mono {value : Value} (within : value.Within count) (le : count ≤ more) :
    value.Within more := by
  induction value with
  | pair id first second first_ih second_ih =>
    exact ⟨first_ih within.1, second_ih within.2⟩
  | closure procedure => exact Nat.lt_of_lt_of_le within le
  | _ => trivial

/-- More scopes may only be of use to a call. -/
theorem Call.All.mono {call : Call} (within : call.All (Value.Within count)) (le : count ≤ more) :
    call.All (Value.Within more) :=
  ⟨within.callee.mono le, fun arg among => (within.args arg among).mono le⟩

/-- More scopes may only be of use to a machine. -/
theorem Machine.All.mono {machine : Machine} (within : machine.All (Value.Within count))
    (le : count ≤ more) : machine.All (Value.Within more) :=
  ⟨fun scope entry among => (within.heap scope entry among).mono le,
    fun frame among call deferred => (within.stack frame among call deferred).mono le⟩

end

/-- The scopes that a task refers to are among the first `count`. -/
def Task.Within (count : Nat) : Task → Prop
  | .evaluate _ _ scope | .body _ _ _ scope | .branches _ _ _ scope _ => scope < count
  | .operands _ _ values _ scope => (∀ value ∈ values, value.Within count) ∧ scope < count
  | .apply _ _ operator args => operator.Within count ∧ ∀ arg ∈ args, arg.Within count
  | .enter call => call.All (Value.Within count)
  | .give value => value.Within count
  | .stop _ => True

/-- The scopes that something pending refers to are among the first `count`. -/
def Pending.Within (count : Nat) : Pending → Prop
  | .operands _ _ values _ scope => (∀ value ∈ values, value.Within count) ∧ scope < count
  | .define _ scope | .set _ scope | .choose _ _ _ _ scope _ | .sequence _ _ _ scope =>
    scope < count
  | .marks _ _ | .frame => True

namespace Moment

/-- The scopes that a moment refers to are among the first `count`. -/
structure Within (count : Nat) (s : Moment) : Prop where
  task : s.task.Within count
  pending : ∀ item ∈ s.pending, item.Within count
  machine : s.machine.All (Value.Within count)

/-- The scopes that a moment refers to are there. -/
def Anchored (s : Moment) : Prop := ∃ count ≤ s.machine.heap.scopes.size, s.Within count

section

variable {config : Config} {count more : Nat} {pending : List Pending} {machine : Machine}

/-- More scopes may only be of use to what is pending. -/
theorem pending_mono (within : ∀ item ∈ pending, item.Within count) (le : count ≤ more) :
    ∀ item ∈ pending, item.Within more := by
  intro item among
  have item_within := within item among
  cases item with
  | operands place tail values items scope =>
    exact ⟨fun value member => (item_within.1 value member).mono le,
      Nat.lt_of_lt_of_le item_within.2 le⟩
  | marks frame own => trivial
  | frame => trivial
  | _ => exact Nat.lt_of_lt_of_le item_within le

/-- A step of the machine that keeps to the first scopes, and what comes after it. -/
theorem within_proceed {α : Type} {run : Run α} {result : α → Prop}
    (keeps : run.Keeps (Value.Within count) (fun _ => True) result)
    (waits : ∀ item ∈ pending, item.Within count) (holds : machine.All (Value.Within count))
    {go : α → Machine → Moment}
    (goes : ∀ value after, result value → after.All (Value.Within count) →
      (go value after).Within count) :
    (proceed run pending machine go).Within count := by
  have kept := keeps machine holds
  unfold proceed
  split
  · next value after ok =>
    rw [ok] at kept
    exact goes value after kept.1 kept.2
  · next cause after failed =>
    rw [failed] at kept
    exact ⟨trivial, waits, kept.2⟩

/-- Handing over the value of a step that keeps to the first scopes. -/
theorem within_proceedWith {run : Run Value}
    (keeps : run.Keeps (Value.Within count) (fun _ => True) (Value.Within count))
    (waits : ∀ item ∈ pending, item.Within count) (holds : machine.All (Value.Within count)) :
    (proceedWith run pending machine).Within count :=
  within_proceed keeps waits holds fun _ _ value_within after_holds =>
    ⟨value_within, waits, after_holds⟩

/-- Handing over the empty list after a step that keeps to the first scopes. -/
theorem within_proceed_nil {run : Run Unit}
    (keeps : run.Keeps (Value.Within count) (fun _ => True) fun _ => True)
    (waits : ∀ item ∈ pending, item.Within count) (holds : machine.All (Value.Within count)) :
    (proceed run pending machine fun _ machine => ⟨.give .nil, pending, machine⟩).Within count :=
  within_proceed keeps waits holds fun _ _ _ after_holds => ⟨trivial, waits, after_holds⟩

/-- The first step of an expression keeps to the scopes. -/
theorem within_evaluating {place : Place} {scope : ScopeId} (inside : scope < count)
    (waits : ∀ item ∈ pending, item.Within count) (holds : machine.All (Value.Within count))
    (e : Expr) : (evaluating config place scope pending machine e).Within count := by
  have marked : ∀ final, Machine.All (Value.Within count) { machine with final } :=
    fun _ => ⟨holds.heap, holds.stack⟩
  cases e with
  | bool value => exact ⟨trivial, waits, holds⟩
  | int value => exact ⟨trivial, waits, holds⟩
  | ident name => exact within_proceedWith (Run.keeps_lookup trivial) waits holds
  | quote datum =>
    have quoted := datum.yields_quoted (Value.hereditary_within count)
    exact within_proceedWith (Run.keeps_making quoted fun _ _ => trivial) waits holds
  | list items => exact ⟨⟨List.forall_mem_nil _, inside⟩, waits, marked _⟩
  | define name value =>
    exact ⟨inside, List.forall_mem_cons.mpr ⟨inside, waits⟩, marked _⟩
  | set name value => exact ⟨inside, List.forall_mem_cons.mpr ⟨inside, waits⟩, marked _⟩
  | lambda params body => exact within_proceedWith (Run.keeps_close fun _ => inside) waits holds
  | cond branches => exact ⟨inside, waits, marked _⟩

/-- Applying a procedure keeps to the scopes. -/
theorem within_applying {tail : Bool} {args : List Value} {operator : Value}
    (inside : operator.Within count) (args_inside : ∀ arg ∈ args, arg.Within count)
    (waits : ∀ item ∈ pending, item.Within count) (holds : machine.All (Value.Within count)) :
    (applying config tail args pending machine operator).Within count := by
  cases operator with
  | builtin procedure =>
    have yields := procedure.yields_apply (Value.hereditary_within count).toComposite args_inside
    exact within_proceedWith (Run.keeps_making yields fun _ _ => trivial) waits holds
  | closure callee =>
    have call_inside : Call.All (Value.Within count) ⟨callee, args⟩ := ⟨inside, args_inside⟩
    simp only [applying]
    split
    · exact ⟨trivial, waits, holds.heap, holds.stack.defer call_inside⟩
    · split
      · exact ⟨call_inside, List.forall_mem_cons.mpr ⟨trivial, waits⟩, holds.heap,
          holds.stack.push callee⟩
      · exact ⟨trivial, waits, holds⟩
  | _ => exact ⟨trivial, waits, holds⟩

/-- A body in a scope of its own refers to no other scopes than that one and those before. -/
theorem anchored_start {place : Place} {items : List Expr} {parent : ScopeId} {bindings : Bindings}
    {final : Bool} (bindings_inside : bindings.All (Value.Within count))
    (bound : count ≤ machine.heap.scopes.size) (waits : ∀ item ∈ pending, item.Within count)
    (holds : machine.All (Value.Within count)) :
    (start place items (machine.heap.newScope (some parent) bindings).1 final pending
      { machine with heap := (machine.heap.newScope (some parent) bindings).2 }).Anchored := by
  have size : (machine.heap.newScope (some parent) bindings).2.scopes.size =
      machine.heap.scopes.size + 1 := Array.size_push ..
  have opened : Machine.All (Value.Within count)
      { machine with heap := (machine.heap.newScope (some parent) bindings).2 } :=
    ⟨holds.heap.newScope bindings_inside, holds.stack⟩
  have grown : count ≤ machine.heap.scopes.size + 1 := Nat.le_succ_of_le bound
  have marked := opened.mono grown
  exact ⟨machine.heap.scopes.size + 1, size.ge, Nat.lt_succ_self _,
    List.forall_mem_cons.mpr ⟨trivial, pending_mono waits grown⟩, marked.heap,
    marked.stack.mark final⟩

/-- Choosing a branch opens the scope of its body. -/
theorem anchored_choose {place : Place} {index : Nat} {body : List Expr} {scope : ScopeId}
    {tail : Bool} (bound : count ≤ machine.heap.scopes.size)
    (waits : ∀ item ∈ pending, item.Within count) (holds : machine.All (Value.Within count)) :
    (choose place index body scope tail pending machine).Anchored :=
  anchored_start (List.forall_mem_nil _) bound waits holds

/-- Starting a call opens the scope of its body, which binds the arguments. -/
theorem anchored_entering {call : Call} (inside : call.All (Value.Within count))
    (bound : count ≤ machine.heap.scopes.size) (waits : ∀ item ∈ pending, item.Within count)
    (holds : machine.All (Value.Within count)) :
    (entering call pending machine).Anchored := by
  have bindings_inside : (Bindings.bindAll (call.callee.params.zip call.args) []).All
      (Value.Within count) := by
    refine .bindAll ?_ (List.forall_mem_nil _)
    exact fun entry among => inside.args _ (List.of_mem_zip among).2
  by_cases fits : call.args.length = call.callee.params.length
  · simp only [entering, proceed, checkCount, if_pos fits]
    exact anchored_start bindings_inside bound waits holds
  · simp only [entering, proceed, checkCount, if_neg fits]
    exact ⟨count, bound, trivial, waits, holds⟩

/-- What waits for a value keeps to the scopes, or opens the scope of a branch. -/
theorem within_resuming {value : Value} {item : Pending} (inside : value.Within count)
    (item_inside : item.Within count) (bound : count ≤ machine.heap.scopes.size)
    (waits : ∀ item ∈ pending, item.Within count) (holds : machine.All (Value.Within count)) :
    (resuming value pending machine item).Within count ∨
      (resuming value pending machine item).Anchored := by
  cases item with
  | operands place tail values items scope =>
    obtain ⟨values_inside, scope_inside⟩ := item_inside
    have all_inside : ∀ member ∈ values ++ [value], member.Within count :=
      List.forall_mem_append.mpr ⟨values_inside, List.forall_mem_singleton.mpr inside⟩
    exact .inl ⟨⟨all_inside, scope_inside⟩, waits, holds⟩
  | define name scope =>
    exact .inl (within_proceed_nil (Run.keeps_define inside) waits holds)
  | set name scope =>
    exact .inl (within_proceed_nil (Run.keeps_assign inside trivial) waits holds)
  | choose place index body branches scope tail =>
    simp only [resuming]
    split
    · exact .inr (anchored_choose bound waits holds)
    · exact .inl ⟨item_inside, waits, holds⟩
    · exact .inl ⟨trivial, waits, holds⟩
  | sequence place index items scope => exact .inl ⟨item_inside, waits, holds⟩
  | marks frame own => exact .inl ⟨inside, waits, holds.heap, holds.stack.mark frame⟩
  | frame =>
    simp only [resuming]
    split
    · next call deferred =>
      have call_inside := holds.stack.deferred? deferred
      exact .inl ⟨call_inside, List.forall_mem_cons.mpr ⟨trivial, waits⟩, holds.heap,
        holds.stack.clearDeferred⟩
    · exact .inl ⟨inside, waits, holds.heap, holds.stack.pop⟩

end

section

variable {config : Config} {s t : Moment}

/-- The scopes that a moment refers to are there if those of the moment before it are. -/
theorem Anchored.of_next (anchored : s.Anchored) (follows : next config s = some t) :
    t.Anchored := by
  obtain ⟨count, bound, inside, waits, holds⟩ := anchored
  have grown := bound.trans (size_le_of_next follows)
  suffices within : t.Within count ∨ t.Anchored from
    within.elim (fun within => ⟨count, grown, within⟩) id
  clear grown
  revert follows
  fun_cases next config s <;> rintro ⟨⟩
  case case1 => exact .inl (within_evaluating inside waits holds _)
  case case2 =>
    exact .inl ⟨inside.2, List.forall_mem_cons.mpr ⟨inside, waits⟩, holds⟩
  case case3 => exact .inl ⟨trivial, waits, holds⟩
  case case4 =>
    obtain ⟨operator_inside, args_inside⟩ := List.forall_mem_cons.mp inside.1
    exact .inl ⟨⟨operator_inside, args_inside⟩, waits, holds⟩
  case case5 => exact .inl (within_applying inside.1 inside.2 waits holds)
  case case6 => exact .inl ⟨trivial, waits, holds⟩
  case case7 => exact .inl ⟨inside, waits, holds.heap, holds.stack⟩
  case case8 =>
    exact .inl ⟨inside, List.forall_mem_cons.mpr ⟨inside, waits⟩, holds.heap, holds.stack⟩
  case case9 => exact .inl ⟨trivial, waits, holds⟩
  case case10 => exact .inr (anchored_choose bound waits holds)
  case case11 => exact .inl ⟨inside, List.forall_mem_cons.mpr ⟨inside, waits⟩, holds⟩
  case case12 => exact .inr (anchored_entering inside bound waits holds)
  case case13 =>
    obtain ⟨item_inside, waits⟩ := List.forall_mem_cons.mp waits
    exact within_resuming inside item_inside bound waits holds
  case case14 cause item pending machine =>
    obtain ⟨-, others_wait⟩ := List.forall_mem_cons.mp waits
    cases item with
    | frame => exact .inl ⟨trivial, others_wait, holds.heap, holds.stack.pop⟩
    | _ => exact .inl ⟨trivial, others_wait, holds⟩

/-- The scopes that a moment refers to are there if those of an earlier moment are. -/
theorem Anchored.of_reaches (anchored : s.Anchored) (reached : Reaches (next config) s t) :
    t.Anchored := by
  induction reached with
  | refl => exact anchored
  | tail _ follows ih => exact ih.of_next follows

/-- No scope disappears along a run. -/
theorem size_le_of_reaches (reached : Reaches (next config) s t) :
    s.machine.heap.scopes.size ≤ t.machine.heap.scopes.size := by
  induction reached with
  | refl => exact Nat.le_refl _
  | tail _ follows ih => exact ih.trans (size_le_of_next follows)

/-- What a definition or an assignment writes is bound afterwards. -/
theorem find?_of_writes {scope : ScopeId} {name : String} {value : Value} (anchored : s.Anchored)
    (writes : s.Writes scope name value) (follows : next config s = some t) :
    (t.machine.heap.locals scope).find? name = some value := by
  have inside : scope < s.machine.heap.scopes.size := by
    cases writes with
    | define =>
      obtain ⟨count, bound, within⟩ := anchored
      have scope_inside := within.pending _ List.mem_cons_self
      exact Nat.lt_of_lt_of_le scope_inside bound
    | set found => exact Heap.lt_size_of_find? (Heap.find?_of_findAlong found)
  rw [Heap.locals_of_scopes (scopes_of_writes writes follows), Heap.locals_insert,
    if_pos ⟨rfl, inside⟩, Bindings.find?_bind, if_pos rfl]

end

end Moment

/-- The top level is there, and so are all scopes that values in the heap refer to. -/
structure Heap.Anchored (heap : Heap) : Prop where
  root : Heap.root < heap.scopes.size
  values : heap.All (Value.Within heap.scopes.size)

/-- A program starts with the top level. -/
theorem Heap.anchored_initial : Heap.initial.Anchored :=
  ⟨by decide, Heap.all_initial fun _ => trivial⟩

/-- An evaluation that starts without frames refers to scopes that are there. -/
theorem Moment.anchored_first (tree : Expr) {machine : Machine} (rest : machine.stack = .empty)
    (anchored : machine.heap.Anchored) : (first tree machine).Anchored := by
  have no_frames : machine.stack.All (Value.Within machine.heap.scopes.size) := by
    rw [rest]
    exact List.forall_mem_nil _
  exact ⟨machine.heap.scopes.size, Nat.le_refl _, anchored.root, List.forall_mem_nil _,
    anchored.values, no_frames⟩

/-- What a run makes of a heap refers to scopes that are there. -/
theorem Moment.heap_of_reaches {config : Config} {s t : Moment}
    (root : Heap.root < s.machine.heap.scopes.size) (anchored : s.Anchored)
    (reached : Reaches (next config) s t) : t.machine.heap.Anchored := by
  obtain ⟨count, bound, within⟩ := anchored.of_reaches reached
  exact ⟨Nat.lt_of_lt_of_le root (size_le_of_reaches reached), (within.machine.mono bound).heap⟩

end TailScheme
