import TailScheme.Proofs.Scopes
import TailScheme.Proofs.Expansion

/-!
# The footprint of an evaluation

What an evaluation may change of the scopes that are there is bounded by the code that it may come
to. `Heap.Footprint` states the bound: no scope and no name is lost, and a limit says which scopes
may gain which names, another which names may get other values.

The code that an evaluation may come to is that of the closures it can get hold of. It finds them
in the scopes along the chains that it looks through and in the calls that are deferred to frames,
so it is enough to know the values there (`Machine.Confined`). Each step of an evaluation keeps to
that knowledge and has a footprint (`Run.Stays`).
-/
namespace TailScheme

open Value (Hereditary)

namespace Expr

/-- A definition of the name is evaluated in the same scope as the tree: the bodies of procedures
and branches have scopes of their own. -/
inductive Defines (name : String) : Expr → Prop where
  | here {value : Expr} : Defines name (.define name value)
  | define {other : String} {value : Expr} (inside : Defines name value) :
      Defines name (.define other value)
  | set {other : String} {value : Expr} (inside : Defines name value) :
      Defines name (.set other value)
  | item {item : Expr} {items : List Expr} (among : item ∈ items) (inside : Defines name item) :
      Defines name (.list items)
  | guard {guard : Expr} {branch : Branch} {branches : List Branch} (among : branch ∈ branches)
      (tested : branch.guard? = some guard) (inside : Defines name guard) :
      Defines name (.cond branches)

/-- There is a definition or an assignment of the name in the tree, outside quoted data. -/
inductive Rebinds (name : String) : Expr → Prop where
  | define {value : Expr} : Rebinds name (.define name value)
  | set {value : Expr} : Rebinds name (.set name value)
  | part {inner e : Expr} (is_part : IsPart inner e) (inside : Rebinds name inner) : Rebinds name e

section

variable {name : String}

/-- An identifier is no definition. -/
@[simp] theorem not_rebinds_ident (other : String) : ¬(ident other).Rebinds name := by
  rintro (_ | _ | ⟨⟨⟩, _⟩)

/-- An integer is no definition. -/
@[simp] theorem not_rebinds_int (value : Int64) : ¬(int value).Rebinds name := by
  rintro (_ | _ | ⟨⟨⟩, _⟩)

/-- Quoted data defines nothing, whatever it looks like. -/
@[simp] theorem not_rebinds_quote (datum : Expr) : ¬(quote datum).Rebinds name := by
  rintro (_ | _ | ⟨⟨⟩, _⟩)

/-- An application defines what its items define. -/
@[simp] theorem rebinds_list_iff {items : List Expr} :
    (list items).Rebinds name ↔ ∃ item ∈ items, item.Rebinds name := by
  constructor
  · rintro (_ | _ | ⟨is_part, inside⟩)
    cases is_part with
    | item among => exact ⟨_, among, inside⟩
    | clause clause among => exact ⟨_, clause, .part (.item among) inside⟩
  · rintro ⟨item, among, inside⟩
    exact .part (.item among) inside

end

end Expr

namespace Heap

/-- The scope itself binds the name. -/
def Binds (heap : Heap) (scope : ScopeId) (name : String) : Prop :=
  ((heap.locals scope).find? name).isSome

/-- What has changed in the scopes that were there. Only the names that `creates` grants to a scope
are new in it, and only the names of which `changes` holds are bound to something else. -/
structure Footprint (creates : ScopeId → String → Prop) (changes : String → Prop)
    (before after : Heap) : Prop where
  size_le : before.scopes.size ≤ after.scopes.size
  kept : ∀ {scope name}, before.Binds scope name → after.Binds scope name
  created : ∀ {scope name}, scope < before.scopes.size → after.Binds scope name →
    before.Binds scope name ∨ creates scope name
  unchanged : ∀ {scope name}, scope < before.scopes.size → ¬changes name →
    (after.locals scope).find? name = (before.locals scope).find? name

/-- These names are granted to this scope, and none to any other. -/
def Grants (scope : ScopeId) (names : String → Prop) (other : ScopeId) (name : String) : Prop :=
  other = scope ∧ names name

section

variable {creates more : ScopeId → String → Prop} {changes : String → Prop}
  {heap before middle after : Heap} {scope other : ScopeId} {name : String} {value : Value}

/-- A scope that binds something is there. -/
theorem Binds.lt_size (binds : heap.Binds scope name) : scope < heap.scopes.size := by
  obtain ⟨value, found⟩ := Option.isSome_iff_exists.mp binds
  exact lt_size_of_find? found

/-- Heaps with the same scopes differ by nothing that a footprint tells. -/
theorem Footprint.of_scopes (same : after.scopes = before.scopes) :
    Footprint creates changes before after := by
  have locals_eq := locals_of_scopes same
  constructor
  · exact (congrArg Array.size same).ge
  · intro scope name binds
    rwa [Binds, locals_eq]
  · intro scope name _ binds
    rw [Binds, locals_eq] at binds
    exact .inl binds
  · intro scope name _ _
    rw [locals_eq]

/-- Nothing happens to a heap that stays as it is. -/
theorem Footprint.refl (heap : Heap) : Footprint creates changes heap heap := .of_scopes rfl

/-- What happens in a row. -/
theorem Footprint.trans (first : Footprint creates changes before middle)
    (second : Footprint creates changes middle after) :
    Footprint creates changes before after := by
  constructor
  · exact first.size_le.trans second.size_le
  · exact fun binds => second.kept (first.kept binds)
  · intro scope name old binds
    rcases second.created (Nat.lt_of_lt_of_le old first.size_le) binds with bound | created
    · exact first.created old bound
    · exact .inr created
  · intro scope name old fixed
    rw [second.unchanged (Nat.lt_of_lt_of_le old first.size_le) fixed, first.unchanged old fixed]

/-- More names may be granted, as far as the scopes that were there are concerned. -/
theorem Footprint.mono (footprint : Footprint creates changes before after)
    (grants : ∀ scope < before.scopes.size, ∀ name, creates scope name → more scope name) :
    Footprint more changes before after where
  size_le := footprint.size_le
  kept := footprint.kept
  created old binds := (footprint.created old binds).imp_right (grants _ old _)
  unchanged := footprint.unchanged

/-- Writing a binding that may change has the footprint of that name, which is new in the scope if
it was not bound there. -/
theorem footprint_insert (granted : heap.Binds scope name ∨ creates scope name)
    (changed : changes name) : Footprint creates changes heap (heap.insert scope name value) := by
  have find_eq : ∀ inner label, inner < heap.scopes.size →
      ((heap.insert scope name value).locals inner).find? label =
        if scope = inner ∧ name = label then some value
        else (heap.locals inner).find? label := by
    intro inner label old
    rw [locals_insert]
    by_cases here : scope = inner
    · rw [if_pos ⟨here, old⟩, Bindings.find?_bind]
      simp only [here, true_and]
    · rw [if_neg fun both => here both.1, if_neg fun both => here both.1]
  constructor
  · exact size_insert.ge
  · intro inner label binds
    rw [Binds, find_eq inner label binds.lt_size]
    split
    · rfl
    · exact binds
  · intro inner label old binds
    rw [Binds, find_eq inner label old] at binds
    split at binds
    · next same =>
      obtain ⟨rfl, rfl⟩ := same
      exact granted
    · exact .inl binds
  · intro inner label old fixed
    rw [find_eq inner label old, if_neg]
    rintro ⟨-, rfl⟩
    exact fixed changed

/-- A new scope leaves those that were there alone. -/
theorem footprint_newScope {parent : Option ScopeId} {bindings : Bindings} :
    Footprint creates changes heap (heap.newScope parent bindings).2 := by
  have locals_eq : ∀ inner < heap.scopes.size,
      (heap.newScope parent bindings).2.locals inner = heap.locals inner :=
    fun inner old => by rw [locals_newScope, if_neg (Nat.ne_of_lt old)]
  constructor
  · exact (Nat.le_succ _).trans_eq (Array.size_push ..).symm
  · intro inner label binds
    rwa [Binds, locals_eq inner binds.lt_size]
  · intro inner label old binds
    rw [Binds, locals_eq inner old] at binds
    exact .inl binds
  · intro inner label old _
    rw [locals_eq inner old]

end

end Heap

/-- The closures in a value were made in scopes that are alive, and their bodies define and assign
no names but those that may change. -/
def Value.Confined (live : ScopeId → Prop) (changes : String → Prop) : Value → Prop
  | .pair _ first second => first.Confined live changes ∧ second.Confined live changes
  | .closure procedure =>
    live procedure.scope ∧ ∀ item ∈ procedure.body, ∀ name, item.Rebinds name → changes name
  | _ => True

/-- Pairs bring no closures of their own. -/
theorem Value.hereditary_confined (live : ScopeId → Prop) (changes : String → Prop) :
    Hereditary (Confined live changes) where
  nil := trivial
  bool _ := trivial
  int _ := trivial
  symbol _ := trivial
  builtin _ := trivial
  pair_iff _ _ _ := Iff.rfl

/-- Looking outward from a scope that is alive leads to scopes that are alive and to values that are
confined. A scope that is not there yet will be alive. -/
structure Heap.Confined (live : ScopeId → Prop) (changes : String → Prop) (heap : Heap) :
    Prop where
  values : ∀ {scope}, live scope → (heap.locals scope).All (Value.Confined live changes)
  parents : ∀ {scope found parent}, live scope → heap.scopes[scope]? = some found →
    found.parent = some parent → live parent
  later : ∀ {scope}, heap.scopes.size ≤ scope → live scope

namespace Heap

section

variable {live : ScopeId → Prop} {changes : String → Prop} {heap after : Heap}
  {scope holder : ScopeId} {name : String} {value : Value}

/-- Names are found in the scopes that are looked through. -/
theorem mem_of_findAlong {scopes : List ScopeId}
    (found : heap.findAlong name scopes = some (holder, value)) : holder ∈ scopes := by
  induction scopes with
  | nil => cases found
  | cons inner scopes ih =>
    rw [findAlong] at found
    split at found
    · cases found
      exact List.mem_cons_self
    · exact List.mem_cons_of_mem _ (ih found)

/-- The scopes are all that counts. -/
theorem Confined.of_scopes (confined : heap.Confined live changes)
    (same : after.scopes = heap.scopes) : after.Confined live changes := by
  constructor
  · intro scope alive
    rw [locals_of_scopes same]
    exact confined.values alive
  · intro scope found parent alive there
    rw [same] at there
    exact confined.parents alive there
  · intro scope new
    rw [same] at new
    exact confined.later new

/-- The scopes from one outward are alive if that one is. -/
theorem Confined.live_of_mem_chainWithin (confined : heap.Confined live changes) (bound : Nat) :
    ∀ scope, live scope → ∀ outer ∈ heap.chainWithin bound scope, live outer := by
  induction bound with
  | zero => exact fun _ _ _ among => by cases among
  | succ bound ih =>
    intro scope alive outer among
    rw [chainWithin] at among
    split at among
    · cases among
    · next found there =>
      split at among
      · exact List.mem_singleton.mp among ▸ alive
      · next parent has_parent =>
        rcases List.mem_cons.mp among with rfl | outward
        · exact alive
        · exact ih parent (confined.parents alive there has_parent) outer outward

/-- What is found from a scope that is alive is confined. -/
theorem Confined.find? (confined : heap.Confined live changes) (alive : live scope)
    (found : heap.find? scope name = some (holder, value)) :
    live holder ∧ value.Confined live changes := by
  have holder_alive : live holder := confined.live_of_mem_chainWithin (scope + 1) scope alive
    holder (mem_of_findAlong found)
  exact ⟨holder_alive, (confined.values holder_alive).find? (find?_of_findAlong found)⟩

/-- A confined value may be bound anywhere. -/
theorem Confined.insert (confined : heap.Confined live changes)
    (is_confined : value.Confined live changes) :
    (heap.insert scope name value).Confined live changes := by
  constructor
  · intro inner alive
    rw [locals_insert]
    split
    · exact (confined.values alive).bind is_confined
    · exact confined.values alive
  · intro inner found parent alive there has_parent
    obtain ⟨old, was_there, same⟩ : ∃ old, heap.scopes[inner]? = some old ∧
        old.parent = found.parent := by
      simp only [Heap.insert, Array.getElem?_modify] at there
      split at there
      · obtain ⟨old, was_there, rfl⟩ := Option.map_eq_some_iff.mp there
        exact ⟨old, was_there, rfl⟩
      · exact ⟨found, there, rfl⟩
    exact confined.parents alive was_there (same.trans has_parent)
  · intro inner new
    rw [size_insert] at new
    exact confined.later new

/-- A scope may be opened within one that is alive. -/
theorem Confined.newScope {parent : ScopeId} {bindings : Bindings}
    (confined : heap.Confined live changes) (alive : live parent)
    (bindings_confined : bindings.All (Value.Confined live changes)) :
    (heap.newScope (some parent) bindings).2.Confined live changes := by
  constructor
  · intro inner inner_alive
    rw [locals_newScope]
    split
    · exact bindings_confined
    · exact confined.values inner_alive
  · intro inner found outer inner_alive there has_parent
    simp only [Heap.newScope, Array.getElem?_push] at there
    split at there
    · cases there
      cases has_parent
      exact alive
    · exact confined.parents inner_alive there has_parent
  · intro inner new
    have size_eq : (heap.newScope (some parent) bindings).2.scopes.size = heap.scopes.size + 1 :=
      Array.size_push ..
    exact confined.later (by omega)

end

end Heap

/-- The scopes are confined, and so are the calls that are deferred to frames. -/
structure Machine.Confined (live : ScopeId → Prop) (changes : String → Prop)
    (machine : Machine) : Prop where
  heap : machine.heap.Confined live changes
  stack : machine.stack.All (Value.Confined live changes)

/-- The stop comes from running code, and not from reading or expanding it. -/
def Stop.OfRunning : Stop → Prop
  | .failed (.read _) | .failed (.malformed _) => False
  | _ => True

/-- The misuse of a builtin comes from running code. -/
theorem Error.IsMisuse.ofRunning {error : Error} (misuse : error.IsMisuse) :
    (Stop.failed error).OfRunning := by
  cases misuse <;> trivial

/-- Quoted data that is no data comes from running code. -/
theorem Error.IsUnquotable.ofRunning {error : Error} (unquotable : error.IsUnquotable) :
    (Stop.failed error).OfRunning := by
  cases unquotable
  trivial

namespace Run

/-- A machine that is still confined, and the footprint on its heap. -/
structure Traced (live : ScopeId → Prop) (changes : String → Prop)
    (creates : ScopeId → String → Prop) (before after : Machine) : Prop where
  confined : after.Confined live changes
  footprint : before.heap.Footprint creates changes after.heap

/-- The result is of its kind or the stop comes from running code, and either way the machine is
traced. -/
def Stayed {α : Type} (live : ScopeId → Prop) (changes : String → Prop)
    (creates : ScopeId → String → Prop) (result : α → Prop) (before : Machine) :
    EStateM.Result Stop Machine α → Prop
  | .ok value after => result value ∧ Traced live changes creates before after
  | .error stop after => stop.OfRunning ∧ Traced live changes creates before after

/-- A step from a confined machine has a footprint and leaves the machine confined. -/
def Stays {α : Type} (live : ScopeId → Prop) (changes : String → Prop)
    (creates : ScopeId → String → Prop) (result : α → Prop) (run : Run α) : Prop :=
  ∀ machine : Machine, machine.Confined live changes →
    Stayed live changes creates result machine (run machine)

section

variable {α β : Type} {live : ScopeId → Prop} {changes : String → Prop}
  {creates more : ScopeId → String → Prop} {result : α → Prop} {later : β → Prop}

/-- Steps in a row are traced from the first to the last. -/
theorem Traced.trans {before middle after : Machine}
    (first : Traced live changes creates before middle)
    (second : Traced live changes creates middle after) :
    Traced live changes creates before after :=
  ⟨second.confined, first.footprint.trans second.footprint⟩

/-- A machine with the same scopes and confined calls is traced. -/
theorem Traced.of_scopes {before after : Machine} (confined : before.Confined live changes)
    (same : after.heap.scopes = before.heap.scopes)
    (stack : after.stack.All (Value.Confined live changes)) :
    Traced live changes creates before after :=
  ⟨⟨confined.heap.of_scopes same, stack⟩, .of_scopes same⟩

/-- What was done before counts as well. -/
theorem Stayed.after {before middle : Machine} {outcome : EStateM.Result Stop Machine α}
    (traced : Traced live changes creates before middle)
    (stayed : Stayed live changes creates result middle outcome) :
    Stayed live changes creates result before outcome := by
  cases outcome with
  | ok value after => exact ⟨stayed.1, traced.trans stayed.2⟩
  | error stop after => exact ⟨stayed.1, traced.trans stayed.2⟩

/-- Two steps in a row. -/
theorem Stays.bind {run : Run α} {rest : α → Run β}
    (first : run.Stays live changes creates result)
    (second : ∀ value, result value → (rest value).Stays live changes creates later) :
    (run >>= rest).Stays live changes creates later := by
  intro machine confined
  change Stayed live changes creates later machine (EStateM.bind run rest machine)
  unfold EStateM.bind
  match run machine, first machine confined with
  | .ok value middle, stayed =>
    exact (second value stayed.1 middle stayed.2.confined).after stayed.2
  | .error stop after, stayed => exact stayed

/-- More names may be granted, as far as the scopes that are there are concerned. -/
theorem Stayed.mono {before : Machine} {outcome : EStateM.Result Stop Machine α}
    (stayed : Stayed live changes creates result before outcome)
    (grants : ∀ scope < before.heap.scopes.size, ∀ name, creates scope name → more scope name) :
    Stayed live changes more result before outcome := by
  cases outcome with
  | ok value after => exact ⟨stayed.1, stayed.2.confined, stayed.2.footprint.mono grants⟩
  | error stop after => exact ⟨stayed.1, stayed.2.confined, stayed.2.footprint.mono grants⟩

/-- More names may be granted to a step that grants none. -/
theorem Stays.mono {run : Run α} (stays : run.Stays live changes (fun _ _ => False) result) :
    run.Stays live changes creates result :=
  fun machine confined => (stays machine confined).mono fun _ _ _ => False.elim

/-- A value is handed back. -/
theorem stays_pure {value : α} (is_good : result value) :
    (pure value : Run α).Stays live changes creates result :=
  fun _ confined => ⟨is_good, .of_scopes confined rfl confined.stack⟩

/-- An error of running code is reported. -/
theorem stays_fail {error : Error} (running : (Stop.failed error).OfRunning) :
    (fail error : Run α).Stays live changes creates result :=
  fun _ confined => ⟨running, .of_scopes confined rfl confined.stack⟩

/-- Running out of budget ends the evaluation. -/
theorem stays_outOfBudget : (throw .outOfBudget : Run α).Stays live changes creates result :=
  fun _ confined => ⟨trivial, .of_scopes confined rfl confined.stack⟩

/-- Marking the next expression changes no scope. -/
theorem stays_setFinal (final : Bool) :
    (setFinal final).Stays live changes creates fun _ => True :=
  fun _ confined => ⟨trivial, .of_scopes confined rfl confined.stack⟩

/-- Taking the mark off changes no scope. -/
theorem stays_takeTailMark (tailCalls : Bool) :
    (takeTailMark tailCalls).Stays live changes creates fun _ => True :=
  fun _ confined => ⟨trivial, .of_scopes confined rfl confined.stack⟩

/-- A deferred call that is taken up is confined. -/
theorem stays_takeDeferred : takeDeferred.Stays live changes creates fun deferred =>
    ∀ call ∈ deferred, call.All (Value.Confined live changes) := by
  intro machine confined
  unfold takeDeferred
  rcases deferred : machine.stack.deferred? with _ | call
  · exact ⟨(by rintro _ ⟨⟩), .of_scopes confined rfl confined.stack⟩
  · refine ⟨?_, .of_scopes confined rfl confined.stack.clearDeferred⟩
    rintro _ ⟨⟩
    exact confined.stack.deferred? deferred

/-- A confined call may be deferred. -/
theorem stays_defer {call : Call} (is_confined : call.All (Value.Confined live changes)) :
    Stays live changes creates (Value.Confined live changes) fun machine =>
      .ok .nil (machine.defer call) :=
  fun _ confined => ⟨trivial, .of_scopes confined rfl (confined.stack.defer is_confined)⟩

/-- A frame of its own changes no scope. -/
theorem Stays.withFrame {body : Run Value}
    (stays : body.Stays live changes creates (Value.Confined live changes)) (running : Closure) :
    (withFrame running body).Stays live changes creates (Value.Confined live changes) := by
  intro machine confined
  have stayed := stays (machine.push running) ⟨confined.heap, confined.stack.push running⟩
  unfold Run.withFrame
  match body (machine.push running), stayed with
  | .ok value after, ⟨is_confined, ended, footprint⟩ =>
    exact ⟨is_confined, ⟨ended.heap, ended.stack.pop⟩, footprint⟩
  | .error stop after, ⟨is_running, ended, footprint⟩ =>
    exact ⟨is_running, ⟨ended.heap, ended.stack.pop⟩, footprint⟩

/-- Marks around a body change no scope. -/
theorem Stays.withMarks {body : Run Value}
    (stays : body.Stays live changes creates (Value.Confined live changes)) (final : Bool) :
    (withMarks final body).Stays live changes creates (Value.Confined live changes) := by
  intro machine confined
  have stayed := stays (machine.mark final) ⟨confined.heap, confined.stack.mark final⟩
  unfold Run.withMarks
  match body (machine.mark final), stayed with
  | .ok value after, ⟨is_confined, ended, footprint⟩ =>
    exact ⟨is_confined, ⟨ended.heap, ended.stack.mark _⟩, footprint⟩
  | .error stop after, ⟨is_running, traced⟩ => exact ⟨is_running, traced.confined, traced.footprint⟩

/-- What is made changes no scope. -/
theorem stays_making {make : Value.Making α} {failure : Error → Prop}
    (yields : make.Yields failure result)
    (running : ∀ error, failure error → (Stop.failed error).OfRunning) :
    (making make).Stays live changes creates result := by
  intro machine confined
  unfold making
  match make machine.heap.pairs, yields machine.heap.pairs with
  | .ok (value, pairs), is_good => exact ⟨is_good, .of_scopes confined rfl confined.stack⟩
  | .error error, failed => exact ⟨running error failed, .of_scopes confined rfl confined.stack⟩

/-- A closure is confined if its scope and its code are. -/
theorem stays_close {params : List String} {body : List Expr} {scope : ScopeId}
    (alive : live scope) (code : ∀ item ∈ body, ∀ name, item.Rebinds name → changes name) :
    (close params body scope).Stays live changes creates (Value.Confined live changes) :=
  fun _ confined => ⟨⟨alive, code⟩, .of_scopes confined rfl confined.stack⟩

/-- What is looked up from a scope that is alive is confined. -/
theorem stays_lookup {scope : ScopeId} {name : String} (alive : live scope) :
    (lookup scope name).Stays live changes creates (Value.Confined live changes) := by
  intro machine confined
  unfold lookup
  rcases found : machine.heap.lookup scope name with _ | value
  · exact ⟨trivial, .of_scopes confined rfl confined.stack⟩
  · obtain ⟨⟨holder, result⟩, found_along, rfl⟩ := Option.map_eq_some_iff.mp found
    exact ⟨(confined.heap.find? alive found_along).2, .of_scopes confined rfl confined.stack⟩

/-- A definition grants its name to its scope. -/
theorem stays_define {scope : ScopeId} {name : String} {value : Value}
    (is_confined : value.Confined live changes) (granted : creates scope name)
    (changed : changes name) :
    (define scope name value).Stays live changes creates fun _ => True := by
  intro machine confined
  have named : (machine.heap.giveName value name).Confined live changes :=
    confined.heap.of_scopes Heap.scopes_giveName
  have written : Heap.Footprint creates changes (machine.heap.giveName value name)
      ((machine.heap.giveName value name).insert scope name value) :=
    Heap.footprint_insert (.inr granted) changed
  exact ⟨trivial, ⟨named.insert is_confined, confined.stack⟩,
    (Heap.Footprint.of_scopes Heap.scopes_giveName).trans written⟩

/-- An assignment grants nothing, because it writes where its name is bound. -/
theorem stays_assign {scope : ScopeId} {name : String} {value : Value}
    (is_confined : value.Confined live changes) (changed : changes name) :
    (assign scope name value).Stays live changes creates fun _ => True := by
  intro machine confined
  unfold assign Heap.assign
  rcases found : machine.heap.find? scope name with _ | ⟨holder, old⟩
  · exact ⟨trivial, .of_scopes confined rfl confined.stack⟩
  · have bound : machine.heap.Binds holder name := by
      rw [Heap.Binds, Heap.find?_of_findAlong found]
      rfl
    have written : Heap.Footprint creates changes machine.heap
        (machine.heap.insert holder name value) := Heap.footprint_insert (.inl bound) changed
    exact ⟨trivial,
      ⟨(confined.heap.insert is_confined).of_scopes Heap.scopes_giveName, confined.stack⟩,
      written.trans (.of_scopes Heap.scopes_giveName)⟩

/-- Printing changes no scope. -/
theorem stays_printed (value : Value) :
    (printed value).Stays live changes creates fun _ => True :=
  fun _ confined => ⟨trivial, .of_scopes confined rfl confined.stack⟩

/-- Checking the number of arguments changes no scope. -/
theorem stays_checkCount (call : Call) :
    (checkCount call).Stays live changes creates fun _ => True := by
  intro machine confined
  unfold checkCount
  dsimp only
  split
  · exact ⟨trivial, .of_scopes confined rfl confined.stack⟩
  · exact ⟨trivial, .of_scopes confined rfl confined.stack⟩

/-- A body in a scope of its own adds names to that scope only, which was not there before. -/
theorem stays_inScope {parent : ScopeId} {bindings : Bindings} {final : Bool}
    {body : ScopeId → Run Value} (alive : live parent)
    (bindings_confined : bindings.All (Value.Confined live changes))
    (stays : ∀ inner, live inner → (body inner).Stays live changes
      (Heap.Grants inner fun _ => True) (Value.Confined live changes)) :
    (openScope parent bindings >>= fun inner => Run.withMarks final (body inner)).Stays live
      changes creates (Value.Confined live changes) := by
  intro machine confined
  let inner := machine.heap.scopes.size
  let opened : Machine :=
    { machine with heap := (machine.heap.newScope (some parent) bindings).2 }
  have traced : Traced live changes (Heap.Grants inner fun _ => True) machine opened :=
    ⟨⟨confined.heap.newScope alive bindings_confined, confined.stack⟩, Heap.footprint_newScope⟩
  have inner_alive : live inner := confined.heap.later (Nat.le_refl _)
  have stayed := ((stays inner inner_alive).withMarks final opened traced.confined).after traced
  exact stayed.mono fun scope old _ granted => absurd granted.1 (Nat.ne_of_lt old)

end

end Run

end TailScheme
