import TailScheme.Proofs.Footprint

/-!
# Chains of scopes

A forest of scopes grows by scopes that are made within older ones, or within none, and by bindings
that are written (`Heap.Forest`). So the parent of a scope is older than the scope
(`Heap.Forest.parent_lt`), looking outward comes to an end, and what a name is from a scope is what
it is bound to there or else what it is from the parent (`Heap.lookup_eq`).

`Heap.Holder` says without any search which scope answers for a name: the innermost one that binds
it. A binding is written in one scope, and exactly the scopes for which that one answers see it
(`Heap.Forest.rebound_insert`, `Heap.Forest.rebound_assign`).
-/
namespace TailScheme.Heap

/-- The scope that a scope lies within. -/
def parentOf (heap : Heap) (scope : ScopeId) : Option ScopeId :=
  heap.scopes[scope]?.bind Scope.parent

/-- The heaps whose scopes were made one after the other, each within an older one or within none,
and in which names were bound and assigned at any time. Pairs and closures do not matter. -/
inductive Forest : Heap → Prop where
  | empty : Forest empty
  | newScope {heap : Heap} (forest : Forest heap) {parent : Option ScopeId}
      (there : ∀ outer ∈ parent, outer < heap.scopes.size) (bindings : Bindings) :
      Forest (heap.newScope parent bindings).2
  | insert {heap : Heap} (forest : Forest heap) (scope : ScopeId) (name : String) (value : Value) :
      Forest (heap.insert scope name value)
  | assign {heap : Heap} (forest : Forest heap) (scope : ScopeId) (name : String) (value : Value) :
      Forest (heap.assign scope name value).2
  | objects {heap after : Heap} (forest : Forest heap) (same : after.scopes = heap.scopes) :
      Forest after

/-- The second scope is the innermost one that binds the name, from the first one outward. -/
inductive Holder (heap : Heap) (name : String) : ScopeId → ScopeId → Prop where
  | here {scope : ScopeId} (binds : heap.Binds scope name) : Holder heap name scope scope
  | outward {scope parent holder : ScopeId} (free : ¬heap.Binds scope name)
      (within : heap.parentOf scope = some parent) (outer : Holder heap name parent holder) :
      Holder heap name scope holder

/-- Of two heaps, the second is seen as the first is, but for one name, which has this value from
the scopes of which `sees` holds. -/
structure Rebound (before after : Heap) (name : String) (value : Value) (sees : ScopeId → Prop) :
    Prop where
  changed : ∀ {scope}, sees scope → after.lookup scope name = some value
  kept : ∀ {scope label}, ¬(label = name ∧ sees scope) →
    after.lookup scope label = before.lookup scope label

section

variable {heap after : Heap} {scope parent other holder : ScopeId} {name label : String}
  {value : Value}

/-- Writing a binding leaves every scope where it is. -/
theorem parentOf_insert : (heap.insert scope name value).parentOf other = heap.parentOf other := by
  unfold parentOf insert
  by_cases same : scope = other
  · rcases found : heap.scopes[other]? with _ | inner
    · simp [Array.getElem?_modify, same, found]
    · simp [Array.getElem?_modify, same, found]
  · simp [Array.getElem?_modify, same]

/-- A new scope lies within its parent, and the others are where they were. -/
theorem parentOf_newScope {outer : Option ScopeId} {bindings : Bindings} :
    (heap.newScope outer bindings).2.parentOf other =
      if other = heap.scopes.size then outer else heap.parentOf other := by
  unfold parentOf newScope
  by_cases new : other = heap.scopes.size
  · simp [new]
  · simp [Array.getElem?_push, new]

/-- What a scope binds after a binding is written. -/
theorem find?_insert (inside : scope < heap.scopes.size) :
    ((heap.insert scope name value).locals other).find? label =
      if scope = other ∧ name = label then some value else (heap.locals other).find? label := by
  rw [locals_insert]
  by_cases here : scope = other
  · rw [if_pos ⟨here, here ▸ inside⟩, Bindings.find?_bind]
    simp only [here, true_and]
  · rw [if_neg fun both => here both.1, if_neg fun both => here both.1]

/-- Nothing is written in a scope that is not there. -/
theorem locals_insert_of_le (missing : heap.scopes.size ≤ scope) :
    (heap.insert scope name value).locals other = heap.locals other := by
  rw [locals_insert, if_neg]
  rintro ⟨rfl, inside⟩
  exact Nat.not_lt.mpr missing inside

/-- A scope that binds a name has a value for it, and one that does not has none. -/
theorem not_binds_iff : ¬heap.Binds scope name ↔ (heap.locals scope).find? name = none := by
  rw [Binds, Option.not_isSome_iff_eq_none]

/-- In a forest, the parent of a scope is older than the scope. -/
theorem Forest.parent_lt (forest : heap.Forest) :
    ∀ {scope parent : ScopeId}, heap.parentOf scope = some parent → parent < scope := by
  induction forest with
  | empty =>
    intro scope parent within
    have nothing : Heap.empty.scopes[scope]? = none := Array.getElem?_eq_none (Nat.zero_le _)
    rw [parentOf, nothing] at within
    cases within
  | @newScope heap outer forest there bindings ih =>
    intro scope parent within
    rw [parentOf_newScope] at within
    by_cases new : scope = heap.scopes.size
    · rw [if_pos new] at within
      rw [new]
      exact there parent within
    · rw [if_neg new] at within
      exact ih within
  | insert forest scope name value ih =>
    intro inner parent within
    rw [parentOf_insert] at within
    exact ih within
  | assign forest scope name value ih =>
    intro inner parent within
    unfold Heap.assign at within
    split at within
    · exact ih within
    · rw [parentOf_insert] at within
      exact ih within
  | objects forest same ih =>
    intro scope parent within
    rw [parentOf, same] at within
    exact ih within

/-- What holds of a scope as soon as it holds of its parent holds of every scope of a forest. -/
theorem Forest.outward_induction {motive : ScopeId → Prop} (forest : heap.Forest)
    (step : ∀ scope, (∀ parent, heap.parentOf scope = some parent → motive parent) →
      motive scope) (scope : ScopeId) : motive scope := by
  induction scope using Nat.strongRecOn with
  | ind scope ih => exact step scope fun parent within => ih parent (forest.parent_lt within)

/-- Any bound that leaves room for all older scopes gives the same chain. -/
theorem Forest.chainWithin_eq (forest : heap.Forest) (bound : Nat) :
    ∀ (more : Nat) (scope : ScopeId), scope < bound → scope < more →
      heap.chainWithin bound scope = heap.chainWithin more scope := by
  induction bound with
  | zero => exact fun more scope small => absurd small (Nat.not_lt_zero scope)
  | succ bound ih =>
    intro more scope small less
    obtain ⟨more, rfl⟩ := Nat.exists_eq_succ_of_ne_zero (Nat.ne_zero_of_lt less)
    rw [chainWithin, chainWithin]
    rcases there : heap.scopes[scope]? with _ | found
    · rfl
    · rcases outer : found.parent with _ | parent
      · simp only [outer]
      · have within : heap.parentOf scope = some parent := by simp [parentOf, there, outer]
        have older := forest.parent_lt within
        have same := ih more parent (Nat.lt_of_lt_of_le older (Nat.le_of_lt_succ small))
          (Nat.lt_of_lt_of_le older (Nat.le_of_lt_succ less))
        simp only [outer, same]

/-- A name is found in the scope itself or else from its parent. -/
theorem Forest.find?_eq (forest : heap.Forest) (scope : ScopeId) (name : String) :
    heap.find? scope name = (((heap.locals scope).find? name).map fun value => (scope, value)).or
      ((heap.parentOf scope).bind fun parent => heap.find? parent name) := by
  unfold Heap.find? chain
  rw [chainWithin]
  rcases there : heap.scopes[scope]? with _ | found
  · have free : heap.locals scope = [] := by rw [locals, there]
    simp [parentOf, there, free, findAlong, Bindings.find?]
  · rcases outer : found.parent with _ | parent
    · rcases bound : (heap.locals scope).find? name with _ | value
      · simp [parentOf, there, outer, findAlong, bound]
      · simp [findAlong, outer, bound]
    · have within : heap.parentOf scope = some parent := by simp [parentOf, there, outer]
      have older := forest.parent_lt within
      have same := forest.chainWithin_eq scope (parent + 1) parent older (Nat.lt_succ_self parent)
      rcases bound : (heap.locals scope).find? name with _ | value
      · simp [within, outer, findAlong, bound, same]
      · simp [outer, findAlong, bound]

/-- What a name is from a scope is what it is bound to there or else what it is from the parent. -/
theorem Forest.lookup_eq (forest : heap.Forest) (scope : ScopeId) (name : String) :
    heap.lookup scope name = ((heap.locals scope).find? name).or
      ((heap.parentOf scope).bind fun parent => heap.lookup parent name) := by
  rw [lookup, forest.find?_eq]
  rcases bound : (heap.locals scope).find? name with _ | value
  · rw [Option.map_none, Option.none_or, Option.none_or, Option.map_bind]
    rfl
  · rw [Option.map_some, Option.some_or, Option.some_or, Option.map_some]

/-- From a scope that binds the name, it is what it is bound to there. -/
theorem Forest.lookup_of_binds (forest : heap.Forest) (binds : heap.Binds scope name) :
    heap.lookup scope name = (heap.locals scope).find? name := by
  obtain ⟨value, bound⟩ := Option.isSome_iff_exists.mp binds
  rw [forest.lookup_eq, bound, Option.some_or]

/-- From a scope that does not bind the name, it is what it is from the parent. -/
theorem Forest.lookup_of_free (forest : heap.Forest) (free : ¬heap.Binds scope name) :
    heap.lookup scope name =
      (heap.parentOf scope).bind fun parent => heap.lookup parent name := by
  rw [forest.lookup_eq, not_binds_iff.mp free, Option.none_or]

/-- The scope that answers for a name binds it. -/
theorem Holder.binds (held : heap.Holder name scope holder) : heap.Binds holder name := by
  induction held with
  | here binds => exact binds
  | outward free within outer ih => exact ih

/-- One scope at most answers for a name. -/
theorem Holder.unique (held : heap.Holder name scope holder)
    (also : heap.Holder name scope other) : holder = other := by
  induction held with
  | here binds =>
    cases also with
    | here => rfl
    | outward free => exact absurd binds free
  | outward free within outer ih =>
    cases also with
    | here binds => exact absurd binds free
    | outward _ also_within also =>
      obtain rfl := Option.some.inj (within.symm.trans also_within)
      exact ih also

/-- The same scope answers for a name in a heap where the same scopes bind it. -/
theorem Holder.congr (held : heap.Holder name scope holder)
    (parents : ∀ inner, after.parentOf inner = heap.parentOf inner)
    (binds_iff : ∀ inner, after.Binds inner name ↔ heap.Binds inner name) :
    after.Holder name scope holder := by
  induction held with
  | here binds => exact .here ((binds_iff _).mpr binds)
  | outward free within outer ih =>
    have still_free := mt (binds_iff _).mp free
    exact .outward still_free ((parents _).trans within) ih

/-- A name is what the scope that answers for it binds it to. -/
theorem Holder.lookup_eq (held : heap.Holder name scope holder) (forest : heap.Forest) :
    heap.lookup scope name = (heap.locals holder).find? name := by
  induction held with
  | here binds => exact forest.lookup_of_binds binds
  | outward free within outer ih => rw [forest.lookup_of_free free, within, Option.bind_some, ih]

/-- The scope where a name is found answers for it. -/
theorem Forest.holder_of_find? (forest : heap.Forest) (scope : ScopeId)
    (found : heap.find? scope name = some (holder, value)) : heap.Holder name scope holder := by
  revert found
  induction scope using forest.outward_induction with
  | step scope ih =>
    intro found
    rw [forest.find?_eq] at found
    rcases bound : (heap.locals scope).find? name with _ | old
    · rw [bound, Option.map_none, Option.none_or] at found
      obtain ⟨parent, within, found_outside⟩ := Option.bind_eq_some_iff.mp found
      exact .outward (not_binds_iff.mpr bound) within (ih parent within found_outside)
    · rw [bound, Option.map_some, Option.some_or] at found
      cases found
      exact .here (Option.isSome_iff_exists.mpr ⟨_, bound⟩)

/-- A scope that is written in binds the name, besides what was bound before. -/
theorem binds_insert_iff (inside : scope < heap.scopes.size) :
    (heap.insert scope name value).Binds other label ↔
      scope = other ∧ name = label ∨ heap.Binds other label := by
  rw [Binds, find?_insert inside]
  split
  · next same => simp [same]
  · next different => simp [different, Binds]

/-- After a binding is written, its value is seen from the scopes for which that scope answers now,
and all else is as before. -/
theorem Forest.rebound_insert (forest : heap.Forest) (scope : ScopeId) (name : String)
    (value : Value) :
    Rebound heap (heap.insert scope name value) name value fun other =>
      (heap.insert scope name value).Holder name other scope := by
  have written := forest.insert scope name value
  have parents : ∀ inner, (heap.insert scope name value).parentOf inner = heap.parentOf inner :=
    fun _ => parentOf_insert
  constructor
  · intro other held
    have inside : scope < heap.scopes.size := by
      have there := held.binds.lt_size
      rwa [size_insert] at there
    rw [held.lookup_eq written, find?_insert inside, if_pos ⟨rfl, rfl⟩]
  · intro other label unseen
    induction other using forest.outward_induction with
    | step other ih =>
      -- Only the scope that is written in could differ here, and it answers for the name.
      have locals_same : ((heap.insert scope name value).locals other).find? label =
          (heap.locals other).find? label := by
        by_cases inside : scope < heap.scopes.size
        · rw [find?_insert inside, if_neg]
          rintro ⟨rfl, rfl⟩
          exact unseen ⟨rfl, .here ((binds_insert_iff inside).mpr (.inl ⟨rfl, rfl⟩))⟩
        · rw [locals_insert_of_le (Nat.le_of_not_lt inside)]
      rw [written.lookup_eq, forest.lookup_eq, locals_same, parents]
      rcases bound : (heap.locals other).find? label with _ | old
      · rcases within : heap.parentOf other with _ | parent
        · rfl
        · have free : ¬(heap.insert scope name value).Binds other label :=
            not_binds_iff.mpr (locals_same.trans bound)
          have unseen_outside : ¬(label = name ∧
              (heap.insert scope name value).Holder name parent scope) := by
            rintro ⟨rfl, outer⟩
            exact unseen ⟨rfl, .outward free ((parents other).trans within) outer⟩
          rw [Option.none_or, Option.none_or, Option.bind_some, Option.bind_some]
          exact ih parent within unseen_outside
      · rw [Option.some_or, Option.some_or]

/-- After a name is assigned, the value is seen from the scopes for which the same scope answers as
for the scope of the assignment, and all else is as before. -/
theorem Forest.rebound_assign (forest : heap.Forest)
    (assigned : (heap.assign scope name value).1 = true) :
    Rebound heap (heap.assign scope name value).2 name value fun other =>
      ∃ holder, heap.Holder name scope holder ∧ heap.Holder name other holder := by
  rcases found : heap.find? scope name with _ | ⟨holder, old⟩
  · simp [Heap.assign, found] at assigned
  · have after_eq : (heap.assign scope name value).2 = heap.insert holder name value := by
      simp only [Heap.assign, found]
    have held : heap.Holder name scope holder := forest.holder_of_find? scope found
    have binds_iff : ∀ inner, (heap.insert holder name value).Binds inner name ↔
        heap.Binds inner name := by
      intro inner
      rw [binds_insert_iff held.binds.lt_size, or_iff_right_of_imp]
      rintro ⟨rfl, -⟩
      exact held.binds
    have holder_iff : ∀ other, (heap.insert holder name value).Holder name other holder ↔
        ∃ answering, heap.Holder name scope answering ∧ heap.Holder name other answering := by
      intro other
      constructor
      · intro written
        have before := written.congr (fun _ => parentOf_insert.symm) fun inner =>
          (binds_iff inner).symm
        exact ⟨holder, held, before⟩
      · rintro ⟨answering, also, before⟩
        obtain rfl := held.unique also
        exact before.congr (fun _ => parentOf_insert) binds_iff
    have rebound := forest.rebound_insert holder name value
    rw [after_eq]
    constructor
    · intro other sees
      exact rebound.changed ((holder_iff other).mpr sees)
    · intro other label unseen
      apply rebound.kept
      rintro ⟨same, written⟩
      exact unseen ⟨same, (holder_iff other).mp written⟩

/-- A name is assigned if and only if it has a value from the scope. -/
theorem assign_fst_iff :
    (heap.assign scope name value).1 = true ↔ ∃ found, heap.lookup scope name = some found := by
  unfold Heap.assign lookup
  rcases found : heap.find? scope name with _ | ⟨holder, old⟩ <;> simp

/-- If a name is not assigned, nothing changes. -/
theorem assign_snd_of_unbound (unbound : (heap.assign scope name value).1 = false) :
    (heap.assign scope name value).2 = heap := by
  unfold Heap.assign at unbound ⊢
  rcases found : heap.find? scope name with _ | ⟨holder, old⟩
  · rfl
  · simp [found] at unbound

/-- A scope may be made within one that is there. -/
theorem Forest.newChild (forest : heap.Forest) (parent : ScopeId)
    (there : parent < heap.scopes.size) (bindings : Bindings) :
    (heap.newScope (some parent) bindings).2.Forest :=
  forest.newScope (fun _ same => Option.some.inj same ▸ there) bindings

/-- Making a scope changes nothing that is seen from the scopes that were there. -/
theorem Forest.lookup_newScope_of_lt {bindings : Bindings} (forest : heap.Forest)
    (there : parent < heap.scopes.size) (other : ScopeId) (old : other < heap.scopes.size) :
    (heap.newScope (some parent) bindings).2.lookup other label = heap.lookup other label := by
  have grown := forest.newChild parent there bindings
  revert old
  induction other using forest.outward_induction with
  | step other ih =>
    intro old
    have not_new : other ≠ heap.scopes.size := Nat.ne_of_lt old
    rw [grown.lookup_eq, forest.lookup_eq, locals_newScope, if_neg not_new, parentOf_newScope,
      if_neg not_new]
    rcases within : heap.parentOf other with _ | outer
    · rfl
    · have outer_old := Nat.lt_trans (forest.parent_lt within) old
      rw [Option.bind_some, Option.bind_some, ih outer within outer_old]

/-- From a new scope, everything is what it is bound to there or else what it is from its parent. -/
theorem Forest.lookup_newScope (forest : heap.Forest) (there : parent < heap.scopes.size)
    (bindings : Bindings) :
    (heap.newScope (some parent) bindings).2.lookup (heap.newScope (some parent) bindings).1 label =
      (bindings.find? label).or (heap.lookup parent label) := by
  have grown := forest.newChild parent there bindings
  have new : (heap.newScope (some parent) bindings).1 = heap.scopes.size := rfl
  rw [grown.lookup_eq, locals_newScope, if_pos new, parentOf_newScope, if_pos new,
    Option.bind_some, forest.lookup_newScope_of_lt there parent there]

end

/-- Scopes obey the laws of a lexical store. An assignment succeeds if and only if the name has a
value from the scope. If it fails, nothing changes; if it succeeds, the new value is seen from
exactly the scopes for which the same scope answers for the name. What is bound in a scope is seen
from exactly the scopes for which that scope answers afterwards, and it answers for itself. A new
scope within another one changes nothing that is seen from the others, and sees what its parent
sees. -/
theorem forest_obeys_store_laws {heap : Heap} (forest : heap.Forest) :
    (∀ scope name value,
      ((heap.assign scope name value).1 = true ↔
        ∃ found, heap.lookup scope name = some found) ∧
      ((heap.assign scope name value).1 = false → (heap.assign scope name value).2 = heap) ∧
      ((heap.assign scope name value).1 = true →
        Rebound heap (heap.assign scope name value).2 name value fun other =>
          ∃ holder, heap.Holder name scope holder ∧ heap.Holder name other holder)) ∧
    (∀ scope name value,
      (scope < heap.scopes.size → (heap.insert scope name value).Holder name scope scope) ∧
      Rebound heap (heap.insert scope name value) name value fun other =>
        (heap.insert scope name value).Holder name other scope) ∧
    ∀ parent < heap.scopes.size, ∀ label,
      (∀ other < heap.scopes.size,
        (heap.newScope (some parent) []).2.lookup other label = heap.lookup other label) ∧
      (heap.newScope (some parent) []).2.lookup (heap.newScope (some parent) []).1 label =
        heap.lookup parent label := by
  refine ⟨?_, ?_, ?_⟩
  · intro scope name value
    exact ⟨assign_fst_iff, assign_snd_of_unbound, forest.rebound_assign⟩
  · intro scope name value
    refine ⟨?_, forest.rebound_insert scope name value⟩
    intro inside
    exact .here ((binds_insert_iff inside).mpr (.inl ⟨rfl, rfl⟩))
  · intro parent there label
    exact ⟨forest.lookup_newScope_of_lt there, forest.lookup_newScope there []⟩

/-- Four scopes: the outermost one binds `x`, the next two lie within it, of which the second binds
`x` too, and the last one lies within the first of these. -/
def shadowing : Heap :=
  let heap := (empty.newScope none []).2.insert 0 "x" (.int 1)
  let heap := ((heap.newScope (some 0) []).2.newScope (some 0) []).2
  (heap.insert 2 "x" (.int 2)).newScope (some 1) [] |>.2

/-- An assignment in the innermost of three scopes is seen from the middle one, because the
outermost one answers for both, and not from a scope that answers for itself. -/
theorem forest_obeys_store_laws_of_shadowing :
    shadowing.Forest ∧ (shadowing.assign 3 "x" (.int 10)).1 = true ∧
      (shadowing.assign 3 "x" (.int 10)).2.lookup 1 "x" = some (.int 10) ∧
      (shadowing.assign 3 "x" (.int 10)).2.lookup 2 "x" = shadowing.lookup 2 "x" ∧
      (shadowing.newScope (some 2) []).2.lookup 4 "x" = shadowing.lookup 2 "x" := by
  have forest : shadowing.Forest := by
    have outermost : (empty.newScope none []).2.Forest := Forest.empty.newScope (by simp) []
    have first := (outermost.insert 0 "x" (.int 1)).newChild 0 (by decide) []
    have second := first.newChild 0 (by decide) []
    exact (second.insert 2 "x" (.int 2)).newChild 1 (by decide) []
  have held_inside : shadowing.Holder "x" 3 0 :=
    .outward (not_binds_iff.mpr rfl) rfl (.outward (not_binds_iff.mpr rfl) rfl (.here rfl))
  have held_between : shadowing.Holder "x" 1 0 :=
    .outward (not_binds_iff.mpr rfl) rfl (.here rfl)
  have held_apart : shadowing.Holder "x" 2 2 := .here rfl
  have assigned : (shadowing.assign 3 "x" (.int 10)).1 = true := rfl
  obtain ⟨assigning, _, opening⟩ := forest_obeys_store_laws forest
  have rebound := (assigning 3 "x" (.int 10)).2.2 assigned
  refine ⟨forest, assigned, ?_, ?_, ?_⟩
  · exact rebound.changed ⟨0, held_inside, held_between⟩
  · apply rebound.kept
    rintro ⟨-, holder, inside, apart⟩
    have same : 0 = 2 := (held_inside.unique inside).trans (held_apart.unique apart).symm
    exact absurd same (by decide)
  · exact (opening 2 (by decide) "x").2

end TailScheme.Heap
