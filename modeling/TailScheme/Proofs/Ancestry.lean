import TailScheme.Proofs.Chains
import TailScheme.Proofs.Sessions

/-!
# The ancestry of scopes

Closures that are bound in the scope that they captured make a heap cyclic, but the links from
scopes to their parents never run in a circle. A stage adds one scope at most, within one that is
there, and leaves all other scopes where they are (`Heap.Grows`). That the scope within which it is
opened is there is the invariant of sessions (`Stage.Rooted`).

So looking outward comes to an end. The loops that look names up, assign names and collect bindings
have no bound of their own: they go on as long as there is a parent (`Heap.seek`, `Heap.collect`).
In a forest they stop, with the scopes of the chain (`Heap.Forest.exists_seek`,
`Heap.Forest.eval_collect`).
-/
namespace TailScheme

open StateTransition
open Value (IsPart)

namespace Heap

/-- These are the scopes from one scope outward: each one lies within the next, and the last one
within none. -/
inductive Outward (heap : Heap) : ScopeId → List ScopeId → Prop where
  | outermost {scope : ScopeId} (within_none : heap.parentOf scope = none) :
      Outward heap scope [scope]
  | within {scope parent : ScopeId} {scopes : List ScopeId}
      (inside : heap.parentOf scope = some parent) (outer : Outward heap parent scopes) :
      Outward heap scope (scope :: scopes)

/-- The loop of lookups and assignments: a scope that does not bind the name is left for its
parent. -/
def seek (heap : Heap) (name : String) (scope : ScopeId) : Option ScopeId :=
  match (heap.locals scope).find? name with
  | some _ => none
  | none => heap.parentOf scope

/-- The loop that collects scopes: every scope is followed by its parent. -/
def collect (heap : Heap) : List ScopeId × Option ScopeId → Option (List ScopeId × Option ScopeId)
  | (_, none) => none
  | (collected, some scope) => some (collected ++ [scope], heap.parentOf scope)

/-- What these scopes bind, in the order of the names, the inner ones hiding the outer ones. -/
def listing (heap : Heap) (scopes : List ScopeId) : Bindings :=
  (heap.bindingsAlong scopes).mergeSort fun first second => !decide (second.1 < first.1)

/-- What an assignment does where the loop has come to. -/
def settle (heap : Heap) (name : String) (value : Value) (last : ScopeId) : Bool × Heap :=
  match (heap.locals last).find? name with
  | some _ => (true, heap.insert last name value)
  | none => (false, heap)

/-- One heap grows out of another: by a scope within one that is there, or by a binding, or not at
all. -/
inductive Grows (heap after : Heap) : Prop where
  | same (scopes_eq : after.scopes = heap.scopes)
  | openScope {parent : Option ScopeId} {bindings : Bindings}
      (there : ∀ outer ∈ parent, outer < heap.scopes.size)
      (scopes_eq : after.scopes = (heap.newScope parent bindings).2.scopes)
  | write {scope : ScopeId} {name : String} {value : Value}
      (scopes_eq : after.scopes = (heap.insert scope name value).scopes)

section

variable {heap after : Heap} {scope parent : ScopeId} {name : String} {value : Value}

/-- The scopes determine which lies within which. -/
theorem parentOf_of_scopes (same : after.scopes = heap.scopes) (scope : ScopeId) :
    after.parentOf scope = heap.parentOf scope := by
  unfold parentOf
  rw [same]

/-- A heap that grows out of a forest is a forest. -/
theorem Grows.forest (grows : heap.Grows after) (forest : heap.Forest) : after.Forest := by
  cases grows with
  | same scopes_eq => exact forest.objects scopes_eq
  | openScope there scopes_eq => exact (forest.newScope there _).objects scopes_eq
  | write scopes_eq => exact (forest.insert _ _ _).objects scopes_eq

/-- A heap grows by one scope at most. -/
theorem Grows.size (grows : heap.Grows after) :
    heap.scopes.size ≤ after.scopes.size ∧ after.scopes.size ≤ heap.scopes.size + 1 := by
  cases grows with
  | same scopes_eq => rw [scopes_eq]; omega
  | openScope there scopes_eq =>
    rw [scopes_eq, newScope, Array.size_push]
    omega
  | write scopes_eq => rw [scopes_eq, size_insert]; omega

/-- A scope stays within the same parent. -/
theorem Grows.parentOf_eq (grows : heap.Grows after) (old : scope < heap.scopes.size) :
    after.parentOf scope = heap.parentOf scope := by
  cases grows with
  | same scopes_eq => exact parentOf_of_scopes scopes_eq scope
  | openScope there scopes_eq =>
    rw [parentOf_of_scopes scopes_eq, parentOf_newScope, if_neg (Nat.ne_of_lt old)]
  | write scopes_eq => rw [parentOf_of_scopes scopes_eq, parentOf_insert]

/-- The chain of a scope goes on with the chain of its parent. -/
theorem Forest.chain_eq (forest : heap.Forest) (there : scope < heap.scopes.size) :
    heap.chain scope = scope :: ((heap.parentOf scope).map heap.chain).getD [] := by
  have found : heap.scopes[scope]? = some heap.scopes[scope] := Array.getElem?_eq_getElem there
  rw [chain, chainWithin, found, parentOf, found]
  rcases outer : heap.scopes[scope].parent with _ | parent
  · simp [outer]
  · have inside : heap.parentOf scope = some parent := by simp [parentOf, found, outer]
    have older := forest.parent_lt inside
    have same := forest.chainWithin_eq scope (parent + 1) parent older (Nat.lt_succ_self parent)
    simp [outer, same, chain]

/-- In a forest the chain of a scope that is there are the scopes outward, and each one is older
than those before it. -/
theorem Forest.outward (forest : heap.Forest) (scope : ScopeId) (there : scope < heap.scopes.size) :
    heap.Outward scope (heap.chain scope) ∧
      (heap.chain scope).Pairwise (fun inner outer => outer < inner) ∧
      ∀ outer ∈ heap.chain scope, outer ≤ scope := by
  induction scope using forest.outward_induction with
  | step scope ih =>
    rw [forest.chain_eq there]
    rcases inside : heap.parentOf scope with _ | parent
    · simpa using Outward.outermost inside
    · have older := forest.parent_lt inside
      obtain ⟨outer, descending, bound⟩ := ih parent inside (Nat.lt_trans older there)
      have below : ∀ outer ∈ heap.chain parent, outer < scope :=
        fun outer among => Nat.lt_of_le_of_lt (bound outer among) older
      refine ⟨.within inside outer, List.pairwise_cons.mpr ⟨below, descending⟩, ?_⟩
      exact List.forall_mem_cons.mpr ⟨Nat.le_refl _, fun outer among => (below outer among).le⟩

/-- The loop of lookups stops where the name is found, or at the outermost scope. -/
theorem Forest.exists_seek (forest : heap.Forest) (name : String) (scope : ScopeId) :
    ∃ last, Reaches (heap.seek name) scope last ∧ heap.seek name last = none ∧
      heap.find? scope name = ((heap.locals last).find? name).map fun value => (last, value) := by
  induction scope using forest.outward_induction with
  | step scope ih =>
    rw [forest.find?_eq]
    rcases bound : (heap.locals scope).find? name with _ | value
    · rcases inside : heap.parentOf scope with _ | parent
      · exact ⟨scope, .refl, by simp [seek, bound, inside], by simp [bound]⟩
      · obtain ⟨last, reached, stops, found⟩ := ih parent inside
        have step : heap.seek name scope = some parent := by simp [seek, bound, inside]
        exact ⟨last, .head step reached, stops, by simpa using found⟩
    · exact ⟨scope, .refl, by simp [seek, bound], by simp [bound]⟩

/-- Looking a name up ends, with what the chain says. -/
theorem Forest.eval_lookup (forest : heap.Forest) (scope : ScopeId) (name : String) :
    (StateTransition.eval (heap.seek name) scope).map (fun last => (heap.locals last).find? name) =
      Part.some (heap.lookup scope name) := by
  obtain ⟨last, reached, stops, found⟩ := forest.exists_seek name scope
  rw [Part.eq_some_iff.mpr (mem_eval.mpr ⟨reached, stops⟩), Part.map_some, lookup, found]
  simp

/-- Assigning a name ends, with what the chain says. -/
theorem Forest.eval_assign (forest : heap.Forest) (scope : ScopeId) (name : String)
    (value : Value) :
    (StateTransition.eval (heap.seek name) scope).map (heap.settle name value) =
      Part.some (heap.assign scope name value) := by
  obtain ⟨last, reached, stops, found⟩ := forest.exists_seek name scope
  rw [Part.eq_some_iff.mpr (mem_eval.mpr ⟨reached, stops⟩), Part.map_some, Heap.assign, found,
    settle]
  cases (heap.locals last).find? name <;> rfl

/-- Collecting scopes ends, with the chain. -/
theorem Forest.eval_collect (forest : heap.Forest) (scope : ScopeId)
    (there : scope < heap.scopes.size) :
    StateTransition.eval heap.collect ([], some scope) = Part.some (heap.chain scope, none) := by
  suffices collects : ∀ collected, Reaches heap.collect (collected, some scope)
      (collected ++ heap.chain scope, none) from
    Part.eq_some_iff.mpr (mem_eval.mpr ⟨collects [], rfl⟩)
  induction scope using forest.outward_induction with
  | step scope ih =>
    intro collected
    have step : heap.collect (collected, some scope) =
      some (collected ++ [scope], heap.parentOf scope) := rfl
    rw [forest.chain_eq there]
    rcases inside : heap.parentOf scope with _ | parent
    · rw [inside] at step
      exact .single step
    · rw [inside] at step
      have older := forest.parent_lt inside
      have rest := ih parent inside (Nat.lt_trans older there) (collected ++ [scope])
      rw [List.append_assoc] at rest
      exact .head step rest

/-- Collecting bindings ends, with what the chain binds. -/
theorem Forest.eval_bindings (forest : heap.Forest) (there : scope < heap.scopes.size) :
    (StateTransition.eval heap.collect ([], some scope)).map
        (fun collected => heap.listing collected.1) = Part.some (heap.bindings scope) := by
  rw [forest.eval_collect scope there, Part.map_some]
  rfl

end

end Heap

/-- The scope in which a task evaluates. -/
def Task.scope? : Task → Option ScopeId
  | .evaluate _ _ scope | .operands _ _ _ _ scope | .body _ _ _ scope
  | .branches _ _ _ scope _ => some scope
  | .apply _ _ _ _ | .enter _ | .give _ | .stop _ => none

/-- The scope in which an evaluation goes on when it has the value that it waits for. -/
def Pending.scope? : Pending → Option ScopeId
  | .operands _ _ _ _ scope | .define _ scope | .set _ scope | .choose _ _ _ _ scope _
  | .sequence _ _ _ scope => some scope
  | .marks _ _ | .frame => none

/-- An evaluation evaluates in this scope now, or it will when it has the value that it waits
for. -/
def Moment.EvaluatesIn (s : Moment) (scope : ScopeId) : Prop :=
  s.task.scope? = some scope ∨ ∃ item ∈ s.pending, item.scope? = some scope

namespace Moment

section

variable {config : Config} {s t : Moment} {scope : ScopeId}

/-- The scopes in which an evaluation evaluates are there. -/
theorem Anchored.lt_size (anchored : s.Anchored) (evaluates : s.EvaluatesIn scope) :
    scope < s.machine.heap.scopes.size := by
  obtain ⟨count, bound, within⟩ := anchored
  refine Nat.lt_of_lt_of_le ?_ bound
  obtain ⟨task, pending, machine⟩ := s
  rcases evaluates with same | ⟨item, waits, same⟩
  · have inside := within.task
    cases task <;> simp_all [Task.scope?, Task.Within]
  · have inside := within.pending item waits
    cases item <;> simp_all [Pending.scope?, Pending.Within]

/-- A scope is opened within one that is there. -/
theorem Anchored.lt_of_opens {bindings : Bindings} (anchored : s.Anchored)
    (opens : s.Opens scope bindings) : scope < s.machine.heap.scopes.size := by
  cases opens with
  | call fits =>
    obtain ⟨count, bound, within⟩ := anchored
    exact Nat.lt_of_lt_of_le within.task.callee bound
  | otherwise => exact anchored.lt_size (.inl rfl)
  | chosen => exact anchored.lt_size (.inr ⟨_, List.mem_cons_self, rfl⟩)

/-- What a step does to the heap makes it grow. -/
theorem Alters.grows {heap : Heap} (anchored : s.Anchored) (alters : s.Alters heap) :
    s.machine.heap.Grows heap := by
  cases alters with
  | keep | make | close => exact .same rfl
  | openScope opens =>
    refine .openScope (fun outer same => ?_) rfl
    exact Option.some.inj same ▸ anchored.lt_of_opens opens
  | write writes => exact .write (Heap.scopes_insert Heap.scopes_giveName)

end

end Moment

/-- The scopes that a value refers to, by the closures in it, are among the first ones if the
closures in it are made in these. -/
theorem Value.within_of_parts {count : Nat} {value : Value}
    (closures : ∀ procedure, IsPart (.closure procedure) value → procedure.scope < count) :
    value.Within count := by
  induction value with
  | pair id first second first_ih second_ih =>
    refine ⟨first_ih fun procedure inside => ?_, second_ih fun procedure inside => ?_⟩
    · exact closures procedure (isPart_pair_iff.mpr (.inr (.inl inside)))
    · exact closures procedure (isPart_pair_iff.mpr (.inr (.inr inside)))
  | closure procedure => exact closures procedure (.refl _)
  | _ => trivial

namespace Stage

/-- The scopes that can be come to: the top level, the scopes that closures captured, those in
which an evaluation evaluates, and the parents of all these. -/
inductive Refers (stage : Stage) : ScopeId → Prop where
  | root : Refers stage Heap.root
  | captured {procedure : Closure} (holds : stage.Holds (.closure procedure)) :
      Refers stage procedure.scope
  | evaluated {hand : List Value} {moment : Moment} {scope : ScopeId}
      (evaluates : stage = busy hand moment) (uses : moment.EvaluatesIn scope) :
      Refers stage scope
  | parent {scope parent : ScopeId} (refers : Refers stage scope)
      (inside : stage.heap.parentOf scope = some parent) : Refers stage parent

/-- The scopes are a forest, and all that is referred to is there. -/
structure Rooted (stage : Stage) : Prop where
  forest : stage.heap.Forest
  root : Heap.root < stage.heap.scopes.size
  captured : ∀ procedure, stage.Holds (.closure procedure) →
    procedure.scope < stage.heap.scopes.size
  anchored : ∀ hand moment, stage = busy hand moment → moment.Anchored

section

variable {config : Config} {stage after : Stage}

/-- The heap of a rooted stage refers to scopes that are there. -/
theorem Rooted.heap_anchored (rooted : stage.Rooted) : stage.heap.Anchored where
  root := rooted.root
  values _ _ among := Value.within_of_parts fun procedure inside =>
    rooted.captured procedure ⟨_, .bound among, inside⟩

/-- One stage makes the scopes of the next one grow. -/
theorem Rooted.grows (rooted : stage.Rooted) (follows : Follows config stage after) :
    stage.heap.Grows after.heap := by
  cases follows with
  | openScope there => exact .openScope there rfl
  | insert among => exact .write rfl
  | @assign hand heap scope name value among =>
    simp only [Stage.heap, Heap.assign]
    split
    · exact .same rfl
    · exact .write rfl
  | next step => exact (Moment.alters_of_next step).grows (rooted.anchored _ _ rfl)
  | _ => exact .same rfl

/-- What follows a rooted stage is rooted. -/
theorem Rooted.of_follows (rooted : stage.Rooted) (follows : Follows config stage after) :
    after.Rooted := by
  have grows := rooted.grows follows
  refine ⟨grows.forest rooted.forest, Nat.lt_of_lt_of_le rooted.root grows.size.1, ?_, ?_⟩
  · intro procedure holds
    refine Nat.lt_of_lt_of_le ?_ grows.size.1
    rcases holds_or_creates follows holds with held | atom | ⟨path, builds⟩ |
      ⟨_, same, ⟨closes⟩⟩
    · exact rooted.captured procedure held
    · cases atom
    · cases builds.isPair
    · obtain rfl := Value.closure.inj same
      have anchored := rooted.anchored _ _ rfl
      cases closes with
      | lambda => exact anchored.lt_size (.inl rfl)
  · rintro hand moment rfl
    cases follows with
    | begin => exact Moment.anchored_first _ rfl rooted.heap_anchored
    | next step => exact (rooted.anchored _ _ rfl).of_next step

/-- The start is rooted. -/
theorem rooted_initial : initial.Rooted where
  forest := by
    have start : (Heap.empty.newScope none Heap.builtinBindings).2.Forest :=
      Heap.Forest.empty.newScope (by simp) _
    exact start
  root := by decide
  captured procedure holds := by cases isObject_initial holds
  anchored := by rintro _ _ ⟨⟩

/-- Every stage that can be reached is rooted. -/
theorem Reached.rooted (reached : stage.Reached config) : stage.Rooted := by
  induction reached with
  | refl => exact rooted_initial
  | tail _ follows ih => exact ih.of_follows follows

/-- What is referred to at a rooted stage is there. -/
theorem Rooted.lt_size {scope : ScopeId} (rooted : stage.Rooted) (refers : stage.Refers scope) :
    scope < stage.heap.scopes.size := by
  induction refers with
  | root => exact rooted.root
  | captured holds => exact rooted.captured _ holds
  | evaluated evaluates uses =>
    subst evaluates
    exact (rooted.anchored _ _ rfl).lt_size uses
  | parent _ inside ih => exact Nat.lt_trans (rooted.forest.parent_lt inside) ih

/-- Whatever happens, scopes stay within the same parents. -/
theorem Rooted.parentOf_eq (rooted : stage.Rooted) (leads : Leads config stage after)
    {scope : ScopeId} (there : scope < stage.heap.scopes.size) :
    scope < after.heap.scopes.size ∧ after.heap.parentOf scope = stage.heap.parentOf scope := by
  suffices after.Rooted ∧ scope < after.heap.scopes.size ∧
      after.heap.parentOf scope = stage.heap.parentOf scope from this.2
  induction leads with
  | refl => exact ⟨rooted, there, rfl⟩
  | tail _ follows ih =>
    obtain ⟨before_rooted, there, same⟩ := ih
    have grows := before_rooted.grows follows
    exact ⟨before_rooted.of_follows follows, Nat.lt_of_lt_of_le there grows.size.1,
      (grows.parentOf_eq there).trans same⟩

/-- A scope that lies within another one was created when the other one was there already: at some
earlier stage the other one was there and it was not. -/
theorem Reached.created_after (reached : stage.Reached config) {scope parent : ScopeId}
    (there : scope < stage.heap.scopes.size)
    (inside : stage.heap.parentOf scope = some parent) :
    ∃ earlier : Stage, earlier.Reached config ∧ earlier.Leads config stage ∧
      parent < earlier.heap.scopes.size ∧ earlier.heap.scopes.size ≤ scope := by
  induction reached with
  | refl =>
    obtain rfl : scope = 0 := Nat.lt_one_iff.mp there
    cases inside
  | @tail before after reached follows ih =>
    have rooted := Reached.rooted reached
    have grows := rooted.grows follows
    by_cases old : scope < before.heap.scopes.size
    · rw [grows.parentOf_eq old] at inside
      obtain ⟨earlier, came, leads, parent_there, not_there⟩ := ih old inside
      exact ⟨earlier, came, leads.tail follows, parent_there, not_there⟩
    · have older := (grows.forest rooted.forest).parent_lt inside
      have newest := Nat.le_of_lt_succ (Nat.lt_of_lt_of_le there grows.size.2)
      exact ⟨before, reached, .single follows, Nat.lt_of_lt_of_le older newest,
        Nat.le_of_not_lt old⟩

end

end Stage

/-- Scope chains are well founded, whatever was evaluated and done before. All scopes that can be
come to are there. From every scope that is there, finitely many scopes lead outward, each one
older than those before it; a parent was there when its child was not yet, and it stays the parent
whatever happens later. So looking up, assigning and collecting, which go on as long as there is a
parent, come to an end, with what the chain says. -/
theorem scope_chains_are_well_founded {config : Config} {stage : Stage}
    (reached : stage.Reached config) :
    (∀ scope, stage.Refers scope → scope < stage.heap.scopes.size) ∧
    (∀ scope < stage.heap.scopes.size,
      stage.heap.Outward scope (stage.heap.chain scope) ∧
      (stage.heap.chain scope).Pairwise (fun inner outer => outer < inner) ∧
      ∀ parent, stage.heap.parentOf scope = some parent →
        ∃ earlier : Stage, earlier.Reached config ∧ earlier.Leads config stage ∧
          parent < earlier.heap.scopes.size ∧ earlier.heap.scopes.size ≤ scope) ∧
    (∀ later, stage.Leads config later → ∀ scope < stage.heap.scopes.size,
      scope < later.heap.scopes.size ∧
        later.heap.parentOf scope = stage.heap.parentOf scope) ∧
    ∀ scope < stage.heap.scopes.size,
      (∀ name, (StateTransition.eval (stage.heap.seek name) scope).map
          (fun last => (stage.heap.locals last).find? name) =
        Part.some (stage.heap.lookup scope name)) ∧
      (∀ name value, (StateTransition.eval (stage.heap.seek name) scope).map
          (stage.heap.settle name value) = Part.some (stage.heap.assign scope name value)) ∧
      (StateTransition.eval stage.heap.collect ([], some scope)).map
          (fun collected => stage.heap.listing collected.1) =
        Part.some (stage.heap.bindings scope) := by
  have rooted := reached.rooted
  have forest := rooted.forest
  refine ⟨fun scope => rooted.lt_size, fun scope there => ?_, fun later leads scope there => ?_,
    fun scope there => ?_⟩
  · obtain ⟨outward, descending, -⟩ := forest.outward scope there
    exact ⟨outward, descending, fun parent => reached.created_after there⟩
  · exact rooted.parentOf_eq leads there
  · exact ⟨forest.eval_lookup scope, forest.eval_assign scope, forest.eval_bindings there⟩

/-- A closure is bound in the scope that it captured. A call of another one that fails leaves the
links from scopes to their parents as they were. -/
theorem scope_chains_are_well_founded_of_cycle :
    let making : Expr := .define "f" (.list [.lambda ["n"]
      [.define "self" (.lambda [] [.ident "self"]), .ident "self"], .int 1])
    let failing : Expr := .list [.lambda [] [.ident "missing"]]
    let heap := (evalOn ⟨true, 200⟩ 0 making Heap.initial).2
    let later := (evalOn ⟨true, 200⟩ 0 failing heap).2
    ∃ hand more, Stage.Reached ⟨true, 200⟩ (.idle hand heap) ∧
      heap.lookup Heap.root "f" = some (.closure ⟨1, [], [.ident "self"], 1⟩) ∧
      (heap.locals 1).find? "self" = some (.closure ⟨1, [], [.ident "self"], 1⟩) ∧
      (Stage.idle hand heap).Refers 1 ∧ heap.Outward 1 [1, 0] ∧
      (StateTransition.eval (heap.seek "self") 1).map
          (fun last => (heap.locals last).find? "self") = Part.some (heap.lookup 1 "self") ∧
      (Stage.idle hand heap).Leads ⟨true, 200⟩ (.idle more later) ∧
      later.scopes.size = 3 ∧ later.parentOf 1 = heap.parentOf 1 := by
  intro making failing heap later
  have made : (evalOn ⟨true, 200⟩ 0 making Heap.initial).1 = .ok .nil := by
    subst making
    decide +kernel
  have failed : (evalOn ⟨true, 200⟩ 0 failing heap).1 = .error (.failed (.unbound "missing")) := by
    subst heap making failing
    decide +kernel
  have looked_up : heap.lookup Heap.root "f" = some (.closure ⟨1, [], [.ident "self"], 1⟩) := by
    subst heap making
    decide +kernel
  have bound : (heap.locals 1).find? "self" = some (.closure ⟨1, [], [.ident "self"], 1⟩) := by
    subst heap making
    decide +kernel
  have chain_eq : heap.chain 1 = [1, 0] := by
    subst heap making
    decide +kernel
  have later_size : later.scopes.size = 3 := by
    subst later heap making failing
    decide +kernel
  obtain ⟨hand, came, -⟩ := Stage.leads_evalOn ⟨true, 200⟩ 0 making [] Heap.initial
    (by rw [made]; rintro ⟨⟩)
  obtain ⟨more, went, -⟩ := Stage.leads_evalOn ⟨true, 200⟩ 0 failing (hand ++ []) heap
    (by rw [failed]; rintro ⟨⟩)
  have reached : Stage.Reached ⟨true, 200⟩ (.idle (hand ++ []) heap) := came
  have leads : (Stage.idle (hand ++ []) heap).Leads ⟨true, 200⟩
    (.idle (more ++ (hand ++ [])) later) := went
  -- From here on nothing has to be computed.
  clear_value later heap
  have held : (Stage.idle (hand ++ []) heap).Holds (.closure ⟨1, [], [.ident "self"], 1⟩) :=
    .of_find? bound
  have refers : (Stage.idle (hand ++ []) heap).Refers 1 := .captured held
  obtain ⟨there, outward, kept, loops⟩ := scope_chains_are_well_founded reached
  have one_there : 1 < heap.scopes.size := there 1 refers
  have outward_one : heap.Outward 1 (heap.chain 1) := (outward 1 one_there).1
  rw [chain_eq] at outward_one
  have ends := (loops 1 one_there).1 "self"
  have same_parent := (kept _ leads 1 one_there).2
  exact ⟨hand ++ [], more ++ (hand ++ []), reached, looked_up, bound, refers, outward_one, ends,
    leads, later_size, same_parent⟩

end TailScheme
