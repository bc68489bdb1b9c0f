import TailScheme.Proofs.Sessions
import TailScheme.Proofs.Regime

/-!
# The names of closures

A closure is named by the first definition or assignment that has it as its value, and keeps that
name. One step of a session leaves the name of a closure as it is, or the step is such a binding
and the closure was anonymous (`Stage.nameOf_of_follows`). So, along a session, a closure is either
still anonymous and was never bound, or it has the name of its first binding (`Session.naming`).
-/
namespace TailScheme

namespace Heap

variable {heap : Heap} {value : Value} {procedure : Closure} {name : String} {id : Nat}

/-- A closure that is given a name has it afterwards, or an older one. -/
theorem nameOf_giveName_self (made : procedure.id < heap.names.size) :
    (heap.giveName (.closure procedure) name).nameOf procedure.id =
      (heap.nameOf procedure.id).or (some name) := by
  have known := Array.getElem?_eq_getElem made
  rw [nameOf, nameOf, giveName, Array.getElem?_modify, if_pos rfl, known]
  rfl

/-- Giving a name changes at most the name of the closure that is given it, and that only if it was
anonymous. -/
theorem nameOf_giveName_cases (value : Value) (name : String) (id : Nat) :
    (heap.giveName value name).nameOf id = heap.nameOf id ∨
      ∃ procedure, value = .closure procedure ∧ procedure.id = id ∧ heap.nameOf id = none ∧
        (heap.giveName value name).nameOf id = some name := by
  cases value with
  | closure procedure =>
    by_cases same : procedure.id = id
    · subst same
      rcases Nat.lt_or_ge procedure.id heap.names.size with made | missing
      · have given : (heap.giveName (.closure procedure) name).nameOf procedure.id = _ :=
          nameOf_giveName_self made
        rcases old : heap.nameOf procedure.id with _ | first
        · exact .inr ⟨procedure, rfl, rfl, rfl, by rw [given, old]; rfl⟩
        · exact .inl (by rw [given, old]; rfl)
      · left
        rw [nameOf, nameOf, giveName, Array.getElem?_modify, if_pos rfl,
          Array.getElem?_eq_none missing]
        rfl
    · left
      rw [nameOf, nameOf, giveName, Array.getElem?_modify, if_neg same]
  | _ => exact .inl rfl

end Heap

/-- Executing a definition or an assignment names the value. -/
theorem Moment.nameOf_of_writes {config : Config} {s t : Moment} {scope : ScopeId} {name : String}
    {value : Value} (writes : s.Writes scope name value) (follows : next config s = some t)
    (id : Nat) : t.machine.heap.nameOf id = (s.machine.heap.giveName value name).nameOf id := by
  cases writes with
  | define =>
    cases follows
    rfl
  | set found =>
    cases follows
    simp only [resuming, proceed, Run.assign, Heap.assign, found, if_pos]
    cases value <;> rfl

namespace Stage

/-- At this stage, a definition of the name has this closure as its value, or an assignment to the
name that finds it bound. -/
inductive Names : Stage → String → Closure → Prop where
  | step {hand : List Value} {s : Moment} {scope : ScopeId} {name : String} {procedure : Closure}
      (writes : s.Writes scope name (.closure procedure)) : Names (busy hand s) name procedure

section

variable {config : Config} {stage after : Stage} {name other : String} {procedure : Closure}

/-- A closure is bound to one name at a time. -/
theorem Names.unique (names : stage.Names name procedure) (also : stage.Names other procedure) :
    name = other := by
  obtain ⟨writes⟩ := names
  obtain ⟨also⟩ := also
  cases writes <;> cases also <;> rfl

/-- The closure that is bound is held. -/
theorem Names.holds (names : stage.Names name procedure) : stage.Holds (.closure procedure) := by
  obtain ⟨writes⟩ := names
  refine ⟨_, .moment rfl (.task ?_), .refl _⟩
  cases writes <;> exact List.mem_cons_self

/-- One step names a closure only by binding it, and only if it is anonymous. -/
theorem nameOf_of_follows (follows : Follows config stage after) (id : Nat) :
    after.heap.nameOf id = stage.heap.nameOf id ∨
      ∃ name procedure, stage.Names name procedure ∧ procedure.id = id ∧
        stage.heap.nameOf id = none ∧ after.heap.nameOf id = some name := by
  cases follows with
  | assign among =>
    left
    simp only [Stage.heap, Heap.assign]
    split <;> rfl
  | @next hand s t step =>
    change t.machine.heap.nameOf id = s.machine.heap.nameOf id ∨ ∃ name procedure, _ ∧ _ ∧
      s.machine.heap.nameOf id = none ∧ t.machine.heap.nameOf id = some name
    have alters := Moment.alters_of_next step
    generalize t.machine.heap = heap at alters
    cases alters with
    | close closes =>
      have same : (s.machine.heap.newClosure [] [] Heap.root).2.nameOf id =
          s.machine.heap.nameOf id := Heap.nameOf_newClosure
      exact .inl same
    | @write scope name value writes =>
      rcases Heap.nameOf_giveName_cases value name id with same |
        ⟨procedure, rfl, same, old, given⟩
      · exact .inl same
      · exact .inr ⟨name, procedure, .step writes, same, old, given⟩
    | _ => exact .inl rfl
  | _ => exact .inl rfl

/-- An anonymous closure that is bound gets the name. -/
theorem Names.nameOf (names : stage.Names name procedure) (follows : Follows config stage after)
    (made : procedure.id < stage.heap.names.size) :
    after.heap.nameOf procedure.id = (stage.heap.nameOf procedure.id).or (some name) := by
  obtain ⟨writes⟩ := names
  cases follows with
  | next step =>
    exact (Moment.nameOf_of_writes writes step _).trans (Heap.nameOf_giveName_self made)
  | value => cases writes
  | failure => cases writes

/-- A closure that is made is anonymous. -/
theorem Closes.nameOf (closes : stage.Closes procedure) (follows : Follows config stage after) :
    after.heap.nameOf procedure.id = none := by
  obtain ⟨closes⟩ := closes
  cases closes with
  | @lambda place params body scope pending machine =>
    cases follows with
    | next step =>
      cases step
      have same : (machine.heap.newClosure params body scope).2.nameOf machine.heap.names.size =
          machine.heap.nameOf machine.heap.names.size := Heap.nameOf_newClosure
      exact same.trans (congrArg Option.join (Array.getElem?_size ..))

end

end Stage

namespace Session

variable {config : Config} {count : Nat} {stages : Nat → Stage}

section

variable (session : Session config count stages) {i j k id : Nat} {name other : String}
  {procedure callee : Closure}

include session

/-- Every closure that is held was made before. -/
theorem closed_before (inside : j ≤ count) (holds : (stages j).Holds (.closure procedure)) :
    ∃ i < j, (stages i).Closes procedure := by
  obtain ⟨i, before, ⟨path, builds⟩ | ⟨_, ⟨⟩, closes⟩⟩ := session.origin inside holds rfl
  · cases builds.isPair
  · exact ⟨i, before, closes⟩

/-- Every closure that is held and carries the stamp of one that was made is the same. -/
theorem eq_of_closes (inside : i < count) (also_inside : j ≤ count)
    (closes : (stages i).Closes procedure) (holds : (stages j).Holds (.closure callee))
    (same : callee.id = procedure.id) : callee = procedure := by
  obtain ⟨k, before, also⟩ := session.closed_before also_inside holds
  exact (session.closes_unique (by omega) inside also closes same).2

/-- A name lasts. -/
theorem nameOf_lasts (earlier : i ≤ j) (inside : j ≤ count)
    (named : (stages i).heap.nameOf id = some name) : (stages j).heap.nameOf id = some name := by
  induction j, earlier using Nat.le_induction with
  | base => exact named
  | succ j _ ih =>
    have named_here := ih (Nat.le_of_succ_le inside)
    rcases Stage.nameOf_of_follows (session.follows j inside) id with same | ⟨_, _, _, _, old, _⟩
    · exact same.trans named_here
    · rw [named_here] at old
      cases old

/-- Either a closure is still anonymous and was never bound since it was made, or it has the name of
its first binding. -/
theorem naming (inside : j ≤ count) (later : i + 1 ≤ j) (closes : (stages i).Closes procedure) :
    ((stages j).heap.nameOf procedure.id = none ∧
      ∀ k, i < k → k < j → ∀ name, ¬(stages k).Names name procedure) ∨
    ∃ k name, i < k ∧ k < j ∧ (stages k).Names name procedure ∧
      (∀ l, i < l → l < k → ∀ other, ¬(stages l).Names other procedure) ∧
      (stages j).heap.nameOf procedure.id = some name := by
  induction j, later using Nat.le_induction with
  | base =>
    refine .inl ⟨closes.nameOf (session.follows i inside), fun k after before => ?_⟩
    omega
  | succ j later ih =>
    have follows := session.follows j inside
    rcases ih (Nat.le_of_succ_le inside) with ⟨anonymous, never⟩ |
      ⟨k, name, after, before, names, first, named⟩
    · by_cases bound : ∃ name, (stages j).Names name procedure
      · obtain ⟨name, names⟩ := bound
        have made : procedure.id < (stages j).heap.names.size := by
          have stamp := closes.stamp (session.follows i (by omega))
          have grown := (session.counters_le later (Nat.le_of_succ_le inside)).2
          omega
        have named := names.nameOf follows made
        rw [anonymous] at named
        exact .inr ⟨j, name, later, Nat.lt_succ_self j, names, never, named⟩
      · left
        constructor
        · rcases Stage.nameOf_of_follows follows procedure.id with same |
            ⟨name, callee, names, same, -⟩
          · exact same.trans anonymous
          · obtain rfl := session.eq_of_closes (by omega) (Nat.le_of_succ_le inside) closes
              names.holds same
            exact absurd ⟨name, names⟩ bound
        · intro k after before name names
          rcases Nat.lt_or_eq_of_le (Nat.le_of_lt_succ before) with earlier | rfl
          · exact never k after earlier name names
          · exact bound ⟨name, names⟩
    · have lasts := session.nameOf_lasts (Nat.le_succ j) inside named
      exact .inr ⟨k, name, after, Nat.lt_succ_of_lt before, names, first, lasts⟩

/-- A closure has the name of its first binding. -/
theorem nameOf_eq_some_iff (inside : j ≤ count) (later : i < j)
    (closes : (stages i).Closes procedure) :
    (stages j).heap.nameOf procedure.id = some name ↔
      ∃ k, i < k ∧ k < j ∧ (stages k).Names name procedure ∧
        ∀ l, i < l → l < k → ∀ other, ¬(stages l).Names other procedure := by
  constructor
  · intro named
    rcases session.naming inside later closes with ⟨anonymous, -⟩ |
      ⟨k, first_name, after, before, names, first, same⟩
    · rw [named] at anonymous
      cases anonymous
    · rw [named] at same
      cases same
      exact ⟨k, after, before, names, first⟩
  · rintro ⟨k, after, before, names, first⟩
    rcases session.naming inside later closes with ⟨-, never⟩ |
      ⟨l, first_name, also_after, also_before, also_names, also_first, named⟩
    · exact absurd names (never k after before name)
    · rcases Nat.lt_trichotomy k l with earlier | rfl | behind
      · exact absurd names (also_first k after earlier name)
      · rwa [names.unique also_names]
      · exact absurd also_names (first l also_after behind first_name)

end

end Session

/-- A closure's name is written once, in every session. Every closure that anybody holds was made
by the evaluation of a `lambda`. From then on it has a name exactly if a definition or a successful
assignment had it as its value since, and the name is that of the first such binding. Nothing takes
a name away or changes it, and nothing but such a binding gives one. -/
theorem names_are_written_once {config : Config} {count : Nat} {stages : Nat → Stage}
    (session : Session config count stages) :
    (∀ j ≤ count, ∀ procedure, (stages j).Holds (.closure procedure) →
      ∃ i < j, (stages i).Closes procedure) ∧
    (∀ j ≤ count, ∀ i < j, ∀ procedure, (stages i).Closes procedure → ∀ name,
      ((stages j).heap.nameOf procedure.id = some name ↔
        ∃ k, i < k ∧ k < j ∧ (stages k).Names name procedure ∧
          ∀ l, i < l → l < k → ∀ other, ¬(stages l).Names other procedure)) ∧
    (∀ j ≤ count, ∀ i ≤ j, ∀ id name, (stages i).heap.nameOf id = some name →
      (stages j).heap.nameOf id = some name) ∧
    (∀ i < count, ∀ id, (stages (i + 1)).heap.nameOf id ≠ (stages i).heap.nameOf id →
      ∃ name procedure, (stages i).Names name procedure ∧ procedure.id = id ∧
        (stages i).heap.nameOf id = none ∧ (stages (i + 1)).heap.nameOf id = some name) := by
  refine ⟨fun j inside _ => session.closed_before inside, ?_, ?_, ?_⟩
  · exact fun j inside i before _ closes _ => session.nameOf_eq_some_iff inside before closes
  · exact fun j inside i earlier _ _ => session.nameOf_lasts earlier inside
  · intro i inside id changed
    exact (Stage.nameOf_of_follows (session.follows i inside) id).resolve_left changed

/-- Hands a procedure over as the parameter `p`, defines it as `f` and then as `g`, and returns
it. -/
def definedTwice : Expr :=
  .list [.lambda ["p"] [.define "f" (.ident "p"), .define "g" (.ident "f"), .ident "g"],
    .lambda [] [.int 1]]

/-- A procedure that is defined as `f` and then as `g` is called `f`, and it was the definition of
`f` that first had it as its value: handing it over as an argument did not name it. -/
theorem names_are_written_once_of_defined_twice :
    ∃ count stages procedure, Session ⟨true, 200⟩ count stages ∧
      ((stages count).heap.locals 1).find? "g" = some (.closure procedure) ∧
      (stages count).heap.nameOf procedure.id = some "f" ∧
      ∃ i < count, (stages i).Closes procedure ∧
        ∃ k, i < k ∧ k < count ∧ (stages k).Names "f" procedure ∧
          ∀ l, i < l → l < k → ∀ other, ¬(stages l).Names other procedure := by
  let procedure : Closure := ⟨1, [], [.int 1], 0⟩
  have returned : (evalOn ⟨true, 200⟩ 0 definedTwice .initial).1 = .ok (.closure procedure) := by
    decide +kernel
  have named : (evalOn ⟨true, 200⟩ 0 definedTwice .initial).2.nameOf 1 = some "f" := by
    decide +kernel
  have bound : ((evalOn ⟨true, 200⟩ 0 definedTwice .initial).2.locals 1).find? "g" =
      some (.closure procedure) := by decide +kernel
  obtain ⟨hand, reached, -⟩ := Stage.leads_evalOn ⟨true, 200⟩ 0 definedTwice [] .initial
    (by rw [returned]; rintro ⟨⟩)
  obtain ⟨count, stages, session, last⟩ := Session.exists_of_reached reached
  have g_bound : ((stages count).heap.locals 1).find? "g" = some (.closure procedure) :=
    last ▸ bound
  have called : (stages count).heap.nameOf procedure.id = some "f" := last ▸ named
  obtain ⟨made, written, -⟩ := names_are_written_once session
  obtain ⟨i, before, closes⟩ := made count (Nat.le_refl _) procedure (.of_find? g_bound)
  have names := (written count (Nat.le_refl _) i before procedure closes "f").mp called
  exact ⟨count, stages, procedure, session, g_bound, called, i, before, closes, names⟩

end TailScheme
