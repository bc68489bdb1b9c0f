import TailScheme.Proofs.Histories
import TailScheme.Proofs.Building

/-!
# Sessions

Whoever uses an evaluator has some values in hand. Between evaluations they take values out of
scopes and pairs, make pairs, open scopes and bind names; and they have trees evaluated, of which
some return a value, some fail, and some go on forever. A session is a row of stages that follow one
another in these ways (`Stage.Follows`). What a program text comes to is part of a session
(`Stage.Reached.of_program`).

A session holds the values that anybody has, with all their parts. Pairs and closures that are held
were made at some earlier stage (`Session.origin`), and those that look identical were made at one
and the same stage and place, and are the same (`Session.eq_of_identical`).
-/
namespace TailScheme

open StateTransition
open Value (IsPart Side)

namespace Value

variable {value other : Value}

/-- Identical values are the same, or they are pairs or closures that carry the same stamp. -/
theorem identical_cases (same : value.identical other = true) :
    value = other ∨
    (∃ id first second head tail, value = .pair id first second ∧ other = .pair id head tail) ∨
    ∃ procedure callee, value = .closure procedure ∧ other = .closure callee ∧
      procedure.id = callee.id := by
  match value, other, same with
  | .nil, .nil, _ => exact .inl rfl
  | .bool value, .bool other, same => exact .inl (congrArg bool (eq_of_beq same))
  | .int value, .int other, same => exact .inl (congrArg int (eq_of_beq same))
  | .symbol name, .symbol other, same => exact .inl (congrArg symbol (eq_of_beq same))
  | .builtin name, .builtin other, same => exact .inl (congrArg builtin (eq_of_beq same))
  | .pair id first second, .pair other head tail, same =>
    obtain rfl : id = other := eq_of_beq same
    exact .inr (.inl ⟨id, first, second, head, tail, rfl, rfl⟩)
  | .closure procedure, .closure callee, same =>
    exact .inr (.inr ⟨procedure, callee, rfl, rfl, eq_of_beq same⟩)

/-- Only objects are identical with objects. -/
theorem isObject_of_identical (same : value.identical other = true) :
    value.isObject = other.isObject := by
  rcases identical_cases same with rfl | ⟨_, _, _, _, _, rfl, rfl⟩ | ⟨_, _, rfl, rfl, _⟩ <;> rfl

/-- Atoms are identical with themselves only. -/
theorem eq_of_identical_atom (atom : value.isObject = false)
    (same : value.identical other = true) : value = other := by
  rcases identical_cases same with rfl | ⟨_, _, _, _, _, rfl, _⟩ | ⟨_, _, rfl, _, _⟩
  · rfl
  · cases atom
  · cases atom

/-- There is nothing in an atom but the atom. -/
theorem eq_of_isPart_atom {part : Value} (atom : value.isObject = false)
    (inside : IsPart part value) : part = value :=
  (isPart_atom_iff (isPair_of_isObject atom)).mp inside

end Value

/-- An evaluator between evaluations, or in the middle of one; and the values in the hand of
whoever uses it. -/
inductive Stage where
  | idle (hand : List Value) (heap : Heap)
  | busy (hand : List Value) (moment : Moment)

namespace Stage

/-- The values that were handed out. -/
def hand : Stage → List Value
  | idle hand _ | busy hand _ => hand

/-- The heap as it stands. -/
def heap : Stage → Heap
  | idle _ heap => heap
  | busy _ moment => moment.machine.heap

/-- The values that somebody has: whoever uses the evaluator, a scope, or an evaluation. -/
inductive Has (stage : Stage) : Value → Prop where
  | hand {value : Value} (among : value ∈ stage.hand) : Has stage value
  | bound {scope : ScopeId} {name : String} {value : Value}
      (among : (name, value) ∈ stage.heap.locals scope) : Has stage value
  | moment {hand : List Value} {moment : Moment} {value : Value}
      (evaluates : stage = busy hand moment) (has : moment.Has value) : Has stage value

/-- The values that somebody has, and their parts. -/
def Holds (stage : Stage) (part : Value) : Prop := ∃ whole, stage.Has whole ∧ IsPart part whole

/-- The start: nothing was done yet. -/
def initial : Stage := idle [] Heap.initial

/-- One stage follows another: by something that is done between evaluations, or by the start of
an evaluation, one step of it, or its end. -/
inductive Follows (config : Config) : Stage → Stage → Prop where
  | atom {hand : List Value} {heap : Heap} {value : Value} (is_atom : value.isObject = false) :
      Follows config (idle hand heap) (idle (value :: hand) heap)
  | lookup {hand : List Value} {heap : Heap} {scope : ScopeId} {name : String} {value : Value}
      (found : heap.lookup scope name = some value) :
      Follows config (idle hand heap) (idle (value :: hand) heap)
  | first {hand : List Value} {heap : Heap} {id : Nat} {first second : Value}
      (among : .pair id first second ∈ hand) :
      Follows config (idle hand heap) (idle (first :: hand) heap)
  | second {hand : List Value} {heap : Heap} {id : Nat} {first second : Value}
      (among : .pair id first second ∈ hand) :
      Follows config (idle hand heap) (idle (second :: hand) heap)
  | cons {hand : List Value} {heap : Heap} {first second : Value} (first_among : first ∈ hand)
      (second_among : second ∈ hand) :
      Follows config (idle hand heap)
        (idle (.pair heap.pairs first second :: hand) { heap with pairs := heap.pairs + 1 })
  | openScope {hand : List Value} {heap : Heap} {parent : Option ScopeId}
      (there : ∀ outer ∈ parent, outer < heap.scopes.size) :
      Follows config (idle hand heap) (idle hand (heap.newScope parent []).2)
  | insert {hand : List Value} {heap : Heap} {scope : ScopeId} {name : String} {value : Value}
      (among : value ∈ hand) :
      Follows config (idle hand heap) (idle hand (heap.insert scope name value))
  | assign {hand : List Value} {heap : Heap} {scope : ScopeId} {name : String} {value : Value}
      (among : value ∈ hand) :
      Follows config (idle hand heap) (idle hand (heap.assign scope name value).2)
  | begin {hand : List Value} {heap : Heap} {tree : Expr} :
      Follows config (idle hand heap) (busy hand (.first tree (.ofHeap heap)))
  | next {hand : List Value} {s t : Moment} (step : Moment.next config s = some t) :
      Follows config (busy hand s) (busy hand t)
  | value {hand : List Value} {value : Value} {machine : Machine} :
      Follows config (busy hand ⟨.give value, [], machine⟩) (idle (value :: hand) machine.heap)
  | failure {hand : List Value} {cause : Stop} {machine : Machine} :
      Follows config (busy hand ⟨.stop cause, [], machine⟩) (idle hand machine.heap)

/-- One stage leads to another: stages that follow one another go from the first to the second. -/
def Leads (config : Config) : Stage → Stage → Prop := Relation.ReflTransGen (Follows config)

/-- The stages to which the start leads. -/
def Reached (config : Config) (stage : Stage) : Prop := Leads config initial stage

/-- From one stage to the next, an execution of `cons`, of `list` or of a quote builds this pair, at
this place of its result. -/
inductive Builds : Stage → Stage → List Side → Value → Prop where
  | step {config : Config} {hand : List Value} {s t : Moment} {path : List Side} {pair : Value}
      (step : Moment.next config s = some t) (builds : s.Builds path pair) :
      Builds (busy hand s) (busy hand t) path pair
  | cons {hand : List Value} {heap : Heap} {first second : Value} :
      Builds (idle hand heap)
        (idle (.pair heap.pairs first second :: hand) { heap with pairs := heap.pairs + 1 })
        [] (.pair heap.pairs first second)

/-- At this stage, a `lambda` is evaluated and makes this closure. -/
inductive Closes : Stage → Closure → Prop where
  | step {hand : List Value} {s : Moment} {procedure : Closure} (closes : s.Closes procedure) :
      Closes (busy hand s) procedure

/-- From one stage to the next, this pair is built or this closure is made. -/
def Creates (stage after : Stage) (object : Value) : Prop :=
  (∃ path, stage.Builds after path object) ∨
    ∃ procedure, object = .closure procedure ∧ stage.Closes procedure

/-- All values that somebody has are good. -/
def All (good : Value → Prop) : Stage → Prop
  | idle hand heap => (∀ value ∈ hand, good value) ∧ heap.All good
  | busy hand moment => (∀ value ∈ hand, good value) ∧ moment.All good

section

variable {config : Config} {good : Value → Prop} {stage after : Stage} {part : Value}

/-- All values are good if each one that somebody has is. -/
theorem all_iff : stage.All good ↔ ∀ value, stage.Has value → good value := by
  cases stage with
  | idle hand heap =>
    constructor
    · rintro ⟨hand_good, bound_good⟩ value (among | among | ⟨⟨⟩⟩)
      · exact hand_good value among
      · exact bound_good _ _ among
    · intro each
      exact ⟨fun _ among => each _ (.hand among), fun _ _ among => each _ (.bound among)⟩
  | busy hand moment =>
    constructor
    · rintro ⟨hand_good, moment_good⟩ value (among | among | ⟨⟨⟩, has⟩)
      · exact hand_good value among
      · exact moment_good.heap _ _ among
      · exact Moment.all_iff.mp moment_good value has
    · intro each
      exact ⟨fun _ among => each _ (.hand among),
        Moment.all_iff.mpr fun _ has => each _ (.moment rfl has)⟩

/-- What is bound is held. -/
theorem Holds.of_find? {scope : ScopeId} {name : String} {value : Value}
    (found : (stage.heap.locals scope).find? name = some value) : stage.Holds value := by
  have all : (stage.heap.locals scope).All stage.Has := fun _ among => .bound among
  exact ⟨value, all.find? found, .refl value⟩

/-- What is held was held before, or it is an atom or was just made. -/
theorem holds_or_creates (follows : Follows config stage after) (holds : after.Holds part) :
    stage.Holds part ∨ part.isObject = false ∨ stage.Creates after part := by
  let good : Value → Prop := fun whole => ∀ part, IsPart part whole →
    stage.Holds part ∨ part.isObject = false ∨ stage.Creates after part
  have old : stage.All good :=
    all_iff.mpr fun whole has part inside => .inl ⟨whole, has, inside⟩
  have atom_good : ∀ value, value.isObject = false → good value := by
    intro value is_atom part inside
    obtain rfl := Value.eq_of_isPart_atom is_atom inside
    exact .inr (.inl is_atom)
  suffices all : after.All good by
    obtain ⟨whole, has, inside⟩ := holds
    exact all_iff.mp all whole has part inside
  cases follows with
  | atom is_atom => exact ⟨List.forall_mem_cons.mpr ⟨atom_good _ is_atom, old.1⟩, old.2⟩
  | lookup found => exact ⟨List.forall_mem_cons.mpr ⟨old.2.lookup found, old.1⟩, old.2⟩
  | first among =>
    have first_good : good _ := fun part inside =>
      old.1 _ among part (Value.isPart_pair_iff.mpr (.inr (.inl inside)))
    exact ⟨List.forall_mem_cons.mpr ⟨first_good, old.1⟩, old.2⟩
  | second among =>
    have second_good : good _ := fun part inside =>
      old.1 _ among part (Value.isPart_pair_iff.mpr (.inr (.inr inside)))
    exact ⟨List.forall_mem_cons.mpr ⟨second_good, old.1⟩, old.2⟩
  | cons first_among second_among =>
    refine ⟨List.forall_mem_cons.mpr ⟨fun part inside => ?_, old.1⟩, old.2.of_scopes rfl⟩
    rcases Value.isPart_pair_iff.mp inside with rfl | inside | inside
    · exact .inr (.inr (.inl ⟨[], .cons⟩))
    · exact old.1 _ first_among part inside
    · exact old.1 _ second_among part inside
  | openScope there => exact ⟨old.1, old.2.newScope (List.forall_mem_nil _)⟩
  | insert among => exact ⟨old.1, old.2.insert (old.1 _ among)⟩
  | assign among => exact ⟨old.1, old.2.assign (old.1 _ among)⟩
  | begin =>
    exact ⟨old.1, List.forall_mem_nil _, List.forall_mem_nil _, List.forall_mem_nil _, old.2⟩
  | @next hand s t step =>
    refine ⟨old.1, old.2.of_next ⟨atom_good, ?_, ?_⟩ step⟩
    · rintro make value last makes made part ⟨path, found⟩
      rcases Moment.part_of_makes makes made found with is_atom | ⟨whole, among, inside⟩ | builds
      · exact .inr (.inl is_atom)
      · exact .inl ⟨whole, .moment rfl (.task among), inside⟩
      · exact .inr (.inr (.inl ⟨path, .step step builds⟩))
    · intro procedure closes part inside
      obtain rfl := (Value.isPart_atom_iff rfl).mp inside
      exact .inr (.inr (.inr ⟨procedure, rfl, .step closes⟩))
  | value =>
    have value_good := List.forall_mem_singleton.mp old.2.task
    exact ⟨List.forall_mem_cons.mpr ⟨value_good, old.1⟩, old.2.heap⟩
  | failure => exact ⟨old.1, old.2.heap⟩

/-- Nobody holds a pair or a closure at the start. -/
theorem isObject_initial (holds : initial.Holds part) : part.isObject = false := by
  have all : initial.All fun whole => whole.isObject = false :=
    ⟨List.forall_mem_nil _, Heap.all_initial fun _ => rfl⟩
  obtain ⟨whole, has, inside⟩ := holds
  have is_atom := all_iff.mp all whole has
  obtain rfl := Value.eq_of_isPart_atom is_atom inside
  exact is_atom

/-- Stamps that were in use stay in use. -/
theorem counters_le_of_follows (follows : Follows config stage after) :
    stage.heap.pairs ≤ after.heap.pairs ∧
      stage.heap.names.size ≤ after.heap.names.size := by
  cases follows with
  | cons => exact ⟨Nat.le_succ _, Nat.le_refl _⟩
  | @assign hand heap scope name value among =>
    simp only [Stage.heap, Heap.assign]
    split <;> exact ⟨Nat.le_refl _, Nat.le_refl _⟩
  | next step => exact (Moment.alters_of_next step).counters_le
  | _ => exact ⟨Nat.le_refl _, Nat.le_refl _⟩

/-- A pair that is built carries a stamp that was free before and is not afterwards. -/
theorem Builds.stamp {id : Nat} {first second : Value} {path : List Side}
    (builds : stage.Builds after path (.pair id first second)) :
    stage.heap.pairs ≤ id ∧ id < after.heap.pairs := by
  cases builds with
  | step step builds => exact builds.stamp step
  | cons => exact ⟨Nat.le_refl _, Nat.lt_succ_self _⟩

/-- What is built is a pair. -/
theorem Builds.isPair {path : List Side} (builds : stage.Builds after path part) :
    part.isPair = true := by
  cases builds with
  | step step builds => exact builds.isPair
  | cons => rfl

/-- Two pairs that are built at once are one if they are identical. -/
theorem Builds.unique {path other : List Side} {twin : Value}
    (builds : stage.Builds after path part) (also : stage.Builds after other twin)
    (same : part.identical twin = true) : path = other ∧ part = twin := by
  cases builds with
  | step step builds =>
    cases also with
    | step _ also => exact builds.unique also same
  | cons =>
    cases also with
    | cons => exact ⟨rfl, rfl⟩

/-- A closure that is made carries a stamp that was free before and is not afterwards. -/
theorem Closes.stamp {procedure : Closure} (closes : stage.Closes procedure)
    (follows : Follows config stage after) :
    procedure.id = stage.heap.names.size ∧ after.heap.names.size = stage.heap.names.size + 1 := by
  obtain ⟨closes⟩ := closes
  cases closes with
  | lambda =>
    cases follows with
    | next step =>
      cases step
      exact ⟨rfl, Array.size_push ..⟩

/-- One closure at most is made at once. -/
theorem Closes.unique {procedure other : Closure} (closes : stage.Closes procedure)
    (also : stage.Closes other) : procedure = other := by
  obtain ⟨closes⟩ := closes
  obtain ⟨also⟩ := also
  cases closes
  cases also
  rfl

/-- The moments of an evaluation are stages. -/
theorem leads_of_reaches {s t : Moment} (hand : List Value)
    (reached : Reaches (Moment.next config) s t) : Leads config (busy hand s) (busy hand t) := by
  induction reached with
  | refl => exact .refl
  | tail _ step ih => exact ih.tail (.next step)

variable (config) in
/-- An evaluation that returns leads to a stage with the heap that it leaves, and with its value in
hand if it has one. -/
theorem leads_evalOn (budget : Nat) (tree : Expr) (hand : List Value) (heap : Heap)
    (returns : (evalOn config budget tree heap).1 ≠ .error .outOfBudget) :
    ∃ more, Leads config (idle hand heap) (idle (more ++ hand) (evalOn config budget tree heap).2) ∧
      ∀ value, (evalOn config budget tree heap).1 = .ok value → value ∈ more := by
  rcases Moment.eval_cases config budget tree (stack_ofHeap heap) with
    ⟨outcome, machine, reached, seen_eq⟩ | ⟨out, _⟩
  · have evaluated : evalOn config budget tree heap = (outcome.mapError .failed, machine.heap) :=
      seen_eq
    have started : Leads config (idle hand heap) (busy hand (.first tree (.ofHeap heap))) :=
      .single .begin
    have came := started.trans (leads_of_reaches hand reached)
    rw [evaluated]
    cases outcome with
    | ok value =>
      refine ⟨[value], came.tail .value, fun other same => ?_⟩
      cases same
      exact List.mem_cons_self
    | error error => exact ⟨[], came.tail .failure, by rintro other ⟨⟩⟩
  · exact absurd out returns

/-- What a reader hands out is evaluated along a session. -/
theorem leads_itemsOn {budget : Nat} (items : List (Except ReadError Expr)) :
    ∀ (last : Value) (hand : List Value) (heap : Heap),
      (itemsOn (evalOn config budget) last items heap).1 ≠ .error .outOfBudget →
      ∃ more, Leads config (idle hand heap)
          (idle (more ++ hand) (itemsOn (evalOn config budget) last items heap).2) ∧
        ∀ value, (itemsOn (evalOn config budget) last items heap).1 = .ok value →
          value = last ∨ value ∈ more := by
  induction items with
  | nil => exact fun last hand heap _ => ⟨[], .refl, fun value same => .inl (by cases same; rfl)⟩
  | cons item items ih =>
    intro last hand heap returns
    rcases item with error | raw
    · exact ⟨[], .refl, by rintro value ⟨⟩⟩
    rcases expanded : raw.expand with keyword | tree
    · simp only [itemsOn, expanded]
      exact ⟨[], .refl, by rintro value ⟨⟩⟩
    · have first := leads_evalOn config budget tree hand heap
      simp only [itemsOn, expanded] at returns ⊢
      rcases result : evalOn config budget tree heap with ⟨stop | value, after⟩
      · rw [result] at first
        simp only [result] at returns ⊢
        obtain ⟨more, came, -⟩ := first returns
        exact ⟨more, came, by rintro value ⟨⟩⟩
      · rw [result] at first
        simp only [result] at returns ⊢
        obtain ⟨more, came, among⟩ := first (by rintro ⟨⟩)
        obtain ⟨others, went, result_among⟩ := ih value (more ++ hand) after returns
        refine ⟨others ++ more, ?_, fun result same => .inr ?_⟩
        · rw [List.append_assoc]
          exact came.trans went
        · rw [List.mem_append]
          rcases result_among result same with rfl | listed
          · exact .inr (among _ rfl)
          · exact .inl listed

/-- A program text is evaluated along a session, which leads to the heap that it leaves, and its
value is in hand then unless it is the empty list. -/
theorem Reached.of_program {hand : List Value} {heap : Heap}
    (reached : Reached config (idle hand heap)) (budget : Nat) (comments : Bool) (text : String)
    (returns : (seen (evalProgram config budget comments text (.ofHeap heap))).1 ≠
      .error .outOfBudget) :
    ∃ more, Reached config (idle (more ++ hand)
        (seen (evalProgram config budget comments text (.ofHeap heap))).2) ∧
      ∀ value, (seen (evalProgram config budget comments text (.ofHeap heap))).1 = .ok value →
        value = .nil ∨ value ∈ more := by
  have seen_eq := (seen_evalItems config budget (Reader.ofString comments text).items .nil
    (.ofHeap heap) rfl).1
  have same : seen (evalProgram config budget comments text (.ofHeap heap)) =
      itemsOn (evalOn config budget) .nil (Reader.ofString comments text).items heap := seen_eq
  rw [same] at returns ⊢
  obtain ⟨more, came, among⟩ := leads_itemsOn _ .nil hand heap returns
  exact ⟨more, reached.trans came, among⟩

end

end Stage

/-- A session: stages that follow one another from the start on. -/
structure Session (config : Config) (count : Nat) (stages : Nat → Stage) : Prop where
  starts : stages 0 = .initial
  follows : ∀ i < count, (stages i).Follows config (stages (i + 1))

namespace Session

variable {config : Config} {count : Nat} {stages : Nat → Stage}

/-- Stamps that were in use stay in use. -/
theorem counters_le (session : Session config count stages) {i j : Nat} (earlier : i ≤ j)
    (inside : j ≤ count) : (stages i).heap.pairs ≤ (stages j).heap.pairs ∧
      (stages i).heap.names.size ≤ (stages j).heap.names.size := by
  induction j, earlier using Nat.le_induction with
  | base => exact ⟨Nat.le_refl _, Nat.le_refl _⟩
  | succ j _ ih =>
    obtain ⟨pairs_le, names_le⟩ := ih (Nat.le_of_succ_le inside)
    obtain ⟨pairs_step, names_step⟩ := Stage.counters_le_of_follows (session.follows j inside)
    exact ⟨pairs_le.trans pairs_step, names_le.trans names_step⟩

/-- Of two steps that take the same stamp, where stamps that were in use stay in use, neither comes
before the other. -/
theorem eq_of_stamp (counter : Stage → Nat) {i j id : Nat}
    (grows : ∀ i j, i ≤ j → j ≤ count → counter (stages i) ≤ counter (stages j))
    (inside : i < count) (also_inside : j < count)
    (taken : counter (stages i) ≤ id ∧ id < counter (stages (i + 1)))
    (also_taken : counter (stages j) ≤ id ∧ id < counter (stages (j + 1))) : i = j := by
  rcases Nat.lt_trichotomy i j with before | same | behind
  · have used := grows (i + 1) j before (Nat.le_of_lt also_inside)
    omega
  · exact same
  · have used := grows (j + 1) i behind (Nat.le_of_lt inside)
    omega

/-- The stages of a session can be reached. -/
theorem reached (session : Session config count stages) {i : Nat} (inside : i ≤ count) :
    (stages i).Reached config := by
  induction i with
  | zero =>
    rw [session.starts]
    exact .refl
  | succ i ih => exact (ih (Nat.le_of_succ_le inside)).tail (session.follows i inside)

/-- A stage that can be reached is the last one of a session. -/
theorem exists_of_reached {stage : Stage} (reached : stage.Reached config) :
    ∃ count stages, Session config count stages ∧ stages count = stage := by
  induction reached with
  | refl => exact ⟨0, fun _ => .initial, ⟨rfl, fun _ none => absurd none (Nat.not_lt_zero _)⟩, rfl⟩
  | @tail last after _ follows ih =>
    obtain ⟨count, stages, session, rfl⟩ := ih
    refine ⟨count + 1, fun i => if i ≤ count then stages i else after, ⟨?_, fun i inside => ?_⟩, ?_⟩
    · simpa using session.starts
    · rcases Nat.lt_or_eq_of_le (Nat.le_of_lt_succ inside) with before | rfl
      · have both : i ≤ count ∧ i + 1 ≤ count := ⟨Nat.le_of_lt before, before⟩
        simpa [both] using session.follows i before
      · simpa using follows
    · simp

section

variable (session : Session config count stages) {i j : Nat} {path other : List Side}
  {value pair twin : Value}

include session

/-- Identical pairs were built by one and the same execution, at the same place. -/
theorem builds_unique (inside : i < count) (also_inside : j < count)
    (builds : (stages i).Builds (stages (i + 1)) path pair)
    (also : (stages j).Builds (stages (j + 1)) other twin)
    (same : pair.identical twin = true) : i = j ∧ path = other ∧ pair = twin := by
  have same_step : i = j := by
    match pair, twin, builds.isPair, also.isPair with
    | .pair id first second, .pair _ head tail, _, _ =>
      obtain rfl := beq_iff_eq.mp same
      exact eq_of_stamp (fun stage => stage.heap.pairs)
        (fun _ _ earlier last => (session.counters_le earlier last).1) inside also_inside
        builds.stamp also.stamp
  subst same_step
  exact ⟨rfl, builds.unique also same⟩

/-- Identical closures were made by one and the same evaluation of a `lambda`. -/
theorem closes_unique {procedure callee : Closure} (inside : i < count) (also_inside : j < count)
    (closes : (stages i).Closes procedure) (also : (stages j).Closes callee)
    (same : procedure.id = callee.id) : i = j ∧ procedure = callee := by
  have taken := closes.stamp (session.follows i inside)
  have also_taken := also.stamp (session.follows j also_inside)
  have bounds : (stages i).heap.names.size ≤ procedure.id ∧
      procedure.id < (stages (i + 1)).heap.names.size := by omega
  have also_bounds : (stages j).heap.names.size ≤ procedure.id ∧
      procedure.id < (stages (j + 1)).heap.names.size := by omega
  have same_step : i = j := eq_of_stamp (fun stage => stage.heap.names.size)
    (fun _ _ earlier last => (session.counters_le earlier last).2) inside also_inside bounds
    also_bounds
  subst same_step
  exact ⟨rfl, closes.unique also⟩

/-- Identical objects were made by the same step, and are the same. -/
theorem creates_unique (inside : i < count) (also_inside : j < count)
    (creates : (stages i).Creates (stages (i + 1)) value)
    (also : (stages j).Creates (stages (j + 1)) twin)
    (same : value.identical twin = true) : i = j ∧ value = twin := by
  rcases creates with ⟨path, builds⟩ | ⟨procedure, rfl, closes⟩
  · rcases also with ⟨other, also⟩ | ⟨callee, rfl, also⟩
    · obtain ⟨same_step, -, same_pair⟩ :=
        session.builds_unique inside also_inside builds also same
      exact ⟨same_step, same_pair⟩
    · match value, builds.isPair with
      | .pair id first second, _ => cases same
  · rcases also with ⟨other, also⟩ | ⟨callee, rfl, also⟩
    · match twin, also.isPair with
      | .pair id first second, _ => cases same
    · obtain ⟨same_step, rfl⟩ :=
        session.closes_unique inside also_inside closes also (beq_iff_eq.mp same)
      exact ⟨same_step, rfl⟩

/-- Pairs and closures that are held were made before. -/
theorem origin (inside : i ≤ count) (holds : (stages i).Holds value)
    (object : value.isObject = true) :
    ∃ j < i, (stages j).Creates (stages (j + 1)) value := by
  induction i with
  | zero =>
    rw [session.starts] at holds
    rw [Stage.isObject_initial holds] at object
    cases object
  | succ i ih =>
    rcases Stage.holds_or_creates (session.follows i inside) holds with held | atom | creates
    · obtain ⟨j, before, creates⟩ := ih (Nat.le_of_succ_le inside) held
      exact ⟨j, Nat.lt_succ_of_lt before, creates⟩
    · rw [atom] at object
      cases object
    · exact ⟨i, Nat.lt_succ_self i, creates⟩

/-- Whatever is held at any time and looks identical is the same. -/
theorem eq_of_identical (inside : i ≤ count) (also_inside : j ≤ count)
    (holds : (stages i).Holds value) (also : (stages j).Holds twin)
    (same : value.identical twin = true) : value = twin := by
  by_cases object : value.isObject = true
  · have twin_object : twin.isObject = true := Value.isObject_of_identical same ▸ object
    obtain ⟨k, before, creates⟩ := session.origin inside holds object
    obtain ⟨l, also_before, also_creates⟩ := session.origin also_inside also twin_object
    exact (session.creates_unique (by omega) (by omega) creates also_creates same).2
  · exact Value.eq_of_identical_atom (Bool.eq_false_iff.mpr object) same

end

end Session

end TailScheme
