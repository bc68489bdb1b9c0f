import TailScheme.Proofs.Course
import Mathlib.Order.Filter.AtTopBot.Basic

/-!
# Histories

A program is a list of sources that are run one after the other, each on the heap that the ones
before have left. An evaluation starts and ends with no procedure running, so the heap is all that
passes from one to the next: what programs come to is determined by what each tree comes to on a
heap (`history_eq`). Whatever two ways of evaluation agree on for trees, they agree on for whole
histories (`eventually_historyOn`).
-/
namespace TailScheme

open StateTransition Filter

/-- The machine at the end of an evaluation. -/
def left {α : Type} : EStateM.Result Stop Machine α → Machine
  | .ok _ machine => machine
  | .error _ machine => machine

/-- What the evaluation of a tree on a heap comes to. -/
def evalOn (config : Config) (budget : Nat) (e : Expr) (heap : Heap) :
    Except Stop Value × Heap :=
  seen (eval config budget e (.ofHeap heap))

/-- What is seen of a run of sources, each of which may use comments or not: after each of them
the value or the failure, and the heap. -/
def history (config : Config) (budget : Nat) :
    List (Bool × String) → Machine → List (Except Stop Value × Heap)
  | [], _ => []
  | (comments, text) :: sources, machine =>
    seen (evalProgram config budget comments text machine) ::
      history config budget sources (left (evalProgram config budget comments text machine))

section

variable (config : Config) (budget : Nat) {machine : Machine}

/-- What is left of an evaluation is what is seen of it. -/
theorem snd_seen (result : EStateM.Result Stop Machine Value) :
    (seen result).2 = (left result).heap := by
  cases result <;> rfl

/-- The heap is all that an evaluation is given if no procedure is running. -/
theorem begin_of_rest (rest : machine.stack = .empty) :
    machine.begin = (Machine.ofHeap machine.heap).begin := by
  simp [Machine.begin, Machine.ofHeap, Machine.depth, rest]

/-- What is seen of an evaluation is what it comes to on the heap. -/
theorem seen_eval (e : Expr) (rest : machine.stack = .empty) :
    seen (eval config budget e machine) = evalOn config budget e machine.heap := by
  unfold evalOn eval
  rw [begin_of_rest rest]

/-- An evaluation leaves no procedure running. -/
theorem stack_left_eval (e : Expr) (rest : machine.stack = .empty) :
    (left (eval config budget e machine)).stack = .empty := by
  have leads := Moment.leads_first config budget e rest
  unfold eval
  match evaluate config.tailCalls (invoke config budget config.maxDepth) e Heap.root
      machine.begin, leads with
  | .ok value after, reached =>
    have sound := (Moment.sound_first e rest).of_reaches reached
    exact Stack.eq_empty_of_depth sound.depth_eq
  | .error stop after, _ => rfl

end

/-- What reading and evaluating comes to, up to the first failure, where `step` tells what each
tree comes to on a heap. -/
def itemsOn (step : Expr → Heap → Except Stop Value × Heap) (last : Value) :
    List (Except ReadError Expr) → Heap → Except Stop Value × Heap
  | [], heap => (.ok last, heap)
  | .error error :: _, heap => (.error (.failed (.read error)), heap)
  | .ok raw :: items, heap =>
    match raw.expand with
    | .error keyword => (.error (.failed (.malformed keyword)), heap)
    | .ok e =>
      match step e heap with
      | (.ok value, after) => itemsOn step value items after
      | (.error stop, after) => (.error stop, after)

/-- What sources come to, one after the other, where `step` tells what each tree comes to on a
heap. -/
def historyOn (step : Expr → Heap → Except Stop Value × Heap) :
    List (Bool × String) → Heap → List (Except Stop Value × Heap)
  | [], _ => []
  | (comments, text) :: sources, heap =>
    let result := itemsOn step .nil (Reader.ofString comments text).items heap
    result :: historyOn step sources result.2

section

variable (config : Config) (budget : Nat)

/-- Reading and evaluating comes to what the trees come to on the heap, and leaves no procedure
running. -/
theorem seen_evalItems (items : List (Except ReadError Expr)) :
    ∀ (last : Value) (machine : Machine), machine.stack = .empty →
      seen (evalItems config budget last items machine) =
        itemsOn (evalOn config budget) last items machine.heap ∧
      (left (evalItems config budget last items machine)).stack = .empty := by
  induction items with
  | nil => exact fun last machine rest => ⟨rfl, rest⟩
  | cons item items ih =>
    intro last machine rest
    rcases item with error | raw
    · exact ⟨rfl, rest⟩
    rcases expanded : raw.expand with keyword | e
    · have failed : evalItems config budget last (.ok raw :: items) machine =
          .error (.failed (.malformed keyword)) machine := by
        change EStateM.bind (evalDatum config budget raw) _ machine = _
        simp only [EStateM.bind, evalDatum, expanded, Run.fail]
      rw [failed]
      simp only [itemsOn, expanded]
      exact ⟨rfl, rest⟩
    · have evaluated : evalItems config budget last (.ok raw :: items) machine =
          EStateM.bind (eval config budget e) (fun value => evalItems config budget value items)
            machine := by
        change EStateM.bind (evalDatum config budget raw) _ machine = _
        simp only [EStateM.bind, evalDatum, expanded]
      have seen_first := seen_eval config budget e rest
      have left_first := stack_left_eval config budget e rest
      rw [evaluated, EStateM.bind]
      rcases outcome : eval config budget e machine with ⟨value, after⟩ | ⟨stop, after⟩
      · rw [outcome] at seen_first left_first
        simp only [itemsOn, expanded, ← seen_first]
        exact ih value after left_first
      · rw [outcome] at seen_first left_first
        simp only [itemsOn, expanded, ← seen_first]
        exact ⟨rfl, left_first⟩

/-- A history is what its sources come to on the heap. -/
theorem history_eq (sources : List (Bool × String)) :
    ∀ machine : Machine, machine.stack = .empty →
      history config budget sources machine =
        historyOn (evalOn config budget) sources machine.heap := by
  induction sources with
  | nil => exact fun _ _ => rfl
  | cons source sources ih =>
    intro machine rest
    obtain ⟨comments, text⟩ := source
    obtain ⟨seen_first, left_first⟩ := seen_evalItems config budget
      (Reader.ofString comments text).items .nil machine rest
    have later := ih _ left_first
    rw [← snd_seen, seen_first] at later
    simp only [history, historyOn, evalProgram, seen_first, later]

end

/-- If every tree comes to a value or a failure, then so does all that a reader hands out. -/
theorem itemsOn_ends {step : Expr → Heap → Except Stop Value × Heap}
    (ends : ∀ e heap, ∃ outcome : Except Error Value, (step e heap).1 = outcome.mapError .failed)
    (items : List (Except ReadError Expr)) :
    ∀ (last : Value) (heap : Heap), ∃ outcome : Except Error Value,
      (itemsOn step last items heap).1 = outcome.mapError .failed := by
  induction items with
  | nil => exact fun last _ => ⟨.ok last, rfl⟩
  | cons item items ih =>
    intro last heap
    rcases item with error | raw
    · exact ⟨.error (.read error), rfl⟩
    rcases expanded : raw.expand with keyword | e
    · refine ⟨.error (.malformed keyword), ?_⟩
      simp only [itemsOn, expanded, Except.mapError]
    · have tree_ends := ends e heap
      rcases result : step e heap with ⟨stop | value, after⟩
      · simpa only [itemsOn, expanded, result] using tree_ends
      · simpa only [itemsOn, expanded, result] using ih value after

/-- If every tree comes to a value or a failure, then so do all sources. -/
theorem historyOn_ends {step : Expr → Heap → Except Stop Value × Heap}
    (ends : ∀ e heap, ∃ outcome : Except Error Value, (step e heap).1 = outcome.mapError .failed)
    (sources : List (Bool × String)) :
    ∀ heap : Heap, ∀ result ∈ historyOn step sources heap,
      ∃ outcome : Except Error Value, result.1 = outcome.mapError .failed := by
  induction sources with
  | nil => simp [historyOn]
  | cons source sources ih =>
    intro heap
    obtain ⟨comments, text⟩ := source
    simp only [historyOn, List.forall_mem_cons]
    exact ⟨itemsOn_ends ends _ _ _, ih _⟩

/-- If another way of evaluation comes to agree with the first on all trees, it comes to agree with
it on what a reader hands out. Only good ends are asked of the first. -/
theorem eventually_itemsOn {ι : Type} {eventually : Filter ι}
    {step : Expr → Heap → Except Stop Value × Heap}
    {other : ι → Expr → Heap → Except Stop Value × Heap} (Good : Except Stop Value → Prop)
    (values : ∀ value, Good (.ok value))
    (agree : ∀ e heap, Good (step e heap).1 →
      ∀ᶠ i in eventually, other i e heap = step e heap)
    (items : List (Except ReadError Expr)) :
    ∀ (last : Value) (heap : Heap), Good (itemsOn step last items heap).1 →
      ∀ᶠ i in eventually, itemsOn (other i) last items heap = itemsOn step last items heap := by
  induction items with
  | nil => exact fun _ _ _ => .of_forall fun _ => rfl
  | cons item items ih =>
    intro last heap good
    rcases item with error | raw
    · exact .of_forall fun _ => rfl
    rcases expanded : raw.expand with keyword | e
    · refine .of_forall fun i => ?_
      simp only [itemsOn, expanded]
    · rcases result : step e heap with ⟨stop | value, after⟩
      · simp only [itemsOn, expanded, result] at good ⊢
        have agrees := agree e heap (by rw [result]; exact good)
        filter_upwards [agrees] with i same
        simp only [same, result]
      · simp only [itemsOn, expanded, result] at good ⊢
        have agrees := agree e heap (by rw [result]; exact values value)
        filter_upwards [agrees, ih value after good] with i same later
        simp only [same, result, later]

/-- If another way of evaluation comes to agree with the first on all trees, it comes to agree with
it on histories. -/
theorem eventually_historyOn {ι : Type} {eventually : Filter ι}
    {step : Expr → Heap → Except Stop Value × Heap}
    {other : ι → Expr → Heap → Except Stop Value × Heap} (Good : Except Stop Value → Prop)
    (values : ∀ value, Good (.ok value))
    (agree : ∀ e heap, Good (step e heap).1 →
      ∀ᶠ i in eventually, other i e heap = step e heap)
    (sources : List (Bool × String)) :
    ∀ heap : Heap, (∀ result ∈ historyOn step sources heap, Good result.1) →
      ∀ᶠ i in eventually, historyOn (other i) sources heap = historyOn step sources heap := by
  induction sources with
  | nil => exact fun _ _ => .of_forall fun _ => rfl
  | cons source sources ih =>
    intro heap good
    obtain ⟨comments, text⟩ := source
    simp only [historyOn, List.forall_mem_cons] at good ⊢
    have first_agrees := eventually_itemsOn Good values agree
      (Reader.ofString comments text).items .nil heap good.1
    filter_upwards [first_agrees, ih _ good.2] with i first later
    rw [first, later]

end TailScheme
