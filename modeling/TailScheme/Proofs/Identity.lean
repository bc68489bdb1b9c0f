import TailScheme.Proofs.Conveyance

/-!
# The identity of pairs

Every pair that anybody holds in a session was built by one execution of `cons`, of `list` or of a
quote, at one place of its result, and no other pair is ever identical with it. Nothing copies a
pair: a binding gives the very pair that was bound until the name is written again
(`Session.find?_lasts`), and what is handed over is handed over as it is (`Session.conveys`).
-/
namespace TailScheme

open Value (Side)

namespace Session

variable {config : Config} {count : Nat} {stages : Nat → Stage}

section

variable (session : Session config count stages) {i j : Nat} {path other : List Side}
  {value pair twin : Value} {scope : ScopeId} {name : String}

include session

/-- Pairs that were built by different executions, or at different places, are not identical. -/
theorem identical_of_builds (inside : i < count) (also_inside : j < count)
    (builds : (stages i).Builds (stages (i + 1)) path pair)
    (also : (stages j).Builds (stages (j + 1)) other twin) (different : (i, path) ≠ (j, other)) :
    pair.identical twin = false := by
  refine Bool.eq_false_iff.mpr fun same => different ?_
  obtain ⟨rfl, rfl, -⟩ := session.builds_unique inside also_inside builds also same
  rfl

/-- Nothing that was held before is identical with a pair that is built. -/
theorem identical_of_earlier (inside : i < count) (earlier : j ≤ i)
    (builds : (stages i).Builds (stages (i + 1)) path pair) (holds : (stages j).Holds value) :
    pair.identical value = false := by
  refine Bool.eq_false_iff.mpr fun same => ?_
  have object : value.isObject = true := by
    match pair, builds.isPair with
    | .pair id first second, _ => exact (Value.isObject_of_identical same).symm
  obtain ⟨k, before, creates⟩ := session.origin (by omega) holds object
  have same_step := (session.creates_unique inside (by omega) (.inl ⟨path, builds⟩) creates same).1
  omega

/-- Every pair that is held was built before. -/
theorem built_before (inside : j ≤ count) (holds : (stages j).Holds pair)
    (is_pair : pair.isPair = true) :
    ∃ i < j, ∃ path, (stages i).Builds (stages (i + 1)) path pair := by
  match pair, is_pair with
  | .pair id first second, _ =>
    obtain ⟨i, before, ⟨path, builds⟩ | ⟨procedure, ⟨⟩, _⟩⟩ := session.origin inside holds rfl
    exact ⟨i, before, path, builds⟩

/-- Values that are held, at whatever times, are identical if and only if they are the same. -/
theorem identical_iff (inside : i ≤ count) (also_inside : j ≤ count)
    (holds : (stages i).Holds value) (also : (stages j).Holds twin) :
    value.identical twin = true ↔ value = twin := by
  constructor
  · exact session.eq_of_identical inside also_inside holds also
  · rintro rfl
    exact Value.identical_refl value

/-- A binding lasts until the same name is written in the same scope. -/
theorem find?_lasts (earlier : i ≤ j) (inside : j ≤ count)
    (found : ((stages i).heap.locals scope).find? name = some value) :
    ((stages j).heap.locals scope).find? name = some value ∨
      ∃ k, i ≤ k ∧ k < j ∧ ∃ other, (stages k).Writes (stages (k + 1)) scope name other := by
  induction j, earlier using Nat.le_induction with
  | base => exact .inl found
  | succ j before ih =>
    rcases ih (Nat.le_of_succ_le inside) with lasts | ⟨k, after, earlier, written⟩
    · rcases Stage.find?_of_follows (session.follows j inside) lasts with lasts | written
      · exact .inl lasts
      · exact .inr ⟨j, before, Nat.lt_succ_self j, written⟩
    · exact .inr ⟨k, after, Nat.lt_succ_of_lt earlier, written⟩

/-- Evaluations convey values as they are. -/
theorem conveys (inside : i ≤ count) {hand : List Value} {s : Moment}
    (evaluates : stages i = .busy hand s) : s.Conveys config := by
  have rooted := (session.reached inside).rooted
  rw [evaluates] at rooted
  refine s.conveys config rooted.forest fun call enters => ?_
  refine rooted.captured call.callee ⟨_, .moment rfl (.task ?_), .refl _⟩
  rw [enters]
  exact List.mem_cons_self

end

end Session

/-- Pairs have faithful and fresh identity, in every session. Pairs that different executions of
`cons`, of `list` and of quotes built, or one execution at different places, are never `eq?`, nor
is a new pair `eq?` to anything that was held before. Every pair that is held was built by such an
execution, and whatever is held at any two times is `eq?` exactly if it is the same value. Bindings
give the value that was written until the name is written again; arguments, captured variables and
results, through any number of deferred calls, are handed over as they are; and what `cons` and
`list` put into pairs is what `car` and `cdr` take out. -/
theorem pairs_have_identity {config : Config} {count : Nat} {stages : Nat → Stage}
    (session : Session config count stages) :
    (∀ i < count, ∀ j < count, ∀ path other pair twin,
      (stages i).Builds (stages (i + 1)) path pair →
      (stages j).Builds (stages (j + 1)) other twin →
      (i, path) ≠ (j, other) → pair.identical twin = false) ∧
    (∀ i < count, ∀ j ≤ i, ∀ path pair value, (stages i).Builds (stages (i + 1)) path pair →
      (stages j).Holds value → pair.identical value = false) ∧
    (∀ j ≤ count, ∀ pair, (stages j).Holds pair → pair.isPair = true →
      ∃ i < j, ∃ path, (stages i).Builds (stages (i + 1)) path pair) ∧
    (∀ i ≤ count, ∀ j ≤ count, ∀ value other, (stages i).Holds value → (stages j).Holds other →
      (value.identical other = true ↔ value = other)) ∧
    (∀ i < count, ∀ scope name value, (stages i).Writes (stages (i + 1)) scope name value →
      ((stages (i + 1)).heap.locals scope).find? name = some value) ∧
    (∀ j ≤ count, ∀ i ≤ j, ∀ scope name value,
      ((stages i).heap.locals scope).find? name = some value →
      ((stages j).heap.locals scope).find? name = some value ∨
        ∃ k, i ≤ k ∧ k < j ∧ ∃ other, (stages k).Writes (stages (k + 1)) scope name other) ∧
    (∀ i ≤ count, ∀ hand s, stages i = .busy hand s → s.Conveys config) ∧
    Builtin.TakesOut config := by
  refine ⟨?_, ?_, ?_, ?_, ?_, ?_, ?_, Builtin.takesOut config⟩
  · exact fun i inside j also_inside _ _ _ _ => session.identical_of_builds inside also_inside
  · exact fun i inside j earlier _ _ _ => session.identical_of_earlier inside earlier
  · exact fun j inside _ => session.built_before inside
  · exact fun i inside j also_inside _ _ => session.identical_iff inside also_inside
  · intro i inside scope name value
    have rooted := (session.reached (Nat.le_of_lt inside)).rooted
    exact Stage.find?_of_writes rooted (session.follows i inside)
  · exact fun j inside i earlier _ _ _ => session.find?_lasts earlier inside
  · exact fun i inside _ _ => session.conveys inside

/-- Calls one procedure with no parameters twice, and a procedure `p` `q` with the two results. -/
def twoCalls : Expr :=
  .list [.lambda ["f"] [.list [.lambda ["p", "q"] [.ident "p"], .list [.ident "f"],
    .list [.ident "f"]]], .lambda [] [.quote (.list [.ident "a"])]]

/-- A procedure that evaluates one quote is called twice, and the results are the arguments of a
deferred call. They look alike, but each pair was built by an execution of its own, and they are not
identical. -/
theorem pairs_have_identity_of_two_calls :
    ∃ count stages hand p q, Session ⟨true, 200⟩ count stages ∧
      stages count = .idle hand (evalOn ⟨true, 200⟩ 1 twoCalls Heap.initial).2 ∧
      ((stages count).heap.locals 4).find? "p" = some p ∧
      ((stages count).heap.locals 4).find? "q" = some q ∧ p ∈ hand ∧
      (∃ i < count, ∃ path, (stages i).Builds (stages (i + 1)) path p) ∧
      (∃ j < count, ∃ path, (stages j).Builds (stages (j + 1)) path q) ∧
      p.equal q = true ∧ p.identical q = false := by
  have returned : (evalOn ⟨true, 200⟩ 1 twoCalls Heap.initial).1 =
      .ok (.pair 0 (.symbol "a") .nil) := by decide +kernel
  have p_found : ((evalOn ⟨true, 200⟩ 1 twoCalls Heap.initial).2.locals 4).find? "p" =
      some (.pair 0 (.symbol "a") .nil) := by decide +kernel
  have q_found : ((evalOn ⟨true, 200⟩ 1 twoCalls Heap.initial).2.locals 4).find? "q" =
      some (.pair 1 (.symbol "a") .nil) := by decide +kernel
  obtain ⟨hand, reached, among⟩ := Stage.leads_evalOn ⟨true, 200⟩ 1 twoCalls [] Heap.initial
    (by rw [returned]; rintro ⟨⟩)
  obtain ⟨count, stages, session, last⟩ := Session.exists_of_reached reached
  have p_bound : ((stages count).heap.locals 4).find? "p" = some (.pair 0 (.symbol "a") .nil) :=
    last ▸ p_found
  have q_bound : ((stages count).heap.locals 4).find? "q" = some (.pair 1 (.symbol "a") .nil) :=
    last ▸ q_found
  have p_held := Stage.Holds.of_find? p_bound
  have q_held := Stage.Holds.of_find? q_bound
  obtain ⟨-, -, built, identical_iff, -⟩ := pairs_have_identity session
  have apart :
      Value.identical (.pair 0 (.symbol "a") .nil) (.pair 1 (.symbol "a") .nil) = false := by
    refine Bool.eq_false_iff.mpr fun same => ?_
    cases (identical_iff count (Nat.le_refl _) count (Nat.le_refl _) _ _ p_held q_held).mp same
  exact ⟨count, stages, hand ++ [], _, _, session, last, p_bound, q_bound,
    List.mem_append_left _ (among _ returned), built count (Nat.le_refl _) _ p_held rfl,
    built count (Nat.le_refl _) _ q_held rfl, by decide +kernel, apart⟩

end TailScheme
