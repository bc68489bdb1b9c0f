import TailScheme.Proofs.Sessions

/-!
# Identical and equal values

`equal?` takes pairs with the same stamp for equal without a look at what is in them. That is sound
where no stamp stands for two different contents, as it is for all values that are held at one time
(`Stage.Reached.coherent`). There the shortcut changes nothing: `equal` is the comparison that looks
at everything (`Value.Coherent.equal_eq`), which is an equivalence on all values.
-/
namespace TailScheme

open Value (IsPart)

namespace Value

/-- The comparison that looks at everything: pairs are compared by their components, and all other
values by identity. -/
def structural : Value → Value → Bool
  | .pair _ first second, .pair _ head tail => first.structural head && second.structural tail
  | value, other => value.identical other

/-- The components of the values are among them, and those that look identical are the same. -/
structure Coherent (held : Value → Prop) : Prop where
  parts : ∀ {id first second}, held (.pair id first second) → held first ∧ held second
  unique : ∀ {value other}, held value → held other → value.identical other = true → value = other

section

variable {value middle other : Value}

/-- Every value is identical with itself. -/
theorem identical_refl (value : Value) : value.identical value = true := by
  cases value <;> simp [identical]

/-- Identity goes both ways. -/
theorem identical_symm (same : value.identical other = true) : other.identical value = true := by
  rcases identical_cases same with rfl | ⟨id, _, _, _, _, rfl, rfl⟩ | ⟨_, _, rfl, rfl, same_stamp⟩
  · exact same
  · exact beq_self_eq_true id
  · exact beq_iff_eq.mpr same_stamp.symm

/-- It does not matter which of two values is compared with the other one. -/
theorem identical_comm (value other : Value) : value.identical other = other.identical value :=
  Bool.eq_iff_iff.mpr ⟨identical_symm, identical_symm⟩

/-- What is identical with the same is identical. -/
theorem identical_trans (first : value.identical middle = true)
    (second : middle.identical other = true) : value.identical other = true := by
  rcases identical_cases first with rfl | ⟨id, _, _, _, _, rfl, rfl⟩ |
    ⟨procedure, callee, rfl, rfl, same_stamp⟩
  · exact second
  · cases other <;> exact second
  · cases other with
    | closure next => exact beq_iff_eq.mpr (same_stamp.trans (beq_iff_eq.mp second))
    | _ => cases second

/-- Identical values are of one kind. -/
theorem kind_of_identical (same : value.identical other = true) : value.kind = other.kind := by
  rcases identical_cases same with rfl | ⟨_, _, _, _, _, rfl, rfl⟩ | ⟨_, _, rfl, rfl, _⟩ <;> rfl

/-- Unless both are pairs, the comparison that looks at everything is that of identity. -/
theorem structural_of_atom (atom : ¬(value.isPair = true ∧ other.isPair = true)) :
    value.structural other = value.identical other := by
  cases value with
  | pair id first second =>
    cases other with
    | pair stamp head tail => exact absurd ⟨rfl, rfl⟩ atom
    | _ => rfl
  | _ => rfl

/-- Unless both are pairs, values are equal if they are identical. -/
theorem equal_of_atom (atom : ¬(value.isPair = true ∧ other.isPair = true)) :
    value.equal other = value.identical other := by
  cases value with
  | pair id first second =>
    cases other with
    | pair stamp head tail => exact absurd ⟨rfl, rfl⟩ atom
    | _ => rfl
  | _ => rfl

/-- Every value looks like itself. -/
theorem structural_refl (value : Value) : value.structural value = true := by
  induction value with
  | pair id first second first_ih second_ih => simp [structural, first_ih, second_ih]
  | _ => exact identical_refl _

/-- Looking alike goes both ways. -/
theorem structural_comm (value other : Value) :
    value.structural other = other.structural value := by
  induction value generalizing other with
  | pair id first second first_ih second_ih =>
    cases other with
    | pair id head tail => simp [structural, first_ih head, second_ih tail]
    | _ => rfl
  | _ =>
    rw [structural_of_atom (by simp [isPair]), structural_of_atom (by simp [isPair]),
      identical_comm]

/-- What looks like the same looks alike. -/
theorem structural_trans (first : value.structural middle = true)
    (second : middle.structural other = true) : value.structural other = true := by
  induction value generalizing middle other with
  | pair id head tail head_ih tail_ih =>
    cases middle with
    | pair id head' tail' =>
      cases other with
      | pair id head'' tail'' =>
        simp only [structural, Bool.and_eq_true] at first second ⊢
        exact ⟨head_ih first.1 second.1, tail_ih first.2 second.2⟩
      | _ => cases second
    | _ => cases first
  | _ =>
    have no_pair : middle.isPair = false := by
      cases middle with
      | pair id head tail => cases first
      | _ => rfl
    rw [structural_of_atom (by simp [isPair])] at first ⊢
    rw [structural_of_atom (by simp [no_pair])] at second
    exact identical_trans first second

/-- Identical values are equal. -/
theorem equal_of_identical (same : value.identical other = true) : value.equal other = true := by
  by_cases pairs : value.isPair = true ∧ other.isPair = true
  · match value, other, pairs with
    | .pair id first second, .pair other head tail, _ =>
      have same_stamp : (id == other) = true := same
      simp only [equal, if_pos same_stamp]
  · rwa [equal_of_atom pairs]

variable {held : Value → Prop}

/-- Of coherent values, equal ones are those that look alike. -/
theorem Coherent.equal_eq (coherent : Coherent held) (is_held : held value)
    (also_held : held other) : value.equal other = value.structural other := by
  induction value generalizing other with
  | pair id first second first_ih second_ih =>
    cases other with
    | pair stamp head tail =>
      by_cases same : id == stamp
      · -- The shortcut is taken: the two pairs are one, so a look at everything agrees.
        rw [coherent.unique is_held also_held same, structural_refl, equal_of_identical]
        exact identical_refl _
      · obtain ⟨first_held, second_held⟩ := coherent.parts is_held
        obtain ⟨head_held, tail_held⟩ := coherent.parts also_held
        rw [equal, if_neg same, structural, first_ih first_held head_held,
          second_ih second_held tail_held]
        cases first.structural head <;> rfl
    | _ => rfl
  | _ => rw [equal_of_atom (by simp [isPair]), structural_of_atom (by simp [isPair])]

end

/-- How values compare that are held together: `identical` and `equal` are equivalences, the first
one within the second; pairs are equal if their components are, and other values if they are
identical. -/
structure ComparesRight (held : Value → Prop) : Prop where
  identical : Equivalence fun value other : { value // held value } =>
    value.1.identical other.1 = true
  equal : Equivalence fun value other : { value // held value } =>
    value.1.equal other.1 = true
  equal_of_identical : ∀ value other, held value → held other →
    value.identical other = true → value.equal other = true
  equal_eq : ∀ value other, held value → held other →
    value.equal other = value.structural other
  equal_pair_iff : ∀ id first second stamp head tail, held (.pair id first second) →
    held (.pair stamp head tail) →
    ((pair id first second).equal (.pair stamp head tail) = true ↔
      first.equal head = true ∧ second.equal tail = true)
  equal_atom : ∀ value other, held value → held other →
    ¬(value.isPair = true ∧ other.isPair = true) → value.equal other = value.identical other
  closures : ∀ procedure callee, held (.closure procedure) → held (.closure callee) →
    ((closure procedure).identical (.closure callee) = true ↔ procedure = callee)
  builtins : ∀ procedure other : Builtin,
    (builtin procedure).identical (.builtin other) = true ↔ procedure.name = other.name
  procedures : ∀ procedure callee, (builtin procedure).identical (.closure callee) = false
  kinds : ∀ value other, held value → held other → value.kind ≠ other.kind →
    value.identical other = false ∧ value.equal other = false

/-- Coherent values compare right. -/
theorem Coherent.comparesRight {held : Value → Prop} (coherent : Coherent held) :
    ComparesRight held where
  identical := ⟨fun value => identical_refl _, identical_symm, identical_trans⟩
  equal := by
    have equal_eq : ∀ value other : { value // held value },
        value.1.equal other.1 = value.1.structural other.1 :=
      fun value other => coherent.equal_eq value.2 other.2
    simp only [equal_eq]
    refine ⟨fun value => structural_refl _, fun same => ?_, structural_trans⟩
    rwa [structural_comm]
  equal_of_identical _ _ _ _ := equal_of_identical
  equal_eq _ _ := coherent.equal_eq
  equal_pair_iff id first second stamp head tail is_held also_held := by
    obtain ⟨first_held, second_held⟩ := coherent.parts is_held
    obtain ⟨head_held, tail_held⟩ := coherent.parts also_held
    rw [coherent.equal_eq is_held also_held, coherent.equal_eq first_held head_held,
      coherent.equal_eq second_held tail_held, structural, Bool.and_eq_true]
  equal_atom _ _ _ _ := equal_of_atom
  closures procedure callee is_held also_held := by
    constructor
    · exact fun same => closure.inj (coherent.unique is_held also_held same)
    · rintro rfl
      exact identical_refl _
  builtins procedure other := by
    constructor
    · intro same
      rw [eq_of_beq same]
    · intro same_name
      have found := Builtin.ofName?_name procedure
      rw [same_name, Builtin.ofName?_name other, Option.some.injEq] at found
      rw [found]
      exact identical_refl _
  procedures _ _ := rfl
  kinds value other is_held also_held different := by
    have apart : value.identical other = false :=
      Bool.eq_false_iff.mpr fun same => different (kind_of_identical same)
    have not_pairs : ¬(value.isPair = true ∧ other.isPair = true) := by
      rintro ⟨is_pair, also_pair⟩
      apply different
      match value, other, is_pair, also_pair with
      | .pair _ _ _, .pair _ _ _, _, _ => rfl
    exact ⟨apart, (equal_of_atom not_pairs).trans apart⟩

end Value

namespace Stage

variable {config : Config} {stage : Stage}

/-- The values that are held at a stage are coherent. -/
theorem Reached.coherent (reached : stage.Reached config) : Value.Coherent stage.Holds where
  parts := by
    rintro id first second ⟨whole, has, inside⟩
    exact ⟨⟨whole, has, (Value.isPart_first id first second).trans inside⟩,
      ⟨whole, has, (Value.isPart_second id first second).trans inside⟩⟩
  unique is_held also_held same := by
    obtain ⟨count, stages, session, rfl⟩ := Session.exists_of_reached reached
    exact session.eq_of_identical (Nat.le_refl _) (Nat.le_refl _) is_held also_held same

end Stage

/-- `eq?` and `equal?` are the right relations between the values that are held at any stage: they
are equivalences, `eq?` within `equal?`, and `equal?` is the comparison that looks at everything.
The builtins answer by them. -/
theorem eq_and_equal_are_right {config : Config} {stage : Stage}
    (reached : stage.Reached config) :
    Value.ComparesRight stage.Holds ∧
    ∀ place tail value other pending machine,
      Moment.next config
          ⟨.apply place tail (.builtin .identical) [value, other], pending, machine⟩ =
        some ⟨.give (.bool (value.identical other)), pending, machine⟩ ∧
      Moment.next config
          ⟨.apply place tail (.builtin .equal) [value, other], pending, machine⟩ =
        some ⟨.give (.bool (value.equal other)), pending, machine⟩ :=
  ⟨reached.coherent.comparesRight, fun _ _ _ _ _ _ => ⟨rfl, rfl⟩⟩

/-- A list that was quoted, and a pair that was made of its components: they are not identical, but
they share all that is in them and are equal, both ways. -/
theorem eq_and_equal_are_right_of_rebuilt :
    let quoting : Expr := .define "p" (.quote (.list [.int 1, .list [.int 2]]))
    let rebuilding : Expr := .define "q" (.list [.ident "cons", .list [.ident "car", .ident "p"],
      .list [.ident "cdr", .ident "p"]])
    let heap := (evalOn ⟨true, 200⟩ 0 quoting Heap.initial).2
    let later := (evalOn ⟨true, 200⟩ 0 rebuilding heap).2
    ∃ hand rest, Stage.Reached ⟨true, 200⟩ (.idle hand later) ∧
      (later.locals Heap.root).find? "p" = some (.pair 2 (.int 1) rest) ∧
      (later.locals Heap.root).find? "q" = some (.pair 3 (.int 1) rest) ∧
      (Value.pair 2 (.int 1) rest).identical (.pair 3 (.int 1) rest) = false ∧
      (Value.pair 2 (.int 1) rest).equal (.pair 3 (.int 1) rest) = true ∧
      (Value.pair 3 (.int 1) rest).equal (.pair 2 (.int 1) rest) = true := by
  intro quoting rebuilding heap later
  let rest : Value := .pair 1 (.pair 0 (.int 2) .nil) .nil
  have quoted : (evalOn ⟨true, 200⟩ 0 quoting Heap.initial).1 = .ok .nil := rfl
  have rebuilt : (evalOn ⟨true, 200⟩ 0 rebuilding heap).1 = .ok .nil := rfl
  have p_bound : (later.locals Heap.root).find? "p" = some (.pair 2 (.int 1) rest) := rfl
  have q_bound : (later.locals Heap.root).find? "q" = some (.pair 3 (.int 1) rest) := rfl
  obtain ⟨hand, came, -⟩ := Stage.leads_evalOn ⟨true, 200⟩ 0 quoting [] Heap.initial
    (by rw [quoted]; rintro ⟨⟩)
  obtain ⟨more, went, -⟩ := Stage.leads_evalOn ⟨true, 200⟩ 0 rebuilding (hand ++ []) heap
    (by rw [rebuilt]; rintro ⟨⟩)
  have reached : Stage.Reached ⟨true, 200⟩ (.idle (more ++ (hand ++ [])) later) :=
    Relation.ReflTransGen.trans came went
  -- From here on nothing has to be computed.
  clear_value later heap
  have p_held : (Stage.idle (more ++ (hand ++ [])) later).Holds (.pair 2 (.int 1) rest) :=
    .of_find? p_bound
  have q_held : (Stage.idle (more ++ (hand ++ [])) later).Holds (.pair 3 (.int 1) rest) :=
    .of_find? q_bound
  have right := (eq_and_equal_are_right reached).1
  have p_equal : (Value.pair 2 (.int 1) rest).equal (.pair 3 (.int 1) rest) = true := by
    rw [right.equal_eq _ _ p_held q_held]
    rfl
  have q_equal := right.equal.symm (x := ⟨_, p_held⟩) (y := ⟨_, q_held⟩) p_equal
  exact ⟨more ++ (hand ++ []), rest, reached, p_bound, q_bound, rfl, p_equal, q_equal⟩

end TailScheme
