import TailScheme.Proofs.Inventory
import TailScheme.Proofs.Quoting

/-!
# Which pairs an execution builds

`cons` builds the pair that it gives, `list` builds the cells of the list that it gives, and a quote
builds all pairs of the data (`Moment.BuildsAt`). Whatever else is in the result of a quote or a
builtin is an atom or a part of an argument (`Moment.part_of_makes`). The pairs that one execution
builds carry stamps that no pair has had before, and no two of them the same one
(`Moment.Builds.stamp`, `Moment.Builds.unique`).
-/
namespace TailScheme

open Value (Making IsPart Side)

namespace Value

/-- The list of these values whose last cell carries the given stamp; the cells are made from the
last one to the first one. -/
def chain (stamp : Nat) : List Value → Value
  | [] => .nil
  | value :: values => .pair (stamp + values.length) value (chain stamp values)

namespace Making

variable {α β : Type} {good : α → Prop} {better : β → Prop}

/-- A computation that makes no pairs and whose results are good. -/
def Leaves (good : α → Prop) (make : Making α) : Prop :=
  ∀ stamp value next, make stamp = .ok (value, next) → good value ∧ next = stamp

/-- A good value is handed back. -/
theorem leaves_pure {value : α} (is_good : good value) : (pure value : Making α).Leaves good := by
  rintro stamp _ _ ⟨⟩
  exact ⟨is_good, rfl⟩

/-- A failure has no results. -/
theorem leaves_throw (error : Error) : (throw error : Making α).Leaves good := by
  rintro stamp _ _ ⟨⟩

/-- A computation without pairs may come first. -/
theorem leaves_bind {result : Except Error α} {rest : α → Making β}
    (leaves : ∀ value, (rest value).Leaves better) :
    ((liftM result : Making α) >>= rest).Leaves better := by
  intro stamp value next made
  cases result with
  | error error => cases made
  | ok first => exact leaves first stamp value next made

/-- The result of two computations in a row comes from the second one, after the first one. -/
theorem bind_eq_ok_iff {first : Making α} {second : α → Making β} {stamp last : Nat}
    {result : β} : (first >>= second) stamp = .ok (result, last) ↔
      ∃ value next, first stamp = .ok (value, next) ∧ second value next = .ok (result, last) := by
  change (first stamp >>= fun made => second made.1 made.2) = _ ↔ _
  rcases first stamp with error | ⟨value, next⟩
  · simp [Bind.bind, Except.bind]
  · simp [Bind.bind, Except.bind]

end Making

section

variable {stamp next low : Nat} {value part : Value} {values : List Value} {path : List Side}

/-- Making a list gives the list of the values and takes one stamp for each. -/
theorem ofList_eq (stamp : Nat) (values : List Value) :
    ofList values stamp = .ok (chain stamp values, stamp + values.length) := by
  induction values with
  | nil => rfl
  | cons value values ih =>
    change (ofList values stamp >>= fun made => cons value made.1 made.2) = _
    rw [ih]
    rfl

/-- The parts of a list are its cells with the empty list at the end, and the parts of its
values. -/
theorem part?_chain (found : (chain stamp values).part? path = some part) :
    (∃ index ≤ values.length, path = List.replicate index .second ∧
      part = chain stamp (values.drop index)) ∨
    ∃ value ∈ values, IsPart part value := by
  induction values generalizing path with
  | nil =>
    obtain ⟨rfl, rfl⟩ := (part?_of_atom rfl).mp found
    exact .inl ⟨0, Nat.le_refl _, rfl, rfl⟩
  | cons value values ih =>
    match path, found with
    | [], found =>
      cases found
      exact .inl ⟨0, Nat.zero_le _, rfl, rfl⟩
    | .first :: path, found => exact .inr ⟨value, List.mem_cons_self, path, found⟩
    | .second :: path, found =>
      rcases ih found with ⟨index, inside, rfl, rfl⟩ | ⟨other, among, within⟩
      · exact .inl ⟨index + 1, Nat.succ_le_succ inside, rfl, rfl⟩
      · exact .inr ⟨other, List.mem_cons_of_mem _ among, within⟩

/-- The cells of a list follow one another as second components. -/
theorem part?_chain_replicate {index : Nat} (inside : index ≤ values.length) :
    (chain stamp values).part? (List.replicate index .second) =
      some (chain stamp (values.drop index)) := by
  induction values generalizing index with
  | nil =>
    obtain rfl := Nat.le_zero.mp inside
    rfl
  | cons value values ih =>
    cases index with
    | zero => rfl
    | succ index => exact ih (Nat.le_of_succ_le_succ inside)

/-- A cell of a list holds the value and the rest of the list. -/
theorem chain_drop {index : Nat} (inside : index < values.length) :
    chain stamp (values.drop index) = .pair (stamp + (values.length - (index + 1))) values[index]
      (chain stamp (values.drop (index + 1))) := by
  rw [List.drop_eq_getElem_cons inside, chain, List.length_drop]

/-- The stamps in these values, one for each place of a pair, are of this range and all
different. -/
structure Fresh (low high : Nat) (values : List Value) : Prop where
  range : ∀ stamp ∈ values.flatMap stamps, low ≤ stamp ∧ stamp < high
  once : (values.flatMap stamps).Nodup

/-- There are no stamps in atoms. -/
theorem fresh_atom (stamp : Nat) (atom : value.isPair = false) : Fresh stamp stamp [value] := by
  have no_stamps : value.stamps = [] := by
    cases value with
    | pair id first second => cases atom
    | _ => rfl
  constructor <;> simp [no_stamps]

/-- Values that were made one after the other are fresh together. -/
theorem Fresh.append {middle high : Nat} {others : List Value} (first : Fresh low middle values)
    (second : Fresh middle high others) (up : low ≤ middle) (down : middle ≤ high) :
    Fresh low high (values ++ others) := by
  constructor
  · intro stamp among
    rw [List.flatMap_append, List.mem_append] at among
    rcases among with among | among
    · have bounds := first.range stamp among
      exact ⟨bounds.1, Nat.lt_of_lt_of_le bounds.2 down⟩
    · have bounds := second.range stamp among
      exact ⟨Nat.le_trans up bounds.1, bounds.2⟩
  · rw [List.flatMap_append, List.nodup_append]
    refine ⟨first.once, second.once, fun id among other also => ?_⟩
    have below := (first.range id among).2
    have above := (second.range other also).1
    exact Nat.ne_of_lt (Nat.lt_of_lt_of_le below above)

/-- The stamps in a list are those in its values and those of its cells. -/
theorem stamps_chain_perm (stamp : Nat) (values : List Value) :
    (chain stamp values).stamps.Perm
      (values.flatMap stamps ++ List.range' stamp values.length) := by
  induction values with
  | nil => exact .nil
  | cons value values ih =>
    have inside := (ih.append_left value.stamps).append_right [stamp + values.length]
    have first_last : (chain stamp (value :: values)).stamps.Perm
        (value.stamps ++ (chain stamp values).stamps ++ [stamp + values.length]) :=
      (List.perm_append_singleton _ _).symm
    rw [List.flatMap_cons, List.length_cons, List.range'_1_concat]
    simpa only [List.append_assoc] using first_last.trans inside

/-- A list of fresh values is fresh. -/
theorem Fresh.chain (fresh : Fresh low stamp values) (bound : low ≤ stamp) :
    Fresh low (stamp + values.length) [chain stamp values] := by
  have perm := stamps_chain_perm stamp values
  constructor
  · intro id among
    rw [List.flatMap_singleton, perm.mem_iff, List.mem_append, List.mem_range'_1] at among
    rcases among with old | ⟨above, below⟩
    · have bounds := fresh.range id old
      exact ⟨bounds.1, Nat.lt_of_lt_of_le bounds.2 (Nat.le_add_right _ _)⟩
    · exact ⟨Nat.le_trans bound above, below⟩
  · rw [List.flatMap_singleton, perm.nodup_iff, List.nodup_append]
    refine ⟨fresh.once, List.nodup_range', fun id old other new => ?_⟩
    have below := (fresh.range id old).2
    have above := (List.mem_range'_1.mp new).1
    exact Nat.ne_of_lt (Nat.lt_of_lt_of_le below above)

end

end Value

namespace Expr

mutual

/-- The pairs of quoted data are fresh. -/
theorem fresh_quoted : ∀ (e : Expr) {stamp next : Nat} {value : Value},
    e.quoted stamp = .ok (value, next) → stamp ≤ next ∧ Value.Fresh stamp next [value]
  | .bool _, _, _, _, made => by
    cases made
    exact ⟨Nat.le_refl _, Value.fresh_atom _ rfl⟩
  | .int _, _, _, _, made => by
    cases made
    exact ⟨Nat.le_refl _, Value.fresh_atom _ rfl⟩
  | .ident _, _, _, _, made => by
    cases made
    exact ⟨Nat.le_refl _, Value.fresh_atom _ rfl⟩
  | .list items, _, _, _, made => by
    obtain ⟨values, middle, quoted, listed⟩ := Making.bind_eq_ok_iff.mp made
    obtain ⟨bound, fresh⟩ := fresh_quotedAll items quoted
    rw [Value.ofList_eq] at listed
    cases listed
    exact ⟨Nat.le_trans bound (Nat.le_add_right _ _), fresh.chain bound⟩
  | .quote datum, stamp, _, _, made => by
    obtain ⟨value, middle, quoted, listed⟩ := Making.bind_eq_ok_iff.mp made
    obtain ⟨bound, fresh⟩ := fresh_quoted datum quoted
    have keyword : Value.Fresh stamp stamp [.symbol "quote"] := Value.fresh_atom _ rfl
    have both := keyword.append fresh (Nat.le_refl _) bound
    rw [Value.ofList_eq] at listed
    cases listed
    exact ⟨Nat.le_trans bound (Nat.le_add_right _ _), both.chain bound⟩
  | .define _ _, _, _, _, made | .set _ _, _, _, _, made | .lambda _ _, _, _, _, made
  | .cond _, _, _, _, made => by cases made

/-- The pairs of several pieces of quoted data are fresh together. -/
theorem fresh_quotedAll : ∀ (items : List Expr) {stamp next : Nat} {values : List Value},
    quotedAll items stamp = .ok (values, next) → stamp ≤ next ∧ Value.Fresh stamp next values
  | [], _, _, _, made => by
    cases made
    exact ⟨Nat.le_refl _, by simp, by simp⟩
  | item :: items, _, _, _, made => by
    obtain ⟨value, middle, first, made⟩ := Making.bind_eq_ok_iff.mp made
    obtain ⟨values, last, others, made⟩ := Making.bind_eq_ok_iff.mp made
    cases made
    obtain ⟨bound, value_fresh⟩ := fresh_quoted item first
    obtain ⟨later, values_fresh⟩ := fresh_quotedAll items others
    exact ⟨Nat.le_trans bound later, value_fresh.append values_fresh bound later⟩

end

end Expr

namespace Builtin

open Value.Making

/-- Whether the builtin builds pairs. -/
def builds : Builtin → Bool
  | .cons | .list => true
  | _ => false

section

variable {builtin : Builtin} {args : List Value} {stamp next : Nat} {value : Value}

/-- A builtin that builds no pairs computes an atom or takes a part of an argument. -/
theorem leaves_compute (plain : builtin.builds = false) :
    (builtin.compute args).Leaves fun value =>
      value.isObject = false ∨ ∃ arg ∈ args, IsPart value arg := by
  cases builtin with
  | cons | list => cases plain
  | add | mul | eq | lt | le | gt | ge | and | or =>
    exact leaves_bind fun _ => leaves_pure (.inl rfl)
  | sub =>
    refine leaves_bind fun values => ?_
    cases values with
    | nil => exact leaves_throw _
    | cons first rest => exact leaves_pure (.inl rfl)
  | div =>
    refine leaves_bind fun values => ?_
    cases values with
    | nil => exact leaves_throw _
    | cons first rest => exact leaves_bind fun _ => leaves_pure (.inl rfl)
  | rem =>
    refine leaves_bind fun values => ?_
    split
    · exact leaves_bind fun _ => leaves_pure (.inl rfl)
    · exact leaves_throw _
  | not =>
    refine leaves_bind fun values => ?_
    split
    · exact leaves_pure (.inl rfl)
    · exact leaves_throw _
  | car =>
    simp only [compute]
    split
    · next id first second =>
      exact leaves_pure (.inr ⟨_, List.mem_cons_self, Value.isPart_first id first second⟩)
    · exact leaves_throw _
    · exact leaves_throw _
  | cdr =>
    simp only [compute]
    split
    · next id first second =>
      exact leaves_pure (.inr ⟨_, List.mem_cons_self, Value.isPart_second id first second⟩)
    · exact leaves_throw _
    · exact leaves_throw _
  | isNull | identical | equal =>
    simp only [compute]
    split
    · exact leaves_pure (.inl rfl)
    · exact leaves_throw _

/-- What a builtin comes to: `cons` makes a pair of its arguments, `list` makes a list of them, and
all others give an atom or a part of an argument. -/
theorem apply_cases (made : builtin.apply args stamp = .ok (value, next)) :
    (∃ first second, builtin = .cons ∧ args = [first, second] ∧
      value = .pair stamp first second ∧ next = stamp + 1) ∨
    (builtin = .list ∧ value = Value.chain stamp args ∧ next = stamp + args.length) ∨
    (builtin.builds = false ∧ next = stamp ∧
      (value.isObject = false ∨ ∃ arg ∈ args, IsPart value arg)) := by
  have computed : builtin.compute args stamp = .ok (value, next) := by
    obtain ⟨_, middle, checked, computed⟩ := bind_eq_ok_iff.mp made
    rcases fits : builtin.arity.check builtin.name args.length with error | ⟨⟩
    · rw [fits] at checked
      cases checked
    · rw [fits] at checked
      cases checked
      exact computed
  by_cases plain : builtin.builds = false
  · have leaves := leaves_compute plain stamp value next computed
    exact .inr (.inr ⟨plain, leaves.2, leaves.1⟩)
  · cases builtin with
    | cons =>
      match args, computed with
      | [first, second], computed =>
        cases computed
        exact .inl ⟨first, second, rfl, rfl, rfl, rfl⟩
    | list =>
      rw [compute, Value.ofList_eq] at computed
      cases computed
      exact .inr (.inl ⟨rfl, rfl, rfl⟩)
    | _ => exact absurd rfl plain

end

end Builtin

namespace Heap

variable {heap : Heap} {value : Value} {name : String}

/-- Giving a closure its name takes no stamp. -/
theorem pairs_giveName : (heap.giveName value name).pairs = heap.pairs := by
  cases value <;> rfl

/-- Giving a closure its name makes no closure. -/
theorem size_giveName : (heap.giveName value name).names.size = heap.names.size := by
  cases value with
  | closure procedure => exact Array.size_modify ..
  | _ => rfl

end Heap

namespace Moment

/-- The places in the result of a step at which it builds pairs. -/
inductive BuildsAt : Moment → List Side → Prop where
  | cons {place : Place} {tail : Bool} {args : List Value} {pending : List Pending}
      {machine : Machine} :
      BuildsAt ⟨.apply place tail (.builtin .cons) args, pending, machine⟩ []
  | list {place : Place} {tail : Bool} {args : List Value} {pending : List Pending}
      {machine : Machine} {index : Nat} (inside : index < args.length) :
      BuildsAt ⟨.apply place tail (.builtin .list) args, pending, machine⟩
        (List.replicate index .second)
  | quote {place : Place} {datum : Expr} {scope : ScopeId} {pending : List Pending}
      {machine : Machine} {path : List Side} :
      BuildsAt ⟨.evaluate place (.quote datum) scope, pending, machine⟩ path

/-- A step executes `cons`, `list` or a quote, and this builds the pair, at this place of the
result. -/
structure Builds (s : Moment) (path : List Side) (pair : Value) : Prop where
  place : s.BuildsAt path
  isPair : pair.isPair = true
  made : ∃ make value pairs, s.Makes make ∧ make s.machine.heap.pairs = .ok (value, pairs) ∧
    value.part? path = some pair

section

variable {s : Moment} {make : Making Value} {value part pair twin : Value} {last id : Nat}
  {path other : List Side}

/-- The parts of what a step makes: atoms, parts of the arguments, and the pairs that the step
builds. -/
theorem part_of_makes (makes : s.Makes make)
    (made : make s.machine.heap.pairs = .ok (value, last)) (found : value.part? path = some part) :
    part.isObject = false ∨ (∃ whole ∈ s.task.values, IsPart part whole) ∨
      s.Builds path part := by
  have builds : s.BuildsAt path → part.isPair = true → s.Builds path part :=
    fun place pair => ⟨place, pair, make, value, last, makes, made, found⟩
  cases makes with
  | quote =>
    have data := (Expr.standsFor_of_quoted made).isData part ⟨path, found⟩
    cases part with
    | pair id first second => exact .inr (.inr (builds .quote rfl))
    | closure procedure => exact absurd rfl data.1
    | _ => exact .inl rfl
  | builtin =>
    rcases Builtin.apply_cases made with ⟨first, second, rfl, rfl, rfl, rfl⟩ | ⟨rfl, rfl, rfl⟩ |
      ⟨_, _, atom | ⟨arg, among, inside⟩⟩
    · match path, found with
      | [], found =>
        cases found
        exact .inr (.inr (builds .cons rfl))
      | .first :: path, found =>
        have among : first ∈ [Value.builtin .cons, first, second] := by simp
        exact .inr (.inl ⟨first, among, path, found⟩)
      | .second :: path, found =>
        have among : second ∈ [Value.builtin .cons, first, second] := by simp
        exact .inr (.inl ⟨second, among, path, found⟩)
    · rcases Value.part?_chain found with ⟨index, inside, rfl, rfl⟩ | ⟨arg, among, within⟩
      · rcases Nat.lt_or_eq_of_le inside with inside | rfl
        · refine .inr (.inr (builds (.list inside) ?_))
          rw [Value.chain_drop inside]
          rfl
        · rw [List.drop_length]
          exact .inl rfl
      · exact .inr (.inl ⟨arg, List.mem_cons_of_mem _ among, within⟩)
    · obtain ⟨-, rfl⟩ := (Value.part?_of_atom (Value.isPair_of_isObject atom)).mp found
      exact .inl atom
    · exact .inr (.inl ⟨arg, List.mem_cons_of_mem _ among, .trans ⟨path, found⟩ inside⟩)

/-- The pairs that a step builds carry new stamps, and no two of them the same one. -/
theorem fresh_of_buildsAt (makes : s.Makes make)
    (made : make s.machine.heap.pairs = .ok (value, last)) (place : s.BuildsAt path)
    {first second : Value} (found : value.part? path = some (.pair id first second)) :
    (s.machine.heap.pairs ≤ id ∧ id < last) ∧ ∀ other head tail, s.BuildsAt other →
      value.part? other = some (.pair id head tail) → path = other := by
  cases makes with
  | quote =>
    obtain ⟨range, once⟩ := (Expr.fresh_quoted _ made).2
    rw [List.flatMap_singleton] at range once
    refine ⟨range id (Value.mem_stamps_of_part? found), fun _ _ _ _ also => ?_⟩
    exact Value.path_unique once found also
  | @builtin _ _ procedure args _ machine =>
    cases place with
    | cons =>
      rcases Builtin.apply_cases made with ⟨_, _, _, rfl, rfl, rfl⟩ | ⟨⟨⟩, _⟩ | ⟨⟨⟩, _⟩
      rw [Value.part?_nil] at found
      cases found
      refine ⟨⟨Nat.le_refl _, Nat.lt_succ_self _⟩, fun _ _ _ place _ => ?_⟩
      cases place
      rfl
    | @list _ _ _ _ _ index inside =>
      rcases Builtin.apply_cases made with ⟨_, _, ⟨⟩, _⟩ | ⟨_, rfl, rfl⟩ | ⟨⟨⟩, _⟩
      rw [Value.part?_chain_replicate (Nat.le_of_lt inside), Value.chain_drop inside] at found
      cases found
      refine ⟨by omega, fun _ _ _ place also => ?_⟩
      cases place with
      | @list _ _ _ _ _ index' inside' =>
        rw [Value.part?_chain_replicate (Nat.le_of_lt inside'), Value.chain_drop inside'] at also
        have same_stamp := (Value.pair.inj (Option.some.inj also)).1
        have same : index = index' := by omega
        rw [same]

/-- What a step makes is handed over, and the stamps after it are free. -/
theorem next_of_makes {config : Config} (makes : s.Makes make)
    (made : make s.machine.heap.pairs = .ok (value, last)) :
    next config s = some ⟨.give value, s.pending,
      { s.machine with heap := { s.machine.heap with pairs := last } }⟩ := by
  cases makes <;>
    simp only [next, evaluating, applying, proceedWith, proceed, Run.making, made]

/-- Stamps that were in use stay in use. -/
theorem Makes.le (makes : s.Makes make) (made : make s.machine.heap.pairs = .ok (value, last)) :
    s.machine.heap.pairs ≤ last := by
  cases makes with
  | quote => exact (Expr.fresh_quoted _ made).1
  | builtin =>
    rcases Builtin.apply_cases made with ⟨_, _, _, _, _, rfl⟩ | ⟨_, _, rfl⟩ | ⟨_, rfl, _⟩
    · exact Nat.le_succ _
    · exact Nat.le_add_right _ _
    · exact Nat.le_refl _

/-- No step frees a stamp. -/
theorem Alters.counters_le {heap : Heap} (alters : s.Alters heap) :
    s.machine.heap.pairs ≤ heap.pairs ∧ s.machine.heap.names.size ≤ heap.names.size := by
  cases alters with
  | keep => exact ⟨Nat.le_refl _, Nat.le_refl _⟩
  | make makes made => exact ⟨makes.le made, Nat.le_refl _⟩
  | close closes => exact ⟨Nat.le_refl _, by simp⟩
  | openScope opens => exact ⟨Nat.le_refl _, Nat.le_refl _⟩
  | write writes => exact ⟨Heap.pairs_giveName.ge, Heap.size_giveName.ge⟩

/-- A step executes one computation at most. -/
theorem Makes.unique {make' : Making Value} (makes : s.Makes make) (also : s.Makes make') :
    make = make' := by
  cases makes <;> cases also <;> rfl

/-- A pair that a step builds carries a stamp that was free before and is not afterwards. -/
theorem Builds.stamp {config : Config} {t : Moment} {first second : Value}
    (builds : s.Builds path (.pair id first second)) (follows : next config s = some t) :
    s.machine.heap.pairs ≤ id ∧ id < t.machine.heap.pairs := by
  obtain ⟨place, -, make, value, last, makes, made, found⟩ := builds
  rw [next_of_makes makes made] at follows
  cases follows
  exact (fresh_of_buildsAt makes made place found).1

/-- Two pairs that a step builds are one if they are identical. -/
theorem Builds.unique (builds : s.Builds path pair) (also : s.Builds other twin)
    (same : pair.identical twin = true) : path = other ∧ pair = twin := by
  obtain ⟨place, is_pair, make, value, last, makes, made, found⟩ := builds
  obtain ⟨place', is_pair', make', value', last', makes', made', found'⟩ := also
  obtain rfl := makes.unique makes'
  obtain ⟨rfl, rfl⟩ := Prod.mk.inj (Except.ok.inj (made.symm.trans made'))
  match pair, twin, is_pair, is_pair', same with
  | .pair id first second, .pair _ head tail, _, _, same =>
    obtain rfl := beq_iff_eq.mp same
    obtain rfl := (fresh_of_buildsAt makes made place found).2 _ _ _ place' found'
    exact ⟨rfl, Option.some.inj (found.symm.trans found')⟩

end

end Moment

end TailScheme
