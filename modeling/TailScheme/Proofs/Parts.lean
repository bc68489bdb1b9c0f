import TailScheme.Value

/-!
# The parts of a value

The parts of a value are what taking first and second components of pairs leads to, the value itself
among them. A path tells which components are taken. A value in which no two pairs carry the same
stamp has each of its pairs at one place only (`Value.path_unique`).
-/
namespace TailScheme.Value

/-- One of the two components of a pair. -/
inductive Side where
  | first
  | second

/-- What taking these components, one after the other, leads to. -/
def part? : Value → List Side → Option Value
  | value, [] => some value
  | .pair _ first _, .first :: path => first.part? path
  | .pair _ _ second, .second :: path => second.part? path
  | _, _ => none

/-- The first value is a part of the second one. -/
def IsPart (part whole : Value) : Prop := ∃ path, whole.part? path = some part

/-- Whether a value is a pair. -/
def isPair : Value → Bool
  | .pair _ _ _ => true
  | _ => false

/-- Whether a value is a pair or a closure, and so has an identity besides its contents. -/
def isObject : Value → Bool
  | .pair _ _ _ | .closure _ => true
  | _ => false

/-- What is left of a value when second components are taken as long as there are any. -/
def ending : Value → Value
  | .pair _ _ second => second.ending
  | value => value

/-- The stamps of the pairs in a value, one for each place. -/
def stamps : Value → List Nat
  | .pair id first second => id :: (first.stamps ++ second.stamps)
  | _ => []

section

variable {part middle whole first second value : Value} {id stamp : Nat} {path other : List Side}

/-- Pairs are objects. -/
theorem isPair_of_isObject (no_object : value.isObject = false) : value.isPair = false := by
  cases value with
  | pair id first second => cases no_object
  | _ => rfl

/-- Every value is a part of itself. -/
theorem IsPart.refl (value : Value) : IsPart value value := ⟨[], by cases value <;> rfl⟩

/-- The first component is a part. -/
theorem isPart_first (id : Nat) (first second : Value) : IsPart first (.pair id first second) :=
  ⟨[.first], by cases first <;> rfl⟩

/-- The second component is a part. -/
theorem isPart_second (id : Nat) (first second : Value) : IsPart second (.pair id first second) :=
  ⟨[.second], by cases second <;> rfl⟩

/-- The whole path leads to the value at which it starts. -/
@[simp] theorem part?_nil (value : Value) : value.part? [] = some value := by cases value <;> rfl

/-- An atom has no parts but itself. -/
theorem part?_of_atom (atom : value.isPair = false) :
    value.part? path = some part ↔ path = [] ∧ part = value := by
  cases path with
  | nil => simp [eq_comm]
  | cons side path =>
    cases value with
    | pair id first second => cases atom
    | _ => simp [part?]

/-- The parts of a pair are the pair and the parts of its components. -/
theorem isPart_pair_iff : IsPart part (.pair id first second) ↔
    part = .pair id first second ∨ IsPart part first ∨ IsPart part second := by
  constructor
  · rintro ⟨_ | ⟨_ | _, path⟩, found⟩
    · exact .inl (Option.some.inj found).symm
    · exact .inr (.inl ⟨path, found⟩)
    · exact .inr (.inr ⟨path, found⟩)
  · rintro (rfl | ⟨path, found⟩ | ⟨path, found⟩)
    · exact .refl _
    · exact ⟨.first :: path, found⟩
    · exact ⟨.second :: path, found⟩

/-- The part of an atom is the atom. -/
theorem isPart_atom_iff (atom : value.isPair = false) : IsPart part value ↔ part = value := by
  constructor
  · rintro ⟨path, found⟩
    exact ((part?_of_atom atom).mp found).2
  · rintro rfl
    exact .refl _

/-- A part of a part is a part. -/
theorem IsPart.trans (inner : IsPart part middle) (outer : IsPart middle whole) :
    IsPart part whole := by
  induction whole with
  | pair id first second first_ih second_ih =>
    rcases isPart_pair_iff.mp outer with rfl | inside | inside
    · exact inner
    · exact isPart_pair_iff.mpr (.inr (.inl (first_ih inside)))
    · exact isPart_pair_iff.mpr (.inr (.inr (second_ih inside)))
  | _ => exact (isPart_atom_iff rfl).mp outer ▸ inner

/-- The stamp of a pair that is a part is among the stamps. -/
theorem mem_stamps_of_part? (found : whole.part? path = some (.pair id first second)) :
    id ∈ whole.stamps := by
  induction whole generalizing path with
  | pair stamp head tail head_ih tail_ih =>
    rw [stamps, List.mem_cons, List.mem_append]
    match path, found with
    | [], found => exact .inl (by cases found; rfl)
    | .first :: path, found => exact .inr (.inl (head_ih found))
    | .second :: path, found => exact .inr (.inr (tail_ih found))
  | _ => cases ((part?_of_atom rfl).mp found).2

/-- In a value with no stamp twice, a stamp tells the place of its pair. -/
theorem path_unique {head tail : Value} (once : whole.stamps.Nodup)
    (found : whole.part? path = some (.pair id first second))
    (also : whole.part? other = some (.pair id head tail)) : path = other := by
  induction whole generalizing path other with
  | pair stamp left right left_ih right_ih =>
    obtain ⟨not_inside, both_once⟩ := List.nodup_cons.mp once
    obtain ⟨left_once, right_once, apart⟩ := List.nodup_append.mp both_once
    rw [List.mem_append, not_or] at not_inside
    match path, other, found, also with
    | [], [], _, _ => rfl
    | [], .first :: other, found, also =>
      cases found
      exact (not_inside.1 (mem_stamps_of_part? also)).elim
    | [], .second :: other, found, also =>
      cases found
      exact (not_inside.2 (mem_stamps_of_part? also)).elim
    | .first :: path, [], found, also =>
      cases also
      exact (not_inside.1 (mem_stamps_of_part? found)).elim
    | .second :: path, [], found, also =>
      cases also
      exact (not_inside.2 (mem_stamps_of_part? found)).elim
    | .first :: path, .first :: other, found, also => rw [left_ih left_once found also]
    | .second :: path, .second :: other, found, also => rw [right_ih right_once found also]
    | .first :: path, .second :: other, found, also =>
      have inside_left : id ∈ left.stamps := mem_stamps_of_part? found
      have inside_right : id ∈ right.stamps := mem_stamps_of_part? also
      exact absurd rfl (apart id inside_left id inside_right)
    | .second :: path, .first :: other, found, also =>
      have inside_right : id ∈ right.stamps := mem_stamps_of_part? found
      have inside_left : id ∈ left.stamps := mem_stamps_of_part? also
      exact absurd rfl (apart id inside_left id inside_right)
  | _ => cases ((part?_of_atom rfl).mp found).2

end

end TailScheme.Value
