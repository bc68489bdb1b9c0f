import TailScheme.Proofs.Footprint
import Mathlib.Data.List.Nodup
import Mathlib.Data.List.Sort
import Mathlib.Tactic.SplitIfs

/-!
# The listing of bindings

A name is looked up from the inside out, and the first scope that binds it answers. The listing goes
through the same scopes and takes up each name the first time it comes by, so it holds exactly what
can be looked up (`Heap.mem_bindings_iff`). Its order is that of the names, which is the order of
their bytes as well: in UTF-8, the bytes of two characters compare as the characters do, whatever
follows them (`Text.encoding_append_lt`). A list of distinct names in a strict order is determined
by what is in it, so the listing tells nothing of the order in which names were bound.
-/
namespace TailScheme

namespace Text

/-- The bytes of a text in UTF-8. -/
def utf8 (text : String) : List UInt8 := text.toUTF8.data.toList

section

variable {c d : Char} {first second : List Char}

/-- Numbers compare by their last digit in base 64 if all before it is the same. -/
theorem lt_of_digits {m n : Nat} (less : m < n) :
    m / 64 < n / 64 ∨ m / 64 = n / 64 ∧ m % 64 < n % 64 := by
  omega

/-- A character is one of those that Unicode has room for. -/
theorem val_lt (c : Char) : c.val.toNat < 0x110000 := by
  rcases c.valid with low | ⟨-, high⟩
  · exact Nat.lt_trans low (by decide)
  · exact high

/-- The bytes of a lesser character come first, whatever follows. -/
theorem encoding_append_lt (less : c < d) (more rest : List UInt8) :
    String.utf8EncodeChar c ++ more < String.utf8EncodeChar d ++ rest := by
  have c_lt := val_lt c
  have d_lt := val_lt d
  have val_lt_val : c.val.toNat < d.val.toNat := less
  unfold String.utf8EncodeChar
  generalize c.val.toNat = m at c_lt val_lt_val
  generalize d.val.toNat = n at d_lt val_lt_val
  dsimp only
  -- The first byte tells how many follow. If it is the same, one digit after the other counts.
  split_ifs
  all_goals
    simp only [List.cons_append, List.nil_append, List.cons_lt_cons_iff, UInt8.lt_iff_toNat_lt,
      ← UInt8.toNat_inj, UInt8.toNat_ofNat']
    rcases lt_of_digits val_lt_val with high | ⟨same, low⟩
    · rcases lt_of_digits high with higher | ⟨same, middle⟩
      · omega
      · omega
    · omega

/-- The bytes of characters compare as the characters do. -/
theorem encodings_lt (less : first < second) :
    first.flatMap String.utf8EncodeChar < second.flatMap String.utf8EncodeChar := by
  induction second generalizing first with
  | nil => exact absurd less (List.not_lt_nil first)
  | cons d second ih =>
    rw [List.flatMap_cons]
    cases first with
    | nil =>
      obtain ⟨byte, bytes, encoded⟩ :=
        List.exists_cons_of_ne_nil (String.utf8EncodeChar_ne_nil (c := d))
      rw [List.flatMap_nil, encoded]
      exact List.nil_lt_cons _ _
    | cons c first =>
      rw [List.flatMap_cons]
      rcases List.cons_lt_cons_iff.mp less with smaller | ⟨rfl, later⟩
      · exact encoding_append_lt smaller _ _
      · exact List.append_left_lt (ih later)

/-- The bytes of a text are those of its characters. -/
theorem utf8_eq (text : String) : utf8 text = text.toList.flatMap String.utf8EncodeChar := by
  have encoded : text.toUTF8 = text.toList.utf8Encode := by
    rw [String.toUTF8, ← String.toByteArray_ofList, String.ofList_toList]
  rw [utf8, encoded, List.utf8Encode, List.data_toByteArray]

/-- Texts are in the order of their bytes. -/
theorem utf8_lt_of_lt {text other : String} (less : text < other) : utf8 text < utf8 other := by
  rw [utf8_eq, utf8_eq]
  exact encodings_lt (String.lt_iff.mp less)

end

end Text

namespace Bindings

variable {bindings listed more : Bindings} {name : String} {value : Value}

/-- A name that is not found has no entry. -/
theorem find?_eq_none_iff : bindings.find? name = none ↔ name ∉ bindings.map Prod.fst := by
  induction bindings with
  | nil => simp [find?]
  | cons entry rest ih =>
    rw [find?, List.map_cons, List.mem_cons, not_or]
    by_cases same : entry.1 = name
    · simp [same]
    · have different : name ≠ entry.1 := Ne.symm same
      simp [same, different, ih]

/-- Among distinct names, an entry is in the list if it is found there. -/
theorem mem_iff_find? (distinct : (bindings.map Prod.fst).Nodup) :
    (name, value) ∈ bindings ↔ bindings.find? name = some value := by
  induction bindings with
  | nil => simp [find?]
  | cons entry rest ih =>
    rw [List.map_cons, List.nodup_cons] at distinct
    obtain ⟨label, old⟩ := entry
    rw [find?, List.mem_cons, Prod.mk.injEq]
    by_cases same : label = name
    · subst same
      have no_other : (label, value) ∉ rest :=
        fun among => distinct.1 (List.mem_map.mpr ⟨(label, value), among, rfl⟩)
      simp [no_other, eq_comm]
    · have different : name ≠ label := Ne.symm same
      simp [same, different, ih distinct.2]

/-- What is found in two lists in a row. -/
theorem find?_append : (listed ++ more).find? name = (listed.find? name).or (more.find? name) := by
  induction listed with
  | nil => rfl
  | cons entry rest ih =>
    obtain ⟨label, old⟩ := entry
    rw [List.cons_append, find?, find?]
    by_cases same : label = name
    · simp [same]
    · simp [same, ih]

end Bindings

namespace Heap

section

variable {heap : Heap} {scope : ScopeId} {name : String} {value : Value}
  {listed more : Bindings}

/-- Names that are listed stay what they are, and the others are taken up. -/
theorem find?_addNew :
    (addNew listed more).find? name = (listed.find? name).or (more.find? name) := by
  induction more generalizing listed with
  | nil => rw [addNew, Bindings.find?, Option.or_none]
  | cons entry rest ih =>
    obtain ⟨label, value⟩ := entry
    rw [addNew, Bindings.find?]
    rcases known : listed.find? label with _ | old
    · simp only [ih, Bindings.find?_append, Bindings.find?]
      by_cases same : label = name
      · subst same
        simp [known]
      · simp [same]
    · simp only [ih]
      by_cases same : label = name
      · subst same
        simp [known]
      · simp [same]

/-- No name is taken up twice. -/
theorem nodup_addNew (distinct : (listed.map Prod.fst).Nodup) :
    ((addNew listed more).map Prod.fst).Nodup := by
  induction more generalizing listed with
  | nil => exact distinct
  | cons entry rest ih =>
    obtain ⟨label, value⟩ := entry
    rw [addNew]
    rcases known : listed.find? label with _ | old
    · apply ih
      have new := Bindings.find?_eq_none_iff.mp known
      rw [List.map_append, List.map_cons, List.map_nil, ← List.concat_eq_append]
      exact distinct.concat new
    · exact ih distinct

/-- What is listed along scopes is what is found along them, besides what was listed before. -/
theorem find?_foldl_addNew (scopes : List ScopeId) :
    ∀ listed : Bindings,
      (scopes.foldl (fun listed scope => addNew listed (heap.locals scope)) listed).find? name =
        (listed.find? name).or ((heap.findAlong name scopes).map Prod.snd) := by
  induction scopes with
  | nil =>
    intro listed
    rw [List.foldl_nil, findAlong, Option.map_none, Option.or_none]
  | cons inner scopes ih =>
    intro listed
    rw [List.foldl_cons, ih, find?_addNew, Option.or_assoc, findAlong]
    rcases bound : (heap.locals inner).find? name with _ | value
    · rw [Option.none_or]
    · rw [Option.some_or, Option.map_some]

/-- No name is listed twice along scopes. -/
theorem nodup_foldl_addNew (scopes : List ScopeId) :
    ∀ listed : Bindings, (listed.map Prod.fst).Nodup →
      ((scopes.foldl (fun listed scope => addNew listed (heap.locals scope)) listed).map
        Prod.fst).Nodup := by
  induction scopes with
  | nil => exact fun listed distinct => distinct
  | cons inner scopes ih => exact fun listed distinct => ih _ (nodup_addNew distinct)

/-- The names of a listing are distinct. -/
theorem nodup_bindings (heap : Heap) (scope : ScopeId) :
    ((heap.bindings scope).map Prod.fst).Nodup := by
  have along : ((heap.bindingsAlong (heap.chain scope)).map Prod.fst).Nodup :=
    nodup_foldl_addNew _ [] List.nodup_nil
  have same_entries := List.mergeSort_perm (heap.bindingsAlong (heap.chain scope))
    fun first second => !decide (second.1 < first.1)
  exact (same_entries.map Prod.fst).nodup_iff.mpr along

/-- An entry is listed if and only if looking its name up gives its value. -/
theorem mem_bindings_iff :
    (name, value) ∈ heap.bindings scope ↔ heap.lookup scope name = some value := by
  have along : ((heap.bindingsAlong (heap.chain scope)).map Prod.fst).Nodup :=
    nodup_foldl_addNew _ [] List.nodup_nil
  rw [bindings, List.mem_mergeSort, Bindings.mem_iff_find? along, bindingsAlong,
    find?_foldl_addNew, Bindings.find?, Option.none_or]
  rfl

/-- The names of a listing increase strictly. -/
theorem pairwise_bindings (heap : Heap) (scope : ScopeId) :
    (heap.bindings scope).Pairwise fun first second => first.1 < second.1 := by
  have sorted : (heap.bindings scope).Pairwise fun first second =>
      (!decide (second.1 < first.1)) = true := by
    apply List.pairwise_mergeSort
    · intro first second third
      simp only [Bool.not_eq_true', decide_eq_false_iff_not, String.not_lt]
      exact String.le_trans
    · intro first second
      simp only [Bool.or_eq_true, Bool.not_eq_true', decide_eq_false_iff_not, String.not_lt]
      exact String.le_total _ _
  have distinct : (heap.bindings scope).Pairwise fun first second => first.1 ≠ second.1 :=
    List.pairwise_map.mp (nodup_bindings heap scope)
  apply (sorted.and distinct).imp
  rintro first second ⟨ordered, different⟩
  simp only [Bool.not_eq_true', decide_eq_false_iff_not, String.not_lt] at ordered
  exact String.not_le.mp fun back => different (String.le_antisymm ordered back)

end

/-- The listing of a scope is what can be looked up from it. It has an entry for a name if and only
if the name has that value, lists no name twice, and is strictly increasing by the bytes of the
names. So two scopes from which every name has the same value have the same listing, however their
bindings came about. -/
theorem listing_is_what_lookup_sees (heap : Heap) (scope : ScopeId) :
    (∀ name value, (name, value) ∈ heap.bindings scope ↔
      heap.lookup scope name = some value) ∧
    ((heap.bindings scope).map Prod.fst).Nodup ∧
    ((heap.bindings scope).Pairwise fun first second =>
      Text.utf8 first.1 < Text.utf8 second.1) ∧
    ∀ (other : Heap) (inner : ScopeId),
      (∀ name, other.lookup inner name = heap.lookup scope name) →
        other.bindings inner = heap.bindings scope := by
  refine ⟨fun _ _ => mem_bindings_iff, nodup_bindings heap scope, ?_, ?_⟩
  · exact (pairwise_bindings heap scope).imp Text.utf8_lt_of_lt
  · intro other inner same
    have same_entries : (other.bindings inner).Perm (heap.bindings scope) := by
      apply (List.perm_ext_iff_of_nodup (nodup_bindings other inner).of_map
        (nodup_bindings heap scope).of_map).mpr
      rintro ⟨name, value⟩
      rw [mem_bindings_iff, mem_bindings_iff, same]
    apply same_entries.eq_of_pairwise ?_ (pairwise_bindings other inner)
      (pairwise_bindings heap scope)
    intro first second _ _ less greater
    exact absurd greater (String.lt_asymm less)

/-- Two scopes, of which the inner one hides a binding of the outer one. -/
def nested : Heap :=
  ((empty.newScope none [("é", .int 1), ("a", .int 2)]).2.newScope (some 0) [("a", .int 3)]).2

/-- One scope with the bindings that are seen from the inner of the two scopes, in another order. -/
def flat : Heap := (empty.newScope none [("a", .int 3), ("é", .int 1)]).2

/-- A scope that hides a binding of its parent is listed like one that holds all that is seen from
it, and the hidden binding is not listed. -/
theorem listing_is_what_lookup_sees_of_nested :
    (∀ name, flat.lookup 0 name = nested.lookup 1 name) ∧
      flat.bindings 0 = nested.bindings 1 ∧ ("a", .int 3) ∈ nested.bindings 1 ∧
        ("a", .int 2) ∉ nested.bindings 1 := by
  have same : ∀ name, flat.lookup 0 name = nested.lookup 1 name := by
    intro name
    by_cases first : name = "a"
    · rw [first]
      rfl
    · by_cases second : name = "é"
      · rw [second]
        rfl
      · have other_first : "a" ≠ name := Ne.symm first
        have other_second : "é" ≠ name := Ne.symm second
        simp [lookup, find?, chain, chainWithin, findAlong, locals, flat, nested, newScope, empty,
          Bindings.find?, other_first, other_second]
  obtain ⟨listed, -, -, determined⟩ := listing_is_what_lookup_sees nested 1
  have seen : nested.lookup 1 "a" = some (.int 3) := rfl
  refine ⟨same, determined flat 0 same, (listed "a" (.int 3)).mpr seen, ?_⟩
  rw [listed, seen]
  intro hidden
  cases hidden

end Heap

end TailScheme
