import TailScheme.Value

/-!
# Scopes

A scope binds names to values and may lie within another scope, its parent. No name is bound
twice in one scope: `bind` replaces the binding that is there.
-/
namespace TailScheme

/-- Names with the values they are bound to. -/
abbrev Bindings := List (String × Value)

namespace Bindings

/-- The value that a name is bound to. -/
def find? (name : String) : Bindings → Option Value
  | [] => none
  | (other, value) :: rest => if other == name then some value else find? name rest

/-- Binds a name, in place of its old binding if it has one. -/
def bind (name : String) (value : Value) : Bindings → Bindings
  | [] => [(name, value)]
  | (other, old) :: rest =>
    if other == name then (other, value) :: rest else (other, old) :: bind name value rest

/-- Binds names to values, one after the other. -/
def bindAll : List (String × Value) → Bindings → Bindings
  | [], bindings => bindings
  | (name, value) :: rest, bindings => bindAll rest (bindings.bind name value)

/-- A name just bound is bound to its value and every other name to what it was. -/
theorem find?_bind (name other : String) (value : Value) (bindings : Bindings) :
    (bindings.bind name value).find? other =
      if name = other then some value else bindings.find? other := by
  induction bindings with
  | nil => simp [bind, find?, beq_iff_eq]
  | cons head rest ih =>
    obtain ⟨first, old⟩ := head
    simp only [bind, beq_iff_eq]
    split
    · next same =>
      subst same
      simp only [find?, beq_iff_eq]
      split <;> rfl
    · next different =>
      simp only [find?, beq_iff_eq, ih]
      split
      · next found =>
        subst found
        rw [if_neg (fun same => different same.symm)]
      · rfl

end Bindings

/-- One lexical scope. -/
structure Scope where
  /-- The scope that this one lies within. -/
  parent : Option ScopeId
  /-- What this scope itself binds. -/
  bindings : Bindings

end TailScheme
