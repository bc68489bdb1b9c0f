import TailScheme.Scope
import TailScheme.Value.Printer

/-!
# The heap

The heap holds everything that outlives the evaluation of an expression: the scopes, each under
the number it was given when it was made, the names of the closures, and the first stamp that no
pair carries yet. Parents are older than their children, so from a scope numbered `n` at most
`n + 1` scopes are reached by going outward, and `chain` needs to look no further. A name is
looked up along the chain, from the inside out.
-/
namespace TailScheme

/-- The mutable state of a program. -/
structure Heap where
  /-- The scopes by number. -/
  scopes : Array Scope
  /-- The names of the closures by stamp; none while a closure is anonymous. -/
  names : Array (Option String)
  /-- The first stamp that no pair carries. -/
  pairs : Nat

namespace Heap

/-- No scopes and no objects. -/
def empty : Heap := ⟨#[], #[], 0⟩

/-- The bindings that a scope itself holds. -/
def locals (heap : Heap) (scope : ScopeId) : Bindings :=
  match heap.scopes[scope]? with
  | some found => found.bindings
  | none => []

/-- The scopes from one scope outward, at most `bound` of them. -/
def chainWithin (heap : Heap) : (bound : Nat) → ScopeId → List ScopeId
  | 0, _ => []
  | bound + 1, scope =>
    match heap.scopes[scope]? with
    | none => []
    | some found =>
      match found.parent with
      | none => [scope]
      | some parent => scope :: chainWithin heap bound parent

/-- The scopes from one scope outward. -/
def chain (heap : Heap) (scope : ScopeId) : List ScopeId := heap.chainWithin (scope + 1) scope

/-- The innermost of these scopes that binds a name, and the value there. -/
def findAlong (heap : Heap) (name : String) : List ScopeId → Option (ScopeId × Value)
  | [] => none
  | scope :: rest =>
    match (heap.locals scope).find? name with
    | some value => some (scope, value)
    | none => findAlong heap name rest

/-- The innermost scope, from one scope outward, that binds a name, and the value there. -/
def find? (heap : Heap) (scope : ScopeId) (name : String) : Option (ScopeId × Value) :=
  heap.findAlong name (heap.chain scope)

/-- The value of a name as seen from a scope. -/
def lookup (heap : Heap) (scope : ScopeId) (name : String) : Option Value :=
  (heap.find? scope name).map Prod.snd

/-- Binds a name in a scope itself. -/
def insert (heap : Heap) (scope : ScopeId) (name : String) (value : Value) : Heap :=
  { heap with scopes := heap.scopes.modify scope fun found =>
      { found with bindings := found.bindings.bind name value } }

/-- Changes the innermost binding of a name as seen from a scope, and tells whether there is one.
If there is none, nothing changes. -/
def assign (heap : Heap) (scope : ScopeId) (name : String) (value : Value) : Bool × Heap :=
  match heap.find? scope name with
  | none => (false, heap)
  | some (holder, _) => (true, heap.insert holder name value)

/-- Makes a scope and hands back its number. -/
def newScope (heap : Heap) (parent : Option ScopeId) (bindings : Bindings) : ScopeId × Heap :=
  (heap.scopes.size, { heap with scopes := heap.scopes.push ⟨parent, bindings⟩ })

/-- Makes an anonymous closure. -/
def newClosure (heap : Heap) (params : List String) (body : List Expr) (scope : ScopeId) :
    Closure × Heap :=
  (⟨heap.names.size, params, body, scope⟩, { heap with names := heap.names.push none })

/-- The name of a closure. -/
def nameOf (heap : Heap) (id : Nat) : Option String := heap.names[id]?.join

/-- Gives a name to a value that is an anonymous closure. A closure keeps its first name. -/
def giveName (heap : Heap) (value : Value) (name : String) : Heap :=
  match value with
  | .closure procedure =>
    { heap with names := heap.names.modify procedure.id fun old => old.or (some name) }
  | _ => heap

/-- The printed form of a value. -/
def text (heap : Heap) (value : Value) : String := value.text heap.nameOf

/-- The builtins under their names. -/
def builtinBindings : Bindings := Builtin.all.map fun builtin => (builtin.name, .builtin builtin)

/-- The scope of the top level. -/
def root : ScopeId := 0

/-- The heap that a program starts with: the top level binds the builtins. -/
def initial : Heap := (empty.newScope none builtinBindings).2

/-- Adds the bindings whose names are not yet listed. -/
def addNew (listed : Bindings) : Bindings → Bindings
  | [] => listed
  | (name, value) :: rest =>
    match listed.find? name with
    | some _ => addNew listed rest
    | none => addNew (listed ++ [(name, value)]) rest

/-- The bindings along these scopes, the inner ones hiding the outer ones. -/
def bindingsAlong (heap : Heap) (scopes : List ScopeId) : Bindings :=
  scopes.foldl (fun listed scope => addNew listed (heap.locals scope)) []

/-- Everything that is bound as seen from a scope, in the order of the names. -/
def bindings (heap : Heap) (scope : ScopeId) : Bindings :=
  (heap.bindingsAlong (heap.chain scope)).mergeSort fun first second =>
    !decide (second.1 < first.1)

end Heap

end TailScheme
