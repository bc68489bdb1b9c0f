/-!
# Program trees

One type serves two stages. A tree as read is raw: it has only literals, identifiers and lists.
Expansion turns the lists that are headed by a keyword into the nodes after `list`, and the
evaluator runs the result. A tree may mix both, and expansion also accepts such a mixture.
-/
namespace TailScheme

mutual

/-- A program tree, raw or expanded. -/
inductive Expr where
  /-- A boolean literal. -/
  | bool (value : Bool)
  /-- An integer literal. -/
  | int (value : Int64)
  /-- An identifier. -/
  | ident (name : String)
  /-- A raw list, or the application of its first element to the others. -/
  | list (items : List Expr)
  /-- Data that is not evaluated. -/
  | quote (datum : Expr)
  /-- Binds a name in the scope where it is evaluated. -/
  | define (name : String) (value : Expr)
  /-- Changes the binding of a name. -/
  | set (name : String) (value : Expr)
  /-- Makes a procedure. -/
  | lambda (params : List String) (body : List Expr)
  /-- Chooses the first branch whose test holds. -/
  | cond (branches : List Branch)

/-- One branch of a `cond`. -/
inductive Branch where
  /-- Chosen when its test holds. -/
  | test (guard : Expr) (body : List Expr)
  /-- Chosen always. -/
  | otherwise (body : List Expr)

end

instance : Inhabited Expr := ⟨.list []⟩

/-- The expressions that a branch runs when it is chosen. -/
def Branch.body : Branch → List Expr
  | .test _ body | .otherwise body => body

/-- The test of a branch that has one. -/
def Branch.guard? : Branch → Option Expr
  | .test guard _ => some guard
  | .otherwise _ => none

namespace Expr

mutual

/-- Whether two trees are the same. -/
def beq : Expr → Expr → Bool
  | .bool value, .bool other => value == other
  | .int value, .int other => value == other
  | .ident name, .ident other => name == other
  | .list items, .list others => beqAll items others
  | .quote datum, .quote other => datum.beq other
  | .define name value, .define other result => name == other && value.beq result
  | .set name value, .set other result => name == other && value.beq result
  | .lambda params body, .lambda others code => params == others && beqAll body code
  | .cond branches, .cond others => beqBranches branches others
  | _, _ => false

/-- Whether two lists of trees are the same. -/
def beqAll : List Expr → List Expr → Bool
  | [], [] => true
  | item :: items, other :: others => item.beq other && beqAll items others
  | _, _ => false

/-- Whether two lists of branches are the same. -/
def beqBranches : List Branch → List Branch → Bool
  | [], [] => true
  | .test guard body :: branches, .test other code :: others =>
    guard.beq other && beqAll body code && beqBranches branches others
  | .otherwise body :: branches, .otherwise code :: others =>
    beqAll body code && beqBranches branches others
  | _, _ => false

end

mutual

/-- The comparison finds out whether two trees are equal. -/
theorem beq_iff (first second : Expr) : first.beq second = true ↔ first = second := by
  cases first <;> cases second <;> simp [beq, beq_iff, beqAll_iff, beqBranches_iff]

/-- The comparison finds out whether two lists of trees are equal. -/
theorem beqAll_iff (items others : List Expr) :
    beqAll items others = true ↔ items = others := by
  cases items <;> cases others <;> simp [beqAll, beq_iff, beqAll_iff]

/-- The comparison finds out whether two lists of branches are equal. -/
theorem beqBranches_iff (branches others : List Branch) :
    beqBranches branches others = true ↔ branches = others := by
  match branches, others with
  | .test guard body :: branches, .test other code :: others =>
    simp [beqBranches, beq_iff guard, beqAll_iff body, beqBranches_iff branches]
  | .otherwise body :: branches, .otherwise code :: others =>
    simp [beqBranches, beqAll_iff body, beqBranches_iff branches]
  | [], [] | [], _ :: _ | .test .. :: _, [] | .otherwise .. :: _, []
  | .test .. :: _, .otherwise .. :: _ | .otherwise .. :: _, .test .. :: _ => simp [beqBranches]

end

end Expr

instance : BEq Expr := ⟨Expr.beq⟩

instance : LawfulBEq Expr where
  eq_of_beq := (Expr.beq_iff _ _).mp
  rfl := (Expr.beq_iff _ _).mpr rfl

instance : DecidableEq Expr := instDecidableEqOfLawfulBEq

end TailScheme
