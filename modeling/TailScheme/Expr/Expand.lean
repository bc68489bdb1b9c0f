import TailScheme.Expr
import TailScheme.Keyword

/-!
# Expansion

Expansion turns each list that is headed by a keyword into the node of that special form and
refuses the forms of the wrong shape, naming the keyword at fault. Quoted data is left as it was
read. Nodes that are already expanded are walked again, so that a second expansion changes
nothing.
-/
namespace TailScheme.Expr

/-- The name that a tree consists of, if it is usable for a variable. -/
def variableName? : Expr → Option String
  | .ident name => if (Keyword.ofName? name).isSome then none else some name
  | _ => none

/-- The keyword that a tree consists of. -/
def keyword? : Expr → Option Keyword
  | .ident name => Keyword.ofName? name
  | _ => none

/-- Whether a tree is the mark of a final branch. -/
def isElse : Expr → Bool
  | .ident name => name == "else"
  | _ => false

/-- Whether no name occurs twice. -/
def distinct : List String → Bool
  | [] => true
  | name :: names => !names.contains name && distinct names

/-- The parameter names that a list of trees consists of: variables without repetition. -/
def parameters? (items : List Expr) : Option (List String) :=
  match items.mapM variableName? with
  | some names => if distinct names then some names else none
  | none => none

/-- A definition has no value, so it cannot be the value of `form`. -/
def asValue (form : Keyword) : Expr → Except Keyword Expr
  | .define _ _ => .error form
  | e => .ok e

/-- The node for the datum that follows `quote`. -/
def quoteForm : List Expr → Except Keyword Expr
  | [datum] => .ok (.quote datum)
  | _ => .error .quote

mutual

/-- Expands every special form of a tree, or names the form that is malformed. -/
def expand : Expr → Except Keyword Expr
  | .bool value => .ok (.bool value)
  | .int value => .ok (.int value)
  | .ident name =>
    match Keyword.ofName? name with
    | some keyword => .error keyword
    | none => .ok (.ident name)
  | .list [] => .ok (.list [])
  | .list (head :: rest) =>
    match head.keyword? with
    | none => do
      let head ← head.expand
      let rest ← expandEach rest
      return .list (head :: rest)
    | some .quote => quoteForm rest
    | some .define => do
      let (name, value) ← expandBinding .define rest
      return .define name value
    | some .set => do
      let (name, value) ← expandBinding .set rest
      return .set name value
    | some .lambda => expandLambda rest
    | some .cond => do
      let branches ← expandClauses rest
      return .cond branches
  | .quote datum => .ok (.quote datum)
  | .define name value => do
    let value ← value.expand
    return .define name (← asValue .define value)
  | .set name value => do
    let value ← value.expand
    return .set name (← asValue .set value)
  | .lambda params body => do
    let body ← expandEach body
    return .lambda params body
  | .cond branches => do
    let branches ← expandBranches branches
    return .cond branches

/-- Expands trees from left to right. -/
def expandEach : List Expr → Except Keyword (List Expr)
  | [] => .ok []
  | item :: items => do
    let item ← item.expand
    let items ← expandEach items
    return item :: items

/-- Expands the branches of a node that is already expanded. -/
def expandBranches : List Branch → Except Keyword (List Branch)
  | [] => .ok []
  | .test guard body :: branches => do
    let guard ← guard.expand
    let body ← expandEach body
    let branches ← expandBranches branches
    return .test guard body :: branches
  | .otherwise body :: branches => do
    let body ← expandEach body
    let branches ← expandBranches branches
    return .otherwise body :: branches

/-- Expands the name and the value that follow `define` or `set!`. -/
def expandBinding (form : Keyword) : List Expr → Except Keyword (String × Expr)
  | [name, value] =>
    match name.variableName? with
    | none => .error form
    | some name => do
      let value ← value.expand
      return (name, ← asValue form value)
  | _ => .error form

/-- Expands the parameters and the body that follow `lambda`. -/
def expandLambda : List Expr → Except Keyword Expr
  | .list items :: first :: body =>
    match parameters? items with
    | none => .error .lambda
    | some params => do
      let first ← first.expand
      let body ← expandEach body
      return .lambda params (first :: body)
  | _ => .error .lambda

/-- Expands the clauses that follow `cond`; only the last may be headed by `else`. -/
def expandClauses : List Expr → Except Keyword (List Branch)
  | [] => .ok []
  | .list (head :: first :: body) :: clauses =>
    if head.isElse then
      match clauses with
      | [] => do
        let first ← first.expand
        let body ← expandEach body
        return [.otherwise (first :: body)]
      | _ :: _ => .error .cond
    else do
      let guard ← head.expand
      let first ← first.expand
      let body ← expandEach body
      let branches ← expandClauses clauses
      return .test guard (first :: body) :: branches
  | _ :: _ => .error .cond

end

end TailScheme.Expr
