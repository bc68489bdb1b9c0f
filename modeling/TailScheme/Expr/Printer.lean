import TailScheme.Expr
import TailScheme.Text.Decimal

/-!
# Printed trees

A tree prints in the form in which it is written in a program, so a special form prints as the
list that expands to it, and a tree and its expansion print alike. Elements are separated by one
space and quoted data is written out as `(quote datum)`.
-/
namespace TailScheme

/-- The text of a boolean. -/
def boolChars (value : Bool) : List Char :=
  if value then ['t', 'r', 'u', 'e'] else ['f', 'a', 'l', 's', 'e']

/-- Names with one space between them. -/
def namesChars : List String → List Char
  | [] => []
  | [name] => name.toList
  | name :: next :: rest => name.toList ++ ' ' :: namesChars (next :: rest)

namespace Expr

mutual

/-- The printed form of a tree. -/
def chars : Expr → List Char
  | .bool value => boolChars value
  | .int value => Text.intChars value
  | .ident name => name.toList
  | .list items => '(' :: (allChars items ++ [')'])
  | .quote datum => "(quote ".toList ++ datum.chars ++ [')']
  | .define name value => "(define ".toList ++ name.toList ++ ' ' :: (value.chars ++ [')'])
  | .set name value => "(set! ".toList ++ name.toList ++ ' ' :: (value.chars ++ [')'])
  | .lambda params body =>
    "(lambda (".toList ++ namesChars params ++ ')' :: ' ' :: (allChars body ++ [')'])
  | .cond branches => "(cond".toList ++ branchesChars branches ++ [')']

/-- The printed forms of trees, with one space between them. -/
def allChars : List Expr → List Char
  | [] => []
  | [item] => item.chars
  | item :: next :: rest => item.chars ++ ' ' :: allChars (next :: rest)

/-- The printed forms of branches, with one space before each. -/
def branchesChars : List Branch → List Char
  | [] => []
  | .test guard body :: rest =>
    ' ' :: '(' :: (guard.chars ++ ' ' :: (allChars body ++ ')' :: branchesChars rest))
  | .otherwise body :: rest =>
    " (else ".toList ++ allChars body ++ ')' :: branchesChars rest

end

@[simp] theorem chars_bool (value : Bool) : (bool value).chars = boolChars value := rfl

@[simp] theorem chars_int (value : Int64) : (int value).chars = Text.intChars value := rfl

@[simp] theorem chars_ident (name : String) : (ident name).chars = name.toList := rfl

@[simp] theorem chars_list (items : List Expr) :
    (list items).chars = '(' :: (allChars items ++ [')']) := rfl

@[simp] theorem chars_quote (datum : Expr) :
    datum.quote.chars = "(quote ".toList ++ datum.chars ++ [')'] := rfl

@[simp] theorem chars_define (name : String) (value : Expr) :
    (define name value).chars =
      "(define ".toList ++ name.toList ++ ' ' :: (value.chars ++ [')']) := rfl

@[simp] theorem chars_set (name : String) (value : Expr) :
    (set name value).chars =
      "(set! ".toList ++ name.toList ++ ' ' :: (value.chars ++ [')']) := rfl

@[simp] theorem chars_lambda (params : List String) (body : List Expr) :
    (lambda params body).chars =
      "(lambda (".toList ++ namesChars params ++ ')' :: ' ' :: (allChars body ++ [')']) := rfl

@[simp] theorem chars_cond (branches : List Branch) :
    (cond branches).chars = "(cond".toList ++ branchesChars branches ++ [')'] := rfl

@[simp] theorem allChars_nil : allChars [] = [] := rfl

@[simp] theorem allChars_singleton (item : Expr) : allChars [item] = item.chars := rfl

@[simp] theorem allChars_cons_cons (item next : Expr) (rest : List Expr) :
    allChars (item :: next :: rest) = item.chars ++ ' ' :: allChars (next :: rest) := rfl

@[simp] theorem branchesChars_nil : branchesChars [] = [] := rfl

@[simp] theorem branchesChars_test (guard : Expr) (body : List Expr) (rest : List Branch) :
    branchesChars (.test guard body :: rest) =
      ' ' :: '(' :: (guard.chars ++ ' ' :: (allChars body ++ ')' :: branchesChars rest)) := rfl

@[simp] theorem branchesChars_otherwise (body : List Expr) (rest : List Branch) :
    branchesChars (.otherwise body :: rest) =
      " (else ".toList ++ allChars body ++ ')' :: branchesChars rest := rfl

/-- The printed form of a tree as text. -/
def text (e : Expr) : String := String.ofList e.chars

end Expr

end TailScheme
