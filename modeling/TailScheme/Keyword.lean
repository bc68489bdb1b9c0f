/-!
# Keywords

Five names head the special forms. They are reserved: no variable or parameter is called so,
and a keyword that stands alone is malformed.
-/
namespace TailScheme

/-- The head of a special form. -/
inductive Keyword where
  | define
  | set
  | lambda
  | cond
  | quote
deriving DecidableEq

namespace Keyword

/-- Every keyword, in the order in which they are listed to users. -/
def all : List Keyword := [.define, .set, .lambda, .cond, .quote]

/-- How the keyword is written. -/
def name : Keyword → String
  | .define => "define"
  | .set => "set!"
  | .lambda => "lambda"
  | .cond => "cond"
  | .quote => "quote"

/-- The shape of the form, as shown to whoever wrote it otherwise. -/
def usage : Keyword → String
  | .define => "(define <id> <value>)"
  | .set => "(set! <id> <value>)"
  | .lambda => "(lambda (<id> ...) <body> ...)"
  | .cond => "(cond (<condition> <body> ...) ...)"
  | .quote => "(quote <datum>)"

/-- The keyword that is written so. -/
def ofName? (name : String) : Option Keyword :=
  all.find? fun keyword => keyword.name == name

/-- A keyword is found by its own name. -/
theorem ofName?_name (keyword : Keyword) : ofName? keyword.name = some keyword := by
  cases keyword <;> decide

/-- Only the name of a keyword finds it. -/
theorem name_of_ofName? {name : String} {keyword : Keyword}
    (found : ofName? name = some keyword) : keyword.name = name := by
  have matched := List.find?_some found
  simpa using matched

end Keyword

end TailScheme
