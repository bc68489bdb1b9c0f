import TailScheme.Value
import TailScheme.Expr.Printer

/-!
# Quoted data

The value that a quoted tree stands for: identifiers become symbols and lists become fresh
chains of pairs. A quote inside is the list `(quote datum)`. The other special forms cannot be
quoted once they are expanded; the first of them in reading order is reported.
-/
namespace TailScheme.Expr

open Value (Making)

mutual

/-- The value that a quoted tree stands for. -/
def quoted : Expr → Making Value
  | .bool value => return .bool value
  | .int value => return .int value
  | .ident name => return .symbol name
  | .list items => do
    let values ← quotedAll items
    Value.ofList values
  | .quote datum => do
    let value ← datum.quoted
    Value.ofList [.symbol "quote", value]
  | form => throw (.unquotable form.text)

/-- The values that quoted trees stand for. -/
def quotedAll : List Expr → Making (List Value)
  | [] => return []
  | item :: items => do
    let value ← item.quoted
    let values ← quotedAll items
    return value :: values

end

end TailScheme.Expr
