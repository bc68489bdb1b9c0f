/-!
# Blank characters

A blank is a character with the Unicode property `White_Space`. Only four of them separate
tokens of a program; all of them make a line of input empty, and a program text that fails
where nothing but blanks is left counts as unfinished.
-/
namespace TailScheme.Text

/-- A white-space character of any script. -/
def isBlank (c : Char) : Bool :=
  let code := c.toNat
  (9 ≤ code && code ≤ 13) || code = 0x20 || code = 0x85 || code = 0xA0 || code = 0x1680
    || (0x2000 ≤ code && code ≤ 0x200A) || code = 0x2028 || code = 0x2029 || code = 0x202F
    || code = 0x205F || code = 0x3000

/-- The text without the blanks at either end. -/
def trim (text : String) : String :=
  let kept := text.toList.dropWhile isBlank
  String.ofList (kept.reverse.dropWhile isBlank).reverse

end TailScheme.Text
