/-!
# Snippets of a text

A failure to read is shown with a few of the characters that stand where it happened. Places in
a text are counted in bytes of UTF-8. A snippet always fits on one line: `snippet` writes a line
feed as the two characters `\n` and drops carriage returns.
-/
namespace TailScheme.Text

/-- The number of bytes that the characters take up in UTF-8. -/
def byteSize : List Char → Nat
  | [] => 0
  | c :: rest => c.utf8Size + byteSize rest

/-- The text from byte `offset` on, if a character starts there or the text ends there. -/
def fromByte? (offset : Nat) : List Char → Option (List Char)
  | [] => if offset = 0 then some [] else none
  | c :: rest =>
    if offset = 0 then some (c :: rest)
    else if c.utf8Size ≤ offset then fromByte? (offset - c.utf8Size) rest
    else none

/-- The most characters of a text that its snippet is made from. -/
def snippetWidth : Nat := 20

/-- How a snippet shows one character. -/
def shown (c : Char) : List Char :=
  if c = '\n' then ['\\', 'n'] else if c = '\r' then [] else [c]

/-- The start of a text on one line; none if there is nothing to show. -/
def snippet (text : List Char) : Option String :=
  match (text.take snippetWidth).flatMap shown with
  | [] => none
  | line => some (String.ofList line)

/-- What is shown of a text at a byte; nothing if no character starts there. -/
def context? (text : List Char) (offset : Nat) : Option String :=
  (fromByte? offset text).bind snippet

/-- After the bytes of its front stands the rest of a text. -/
theorem fromByte?_byteSize (front rest : List Char) :
    fromByte? (byteSize front) (front ++ rest) = some rest := by
  induction front with
  | nil => cases rest <;> rfl
  | cons c front ih =>
    have some_bytes : byteSize (c :: front) ≠ 0 := by
      have positive := c.utf8Size_pos
      rw [byteSize]
      omega
    rw [List.cons_append, fromByte?, if_neg some_bytes, byteSize, if_pos (Nat.le_add_right _ _),
      Nat.add_sub_cancel_left, ih]

/-- After the bytes of its front, the rest of a text is shown. -/
theorem context?_byteSize (front rest : List Char) :
    context? (front ++ rest) (byteSize front) = snippet rest := by
  rw [context?, fromByte?_byteSize, Option.bind_some]

/-- Sizes add up along a text. -/
theorem byteSize_append (first second : List Char) :
    byteSize (first ++ second) = byteSize first + byteSize second := by
  induction first with
  | nil => rw [List.nil_append, byteSize, Nat.zero_add]
  | cons c rest ih => rw [List.cons_append, byteSize, ih, byteSize, Nat.add_assoc]

/-- The characters of a string take up its bytes. -/
theorem byteSize_ofList (chars : List Char) :
    byteSize chars = (String.ofList chars).utf8ByteSize := by
  induction chars with
  | nil => rfl
  | cons c rest ih =>
    rw [byteSize, ih, String.ofList_cons, String.utf8ByteSize_append, String.utf8ByteSize_singleton]

/-- A string has the size of its characters. -/
theorem byteSize_toList (text : String) : byteSize text.toList = text.utf8ByteSize := by
  rw [byteSize_ofList, String.ofList_toList]

end TailScheme.Text
