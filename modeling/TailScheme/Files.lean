/-!
# Files

What reading a file comes to: a text, or the reason why there is none. The system tells the
reason by a number, unless the bytes of the file are no text.
-/
namespace TailScheme

/-- Why a file gives no text. -/
inductive FileFailure where
  /-- There is nothing under the path. -/
  | missing
  /-- The path leads where the program may not go. -/
  | denied
  /-- The path goes on after a file. -/
  | notDirectory
  /-- The path leads to a directory. -/
  | directory
  /-- The path or a name in it is too long. -/
  | nameTooLong
  /-- The links on the path lead in a circle. -/
  | tooManyLinks
  /-- The bytes of the file are not UTF-8. -/
  | notText
  /-- The system reports something else. -/
  | other (reason : String)

namespace FileFailure

/-- The failure to which the system gives this number. -/
def ofNumber? : Nat → Option FileFailure
  | 2 => some .missing
  | 13 => some .denied
  | 20 => some .notDirectory
  | 21 => some .directory
  | 36 => some .nameTooLong
  | 40 => some .tooManyLinks
  | _ => none

/-- The failure in words. -/
def message : FileFailure → String
  | .missing => "No such file or directory (os error 2)"
  | .denied => "Permission denied (os error 13)"
  | .notDirectory => "Not a directory (os error 20)"
  | .directory => "Is a directory (os error 21)"
  | .nameTooLong => "File name too long (os error 36)"
  | .tooManyLinks => "Too many levels of symbolic links (os error 40)"
  | .notText => "stream did not contain valid UTF-8"
  | .other reason => reason

end FileFailure

/-- The text of a file with these bytes. -/
def decodeFile (bytes : ByteArray) : Except FileFailure String :=
  match String.fromUTF8? bytes with
  | some text => .ok text
  | none => .error .notText

end TailScheme
