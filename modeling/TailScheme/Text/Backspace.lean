import TailScheme.Text.Cluster
import TailScheme.Text.Snippet

/-!
# Backspaces

A line may be typed with backspaces in it, each of which takes back the cluster before it. How
much a backspace takes back is remembered in one byte: of a cluster that takes up 256 bytes or
more it leaves what exceeds the remainder. A line without backspaces is as it was typed.
-/
namespace TailScheme.Text

/-- The control character that takes back what stands before it. -/
def backspace : Char := Char.ofNat 8

/-- A line while it is typed. -/
structure Typed where
  /-- The text that stands, the last character first. -/
  text : List Char
  /-- How many bytes the next backspaces take back, each in its turn. -/
  sizes : List Nat

/-- Drops the characters at the front that take up so many bytes. -/
def dropBytes : (bytes : Nat) → List Char → List Char
  | _, [] => []
  | bytes, c :: rest => if bytes = 0 then c :: rest else dropBytes (bytes - c.utf8Size) rest

/-- Takes in a cluster, which may be a backspace. -/
def Typed.take (typed : Typed) (cluster : List Char) : Typed :=
  if cluster = [backspace] then
    match typed.sizes with
    | [] => typed
    | size :: sizes => ⟨dropBytes size typed.text, sizes⟩
  else ⟨cluster.reverse ++ typed.text, byteSize cluster % UInt8.size :: typed.sizes⟩

/-- The line that stands in the end. -/
def settled (line : String) : String :=
  String.ofList (((clusters line.toList).foldl Typed.take ⟨[], []⟩).text.reverse)

/-- Clusters that are no backspaces are added to the text. -/
theorem text_foldl_take (typed : Typed) (added : List (List Char))
    (plain : ∀ cluster ∈ added, cluster ≠ [backspace]) :
    (added.foldl Typed.take typed).text = added.flatten.reverse ++ typed.text := by
  induction added generalizing typed with
  | nil => rfl
  | cons cluster rest ih =>
    have first := plain cluster List.mem_cons_self
    have others := fun next among => plain next (List.mem_cons_of_mem cluster among)
    rw [List.foldl_cons, ih (typed.take cluster) others, Typed.take, if_neg first,
      List.flatten_cons, List.reverse_append, List.append_assoc]

/-- A line without backspaces stands as it is. -/
theorem settled_eq_self {line : String} (plain : backspace ∉ line.toList) :
    settled line = line := by
  have whole := flatten_clusters line.toList
  have apart : ∀ cluster ∈ clusters line.toList, cluster ≠ [backspace] := by
    intro cluster among same
    apply plain
    rw [← whole, List.mem_flatten]
    exact ⟨cluster, among, same ▸ List.mem_cons_self⟩
  rw [settled, text_foldl_take ⟨[], []⟩ _ apart, whole, List.append_nil, List.reverse_reverse,
    String.ofList_toList]

end TailScheme.Text
