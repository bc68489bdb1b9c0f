import TailScheme.Text.GraphemeBreak

/-!
# Clusters

A cluster is what a reader takes for one character. A text falls apart into clusters at every
place where no rule joins the characters on both sides, and all of it is in its clusters. The
rules are those of extended grapheme clusters. They look at the next character and at the
cluster so far, which is given by the classes of its characters, the last first.
-/
namespace TailScheme.Text

namespace GraphemeBreak

/-- A character that joins with no other, except that a line feed follows a carriage return. -/
def isControl : GraphemeBreak → Bool
  | .carriageReturn | .lineFeed | .control => true
  | _ => false

/-- A mark that belongs to what stands before it, whatever that is. -/
def isMark : GraphemeBreak → Bool
  | .extend | .linker | .nonJoiner | .joiner | .spacing => true
  | _ => false

/-- A mark that may stand between a consonant and the one that is linked to it. -/
def isLinkable : GraphemeBreak → Bool
  | .extend | .linker | .joiner => true
  | _ => false

/-- A mark that may stand between a pictograph and the joiner after it. -/
def isExtending : GraphemeBreak → Bool
  | .extend | .linker | .nonJoiner => true
  | _ => false

/-- Whether the parts of a Korean syllable follow each other. -/
def continuesSyllable : GraphemeBreak → GraphemeBreak → Bool
  | .leading, .leading | .leading, .vowel | .leading, .openSyllable | .leading, .closedSyllable
  | .vowel, .vowel | .vowel, .trailing | .openSyllable, .vowel | .openSyllable, .trailing
  | .closedSyllable, .trailing | .trailing, .trailing => true
  | _, _ => false

/-- Whether the cluster ends in a consonant with a linker. -/
def awaitsConsonant (before : List GraphemeBreak) : Bool :=
  (before.takeWhile isLinkable).contains .linker
    && (before.dropWhile isLinkable).head? == some .consonant

/-- Whether the cluster ends in a pictograph with a joiner. -/
def awaitsPictograph : List GraphemeBreak → Bool
  | .joiner :: earlier => (earlier.dropWhile isExtending).head? == some .pictograph
  | _ => false

/-- Whether the cluster ends in the first regional letter of a flag. -/
def awaitsRegional (before : List GraphemeBreak) : Bool :=
  (before.takeWhile (· == .regional)).length % 2 == 1

/-- Whether the next character belongs to the cluster. -/
def joins (before : List GraphemeBreak) (next : GraphemeBreak) : Bool :=
  match before with
  | [] => false
  | last :: _ =>
    if last.isControl || next.isControl then last == .carriageReturn && next == .lineFeed
    else
      next.isMark || last == .prepended || continuesSyllable last next
        || (next == .consonant && awaitsConsonant before)
        || (next == .pictograph && awaitsPictograph before)
        || (next == .regional && awaitsRegional before)

end GraphemeBreak

/-- The clusters of a text, given the characters of the cluster before it and their classes, the
last first. -/
def clustersFrom (cluster : List Char) (before : List GraphemeBreak) :
    List Char → List (List Char)
  | [] => [cluster.reverse]
  | c :: rest =>
    let next := GraphemeBreak.ofChar c
    if GraphemeBreak.joins before next then clustersFrom (c :: cluster) (next :: before) rest
    else cluster.reverse :: clustersFrom [c] [next] rest

/-- The clusters of a text. -/
def clusters : List Char → List (List Char)
  | [] => []
  | c :: rest => clustersFrom [c] [GraphemeBreak.ofChar c] rest

theorem flatten_clustersFrom (cluster : List Char) (before : List GraphemeBreak)
    (text : List Char) :
    (clustersFrom cluster before text).flatten = cluster.reverse ++ text := by
  induction text generalizing cluster before with
  | nil => rw [clustersFrom, List.flatten_cons, List.flatten_nil]
  | cons c rest ih =>
    rw [clustersFrom]
    split
    · rw [ih, List.reverse_cons, List.append_assoc, List.singleton_append]
    · rw [List.flatten_cons, ih, List.reverse_singleton, List.singleton_append]

/-- The clusters of a text make up the text. -/
theorem flatten_clusters (text : List Char) : (clusters text).flatten = text := by
  cases text with
  | nil => rfl
  | cons c rest =>
    rw [clusters, flatten_clustersFrom, List.reverse_singleton, List.singleton_append]

end TailScheme.Text
