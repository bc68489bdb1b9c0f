import TailScheme.Proofs.Following
import Mathlib.Data.List.Forall2

/-!
# One expression after the other

A reader hands out the expressions of its source in order, each as the reader for one expression
reads it from the piece of the source that the call went over, and stays at the end once it has
come there. Which expressions a text has is said by the grammar: a text is read without failure as
these expressions if and only if it is a sequence of data for them (`Reader.items_eq_ok_iff`).
-/
namespace TailScheme

open Reader Grammar

namespace Grammar

variable {comments : Bool} {text first last : List Char} {e : Expr}

/-- A datum with the trivia in front of it is cut out of its text. -/
theorem exists_piece (trivia : Trivia comments text first) (datum : Datum comments 0 first e last) :
    ∃ piece, text = piece ++ last ∧ Program comments piece e := by
  have data : Data comments 0 text [e] last := .datum trivia datum (.none last)
  obtain ⟨piece, whole, alike⟩ := data.exists_front
  have alone := alike [] fun _ => delimited_nil
  rw [List.append_nil] at alone
  exact ⟨piece, whole, sequence_singleton_iff.mp ⟨[], alone, .none []⟩⟩

/-- A text that is one datum is not empty. -/
theorem Program.ne_nil (program : Program comments text e) : text ≠ [] := by
  rintro rfl
  obtain ⟨first, last, trivia, datum, -⟩ := program
  obtain ⟨c, tail, rfl, -⟩ := datum.exists_cons
  obtain ⟨front, whole⟩ := trivia.exists_front
  simp at whole

end Grammar

namespace Reader

/-- What successive calls hand out, each with the byte at which the unread text starts after it. -/
def calls : (count : Nat) → Reader → List (Option (Except ReadError Expr) × Nat)
  | 0, _ => []
  | count + 1, reader => (reader.next.1, reader.next.2.offset) :: calls count reader.next.2

/-- The bytes at which the pieces of a text end, when the first one starts at byte `start`. -/
def ends (start : Nat) : List String → List Nat
  | [] => []
  | piece :: pieces => (start + piece.utf8ByteSize) :: ends (start + piece.utf8ByteSize) pieces

/-- A call comes to the end, fails, or hands out the datum that comes after the trivia. -/
theorem next_cases (reader : Reader) :
    (skipTrivia reader.comments reader.rest = [] ∧
        reader.next = (none, { reader with rest := [] })) ∨
      (∃ failure, skipTrivia reader.comments reader.rest ≠ [] ∧
        datum reader.comments nestingLimit (skipTrivia reader.comments reader.rest) =
          .error failure ∧
        reader.next = (some (.error (failure.report reader.source)), { reader with rest := [] })) ∨
      ∃ first e last, Trivia reader.comments reader.rest first ∧
        Datum reader.comments 0 first e last ∧
        reader.next = (some (.ok e), { reader with rest := last }) := by
  have trivia := trivia_skipTrivia reader.comments reader.rest
  unfold Reader.next
  split
  · next ends => exact .inl ⟨ends, rfl⟩
  · next c rest start =>
    rw [start] at trivia ⊢
    split
    · next failure failed => exact .inr (.inl ⟨failure, List.cons_ne_nil c rest, failed, rfl⟩)
    · next e last shorter read =>
      have datum := datum_of_reads (Nat.add_zero nestingLimit) ⟨shorter, read⟩
      exact .inr (.inr ⟨_, e, last, trivia, datum, rfl⟩)

/-- A call does not change the source. -/
theorem source_next (reader : Reader) : reader.next.2.source = reader.source := by
  rcases reader.next_cases with ⟨-, next⟩ | ⟨failure, -, -, next⟩ | ⟨_, e, last, -, -, next⟩ <;>
    rw [next]

/-- A call that hands out no expression leaves the reader at the end. -/
theorem rest_next_eq_nil {reader : Reader} (no_expr : ∀ e, reader.next.1 ≠ some (.ok e)) :
    reader.next.2.rest = [] := by
  rcases reader.next_cases with ⟨-, next⟩ | ⟨failure, -, -, next⟩ | ⟨_, e, last, -, -, next⟩
  · rw [next]
  · rw [next]
  · exact absurd (congrArg Prod.fst next) (no_expr e)

/-- At the end every call gives the end. -/
theorem calls_at_end {reader : Reader} (at_end : reader.rest = []) (count : Nat) :
    reader.calls count = List.replicate count (none, Text.byteSize reader.source) := by
  have next : reader.next = (none, reader) := by
    obtain ⟨comments, source, rest⟩ := reader
    obtain rfl : rest = [] := at_end
    rfl
  have offset : reader.offset = Text.byteSize reader.source := by
    rw [Reader.offset, at_end, Text.byteSize, Nat.sub_zero]
  induction count with
  | zero => rfl
  | succ count ih => rw [calls, next, ih, offset, List.replicate_succ]

/-- After a call that hands out no expression, every call gives the end. -/
theorem calls_after_end {reader : Reader} {count offset : Nat}
    {before after : List (Option (Except ReadError Expr) × Nat)}
    {handed : Option (Except ReadError Expr)}
    (calls : reader.calls count = before ++ (handed, offset) :: after)
    (no_expr : ∀ e, handed ≠ some (.ok e)) :
    offset = Text.byteSize reader.source ∧
      ∀ call ∈ after, call = (none, Text.byteSize reader.source) := by
  induction before generalizing reader count with
  | nil =>
    cases count with
    | zero => cases calls
    | succ count =>
      obtain ⟨same, later⟩ := List.cons.inj calls
      obtain ⟨rfl, rfl⟩ := Prod.mk.inj same
      have at_end := rest_next_eq_nil no_expr
      rw [calls_at_end at_end, source_next] at later
      constructor
      · rw [Reader.offset, at_end, source_next, Text.byteSize, Nat.sub_zero]
      · intro call member
        rw [← later] at member
        exact List.eq_of_mem_replicate member
  | cons call before ih =>
    cases count with
    | zero => cases calls
    | succ count =>
      have later := ih (List.cons.inj calls).2
      rwa [source_next] at later

/-- Where no expression follows, nothing is handed out. -/
theorem items_of_next_none {reader later : Reader} (next : reader.next = (none, later)) :
    reader.items = [] := by
  rw [items]
  split
  · rfl
  · next found =>
    rw [next] at found
    cases found

/-- What the next call hands out comes before what the later ones do. -/
theorem items_of_next_some {reader later : Reader} {item : Except ReadError Expr}
    (next : reader.next = (some item, later)) : reader.items = item :: later.items := by
  rw [items]
  split
  · next found =>
    rw [next] at found
    cases found
  · next found =>
    rw [next] at found
    cases found
    rfl

/-- A failure is the last that is handed out. -/
theorem items_of_failure {reader : Reader} {failure : Failure}
    (more : skipTrivia reader.comments reader.rest ≠ [])
    (failed : datum reader.comments nestingLimit (skipTrivia reader.comments reader.rest) =
      .error failure) : reader.items = [.error (failure.report reader.source)] := by
  have next : reader.next =
      (some (.error (failure.report reader.source)), { reader with rest := [] }) := by
    obtain ⟨c, tail, start⟩ := List.exists_cons_of_ne_nil more
    rw [start] at failed
    unfold Reader.next
    simp only [start, failed]
  rw [items_of_next_some next]
  exact congrArg _ (items_of_next_none rfl)

/-- A source has no more items than characters. -/
theorem length_items_le (reader : Reader) : reader.items.length ≤ reader.rest.length := by
  fun_induction items reader with
  | case1 reader later found => exact Nat.zero_le _
  | case2 reader item later found shorter ih =>
    rw [List.length_cons]
    omega

/-- The items are what the calls up to the first end hand out. -/
theorem items_eq_iff {reader : Reader} {found : List (Except ReadError Expr)} :
    reader.items = found ↔
      (reader.calls (found.length + 1)).map Prod.fst = found.map some ++ [none] := by
  constructor
  · rintro rfl
    fun_induction items reader with
    | case1 reader later next => simp [calls, next]
    | case2 reader item later next shorter ih =>
      rw [List.length_cons, calls, next, List.map_cons, ih, List.map_cons, List.cons_append]
  · intro handed
    induction found generalizing reader with
    | nil => exact items_of_next_none (Prod.ext (List.cons.inj handed).1 rfl)
    | cons item found ih =>
      obtain ⟨first, later⟩ := List.cons.inj handed
      rw [items_of_next_some (Prod.ext first rfl), ih later]

/-- Data are handed out. -/
theorem items_of_data {comments : Bool} {source text rest : List Char} {es : List Expr}
    (data : Data comments 0 text es rest) :
    items ⟨comments, source, text⟩ = es.map .ok ++ items ⟨comments, source, rest⟩ := by
  induction data with
  | none rest => rfl
  | @datum text first later rest e es trivia datum _ ih =>
    have next : Reader.next ⟨comments, source, text⟩ =
        (some (.ok e), ⟨comments, source, later⟩) :=
      next_eq_ok_iff.mpr ⟨first, later, trivia, datum, rfl⟩
    rw [items_of_next_some next, ih, List.map_cons, List.cons_append]

/-- What a reader hands out are data, and after them there is nothing but trivia or a failure. -/
theorem items_cases (reader : Reader) :
    ∃ es rest, Data reader.comments 0 reader.rest es rest ∧
      (Trivia reader.comments rest [] ∧ reader.items = es.map .ok ∨
        ∃ failure, skipTrivia reader.comments rest ≠ [] ∧
          datum reader.comments nestingLimit (skipTrivia reader.comments rest) = .error failure ∧
          reader.items = es.map .ok ++ [.error (failure.report reader.source)]) := by
  fun_induction items reader with
  | case1 reader later found =>
    rcases reader.next_cases with ⟨ends, next⟩ | ⟨failure, -, -, next⟩ | ⟨_, e, last, -, -, next⟩
    · exact ⟨[], reader.rest, .none _, .inl ⟨trivia_to_end_iff.mpr ends, rfl⟩⟩
    all_goals
      rw [next] at found
      cases found
  | case2 reader item later found shorter ih =>
    rcases reader.next_cases with ⟨ends, next⟩ | ⟨failure, more, failed, next⟩ |
      ⟨first, e, last, trivia, datum, next⟩
    · rw [next] at found
      cases found
    · rw [next] at found
      cases found
      have nothing : items { reader with rest := [] } = [] := items_of_next_none rfl
      exact ⟨[], reader.rest, .none _, .inr ⟨failure, more, failed, congrArg _ nothing⟩⟩
    · rw [next] at found
      cases found
      obtain ⟨es, rest, data, rest_of_text⟩ := ih
      refine ⟨e :: es, rest, .datum trivia datum data, ?_⟩
      rcases rest_of_text with ⟨ends, items⟩ | ⟨failure, more, failed, items⟩
      · exact .inl ⟨ends, by rw [items, List.map_cons]⟩
      · exact .inr ⟨failure, more, failed, by rw [items, List.map_cons, List.cons_append]⟩

/-- These expressions are handed out without failure if and only if the unread text is a sequence of
data for them. -/
theorem items_eq_ok_iff_sequence {comments : Bool} {source text : List Char} {es : List Expr} :
    items ⟨comments, source, text⟩ = es.map .ok ↔ Sequence comments text es := by
  constructor
  · intro handed
    obtain ⟨found, rest, data, ⟨ends, items⟩ | ⟨failure, -, -, items⟩⟩ :=
      items_cases ⟨comments, source, text⟩
    · have same : found = es := List.map_injective_iff.mpr (fun _ _ => Except.ok.inj)
        (items.symm.trans handed)
      exact ⟨rest, same ▸ data, ends⟩
    · have failed : .error (failure.report source) ∈ es.map (Except.ok (ε := ReadError)) := by
        rw [← handed, items]
        simp
      simp at failed
  · rintro ⟨rest, data, ends⟩
    have next : Reader.next ⟨comments, source, rest⟩ = (none, ⟨comments, source, []⟩) := by
      rw [Reader.next]
      simp only [trivia_to_end_iff.mp ends]
    have nothing := items_of_next_none next
    rw [items_of_data data, nothing, List.append_nil]

/-- A text is read without failure as these expressions if and only if it is a sequence of data
for them. -/
theorem items_eq_ok_iff {comments : Bool} {text : String} {es : List Expr} :
    (ofString comments text).items = es.map .ok ↔ Sequence comments text.toList es :=
  items_eq_ok_iff_sequence

/-- Expressions handed out by successive calls are cut out of the source by the offsets. -/
theorem pieces_of_calls {reader : Reader} {front : List Char} {found : List (Expr × Nat)}
    {last : Nat} (whole : reader.source = front ++ reader.rest)
    (handed : reader.calls (found.length + 1) =
      found.map (fun (e, offset) => (some (.ok e), offset)) ++ [(none, last)]) :
    ∃ pieces rest, reader.rest = (String.join pieces).toList ++ rest ∧
      List.Forall₂ (fun piece e => single reader.comments piece = .ok e) pieces
        (found.map Prod.fst) ∧
      found.map Prod.snd = ends (Text.byteSize front) pieces ∧
      Trivia reader.comments rest [] := by
  induction found generalizing reader front with
  | nil =>
    obtain ⟨finished, -⟩ := Prod.mk.inj (List.cons.inj handed).1
    rcases reader.next_cases with ⟨ended, -⟩ | ⟨failure, -, -, next⟩ | ⟨_, e, rest, -, -, next⟩
    · exact ⟨[], reader.rest, by simp, .nil, rfl, trivia_to_end_iff.mpr ended⟩
    all_goals
      rw [next] at finished
      cases finished
  | cons call found ih =>
    obtain ⟨e, offset⟩ := call
    obtain ⟨first, later⟩ := List.cons.inj handed
    obtain ⟨given, there⟩ := Prod.mk.inj first
    obtain ⟨start, rest, trivia, datum, next⟩ :=
      next_eq_ok_iff.mp (Prod.ext given rfl : reader.next = (some (.ok e), reader.next.2))
    obtain ⟨piece, taken, program⟩ := exists_piece trivia datum
    rw [next] at later there
    have whole_later : reader.source = (front ++ piece) ++ rest := by
      rw [whole, taken, List.append_assoc]
    obtain ⟨pieces, last_rest, joined, single, offsets, ends⟩ :=
      @ih { reader with rest := rest } (front ++ piece) whole_later later
    have size : (String.ofList piece).utf8ByteSize = Text.byteSize piece :=
      (Text.byteSize_ofList piece).symm
    refine ⟨String.ofList piece :: pieces, last_rest, ?_, .cons ?_ single, ?_, ends⟩
    · rw [String.join_cons, String.toList_append, String.toList_ofList, List.append_assoc, ← joined,
        taken]
    · exact single_of_program (by rwa [String.toList_ofList])
    · have read : offset = Text.byteSize front + Text.byteSize piece := by
        rw [← there, Reader.offset, whole_later]
        simp only [Text.byteSize_append]
        omega
      rw [List.map_cons, offsets, Text.byteSize_append, Reader.ends, size, read]

/-- The ends of pieces that are one expression each increase. -/
theorem pairwise_ends {comments : Bool} {pieces : List String} {es : List Expr}
    (each : List.Forall₂ (fun piece e => single comments piece = .ok e) pieces es) (start : Nat) :
    (start :: ends start pieces).Pairwise (· < ·) := by
  induction each generalizing start with
  | nil => exact List.pairwise_singleton _ start
  | @cons piece e pieces es read _ ih =>
    have nonempty : piece ≠ "" := by
      rintro rfl
      exact (program_of_single read).ne_nil rfl
    have size : 0 < piece.utf8ByteSize :=
      Nat.pos_of_ne_zero fun empty => nonempty (String.utf8ByteSize_eq_zero_iff.mp empty)
    have later := ih (start + piece.utf8ByteSize)
    rw [ends, List.pairwise_cons]
    refine ⟨?_, later⟩
    intro offset member
    rcases List.mem_cons.mp member with rfl | member
    · omega
    · have after := List.rel_of_pairwise_cons later member
      omega

/-- Texts that are one expression each are a sequence when they are joined by line feeds. -/
theorem sequence_of_singles {comments : Bool} {texts : List String} {es : List Expr}
    (each : List.Forall₂ (fun text e => single comments text = .ok e) texts es) :
    Sequence comments ("\n".intercalate texts).toList es := by
  induction each with
  | nil => exact ⟨[], .none [], .none []⟩
  | @cons text e texts es read later ih =>
    have first := sequence_singleton_iff.mpr (program_of_single read)
    cases later with
    | nil => rwa [String.intercalate_singleton]
    | @cons next _ texts _ _ _ =>
      rw [String.intercalate_cons_cons, String.toList_append, String.toList_append,
        List.append_assoc]
      exact ih.after_feed first

end Reader

/-- A reader and the reading of one expression agree. If successive calls hand out expressions and
then come to the end, the offsets increase, the piece of the text up to each of them is read as
its expression alone, and only trivia is left; texts that are read as one expression each are, as
the lines of one text, handed out in order; and a call that hands out no expression comes to the
end of the text for good, which happens after no more calls than the text has characters. -/
theorem successive_reading (comments : Bool) :
    (∀ (text : String) (found : List (Expr × Nat)) (last : Nat),
      (ofString comments text).calls (found.length + 1) =
          found.map (fun (e, offset) => (some (.ok e), offset)) ++ [(none, last)] →
        (0 :: found.map Prod.snd).Pairwise (· < ·) ∧
          ∃ pieces rest, text = String.join pieces ++ rest ∧
            List.Forall₂ (fun piece e => single comments piece = .ok e) pieces
              (found.map Prod.fst) ∧
            found.map Prod.snd = ends 0 pieces ∧ Trivia comments rest.toList []) ∧
      (∀ (texts : List String) (es : List Expr),
        List.Forall₂ (fun text e => single comments text = .ok e) texts es →
          ((ofString comments ("\n".intercalate texts)).calls (es.length + 1)).map Prod.fst =
            es.map (fun e => some (.ok e)) ++ [none]) ∧
      ∀ text : String,
        (∀ count before handed offset after,
          (ofString comments text).calls count = before ++ (handed, offset) :: after →
            (∀ e, handed ≠ some (.ok e)) →
              offset = text.utf8ByteSize ∧ ∀ call ∈ after, call = (none, text.utf8ByteSize)) ∧
          (ofString comments text).items.length ≤ text.length ∧
            ((ofString comments text).calls ((ofString comments text).items.length + 1)).map
              Prod.fst = (ofString comments text).items.map some ++ [none] := by
  refine ⟨fun text found last handed => ?_, fun texts es each => ?_, fun text => ⟨?_, ?_⟩⟩
  · obtain ⟨pieces, rest, joined, read, offsets, ended⟩ :=
      pieces_of_calls (show _ = [] ++ _ from rfl) handed
    refine ⟨offsets ▸ pairwise_ends read 0, pieces, String.ofList rest, ?_, read, offsets, ?_⟩
    · rw [← String.toList_inj, String.toList_append, String.toList_ofList]
      exact joined
    · rwa [String.toList_ofList]
  · have items := items_eq_ok_iff.mpr (sequence_of_singles each)
    have calls := items_eq_iff.mp items
    rwa [List.length_map, List.map_map] at calls
  · intro count before handed offset after calls no_expr
    have finished := calls_after_end calls no_expr
    rwa [ofString, Text.byteSize_toList] at finished
  · exact ⟨(ofString comments text).length_items_le, items_eq_iff.mp rfl⟩

/-- An atom and a quoted atom with a comment between them. -/
theorem successive_reading_of_two :
    (∃ pieces rest, "a ; b\n'c " = String.join pieces ++ rest ∧
      List.Forall₂ (fun piece e => single true piece = .ok e) pieces
        [.ident "a", .list [.ident "quote", .ident "c"]] ∧
      [1, 8] = ends 0 pieces ∧ Trivia true rest.toList []) ∧
    ((ofString true ("\n".intercalate ["a ; b", "'c "])).calls 3).map Prod.fst =
      [some (.ok (.ident "a")), some (.ok (.list [.ident "quote", .ident "c"])), none] ∧
    ∀ call ∈ [(none, 1), (none, 1)], call = ((none : Option (Except ReadError Expr)), 1) := by
  obtain ⟨pieces, lines, calls⟩ := successive_reading true
  have handed : (ofString true "a ; b\n'c ").calls 3 =
      [(some (.ok (.ident "a")), 1), (some (.ok (.list [.ident "quote", .ident "c"])), 8),
        (none, 9)] := by decide +kernel
  have first : single true "a ; b" = .ok (.ident "a") := by decide +kernel
  have second : single true "'c " = .ok (.list [.ident "quote", .ident "c"]) := by decide +kernel
  have failed : (ofString true ")").calls 3 =
      (some (.error ⟨.unexpected 0, some ")"⟩), 1) :: [(none, 1), (none, 1)] := by decide +kernel
  exact ⟨(pieces _ [(.ident "a", 1), (.list [.ident "quote", .ident "c"], 8)] 9 handed).2,
    lines _ _ (.cons first (.cons second .nil)),
    ((calls ")").1 3 [] _ 1 _ failed (fun e same => by cases same)).2⟩

end TailScheme
