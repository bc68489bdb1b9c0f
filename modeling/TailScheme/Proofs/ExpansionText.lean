import TailScheme.Proofs.Expansion
import TailScheme.Proofs.RoundTrip

/-!
# Expansion keeps the printed form

A special form prints as the list that it was written as, so a tree and its expansion are the same
text. This is shown layer by layer: if the parts print as before, so does the whole. Reading that
text gives back the tree that was expanded, and never the expansion itself.
-/
namespace TailScheme.Expr

open List (Forall₂)

/-- The two trees print alike. -/
def PrintsAs (e tree : Expr) : Prop := tree.chars = e.chars

section

variable {items trees clauses : List Expr} {branches : List Branch}

/-- In front of other trees, a tree is followed by a space. -/
theorem allChars_cons (item : Expr) (nonempty : items ≠ []) :
    allChars (item :: items) = item.chars ++ ' ' :: allChars items := by
  obtain ⟨next, rest, rfl⟩ := List.exists_cons_of_ne_nil nonempty
  exact allChars_cons_cons item next rest

/-- Trees that print alike one by one print alike together. -/
theorem allChars_of_printsAs (each : Forall₂ PrintsAs items trees) :
    allChars trees = allChars items := by
  induction each with
  | nil => rfl
  | @cons item tree items trees same each ih =>
    cases each with
    | nil => exact same
    | @cons next next_tree items trees next_same each =>
      rw [allChars_cons_cons, allChars_cons_cons, same, ih]

/-- The names of parameters print as the identifiers do. -/
theorem allChars_idents (names : List String) :
    allChars (names.map .ident) = namesChars names := by
  induction names with
  | nil => rfl
  | cons name names ih =>
    cases names with
    | nil => rfl
    | cons next names =>
      rw [List.map_cons, List.map_cons, allChars_cons_cons, ← List.map_cons, ih]
      rfl

/-- Clauses print as the branches that they become, each after a space. -/
theorem branchesChars_of_clauses (expansion : ClausesExpansion PrintsAs clauses branches)
    (head : Expr) : allChars (head :: clauses) = head.chars ++ branchesChars branches := by
  induction expansion generalizing head with
  | nil => simp
  | @otherwise body trees nonempty each =>
    have printed := allChars_of_printsAs each
    have written : " (else ".toList = ' ' :: '(' :: ("else".toList ++ [' ']) := by decide
    rw [allChars_cons_cons, allChars_singleton, chars_list, allChars_cons _ nonempty,
      branchesChars_otherwise, printed, written]
    simp
  | @test test guard body trees clauses branches no_else same nonempty each more ih =>
    have printed := allChars_of_printsAs each
    rw [allChars_cons_cons, ih, chars_list, allChars_cons _ nonempty, branchesChars_test, printed,
      same]
    simp

/-- Branches that become others print alike. -/
theorem branchesChars_of_branches {trees : List Branch}
    (each : Forall₂ (BranchExpansion PrintsAs) branches trees) :
    branchesChars trees = branchesChars branches := by
  induction each with
  | nil => rfl
  | cons expansion each ih =>
    cases expansion with
    | otherwise body =>
      rw [branchesChars_otherwise, branchesChars_otherwise, allChars_of_printsAs body, ih]
    | test same body =>
      rw [branchesChars_test, branchesChars_test, allChars_of_printsAs body, same, ih]

end

section

variable {e tree : Expr}

/-- If the parts print as before, so does the whole. -/
theorem printsAs_of_layer (expansion : Expansion PrintsAs e tree) : e.PrintsAs tree := by
  unfold PrintsAs
  cases expansion with
  | bool value => rfl
  | int value => rfl
  | ident free => rfl
  | quote datum => rfl
  | application free each =>
    rw [chars_list, chars_list, allChars_of_printsAs each]
  | quoteForm datum =>
    have written : "(quote ".toList = '(' :: ("quote".toList ++ [' ']) := by decide
    rw [chars_quote, written]
    simp
  | @defineForm name value tree free same valued =>
    have written : "(define ".toList = '(' :: ("define".toList ++ [' ']) := by decide
    rw [chars_define, written, same]
    simp
  | @setForm name value tree free same valued =>
    have written : "(set! ".toList = '(' :: ("set!".toList ++ [' ']) := by decide
    rw [chars_set, written, same]
    simp
  | @lambdaForm params body trees distinct free nonempty each =>
    have written : "(lambda (".toList = '(' :: ("lambda".toList ++ [' ', '(']) := by decide
    rw [chars_lambda, chars_list, allChars_cons_cons, allChars_cons _ nonempty, chars_list,
      allChars_idents, allChars_of_printsAs each, written]
    simp
  | condForm each =>
    have written : "(cond".toList = '(' :: "cond".toList := by decide
    rw [chars_cond, chars_list, branchesChars_of_clauses each, written]
    simp
  | define same valued =>
    rw [chars_define, chars_define, same]
  | set same valued =>
    rw [chars_set, chars_set, same]
  | lambda each =>
    rw [chars_lambda, chars_lambda, allChars_of_printsAs each]
  | cond each =>
    rw [chars_cond, chars_cond, branchesChars_of_branches each]

/-- An expansion prints as the tree that was expanded. -/
theorem text_of_expandsTo (expands : e.ExpandsTo tree) : tree.text = e.text := by
  have same : e.PrintsAs tree := expand_induction (fun _ _ => printsAs_of_layer) expands
  rw [text, same, text]

end

/-- Expansion never changes the printed program, whatever is expanded. So for a program that is
read and expanded, the text of the expansion is read as the program itself, with comments or
without them, and what is read there expands to the same again. -/
theorem text_expand_eq :
    (∀ e tree : Expr, e.expand = .ok tree → tree.text = e.text) ∧
    ∀ comments source raw tree, Reader.single comments source = .ok raw →
      raw.expand = .ok tree → ∀ other, Reader.single other tree.text = .ok raw ∧
        ∀ again, Reader.single other tree.text = .ok again → again.expand = .ok tree := by
  constructor
  · intro e tree expands
    exact text_of_expandsTo expands
  · intro comments source raw tree read expands other
    have back : Reader.single other tree.text = .ok raw := by
      rw [text_of_expandsTo expands]
      exact single_text_of_readable (readable_of_single read) other
    refine ⟨back, ?_⟩
    intro again read_again
    obtain rfl := Except.ok.inj (back.symm.trans read_again)
    exact expands

/-- A typed procedure with a raw quotation in it prints as before, and a program with a quote mark,
a comment and a final branch is read back from the text of its expansion. -/
theorem text_expand_eq_of_branches :
    ((lambda ["y"] [.list [.ident "quote", .ident "cond"]]).expand =
        .ok (.lambda ["y"] [.quote (.ident "cond")]) ∧
      (lambda ["y"] [.quote (.ident "cond")]).text =
        (lambda ["y"] [.list [.ident "quote", .ident "cond"]]).text) ∧
    (Reader.single true "(cond (x 'else) ; or\n (else 1))" = .ok (.list [.ident "cond",
        .list [.ident "x", .list [.ident "quote", .ident "else"]],
        .list [.ident "else", .int 1]]) ∧
      Reader.single false "(cond (x (quote else)) (else 1))" = .ok (.list [.ident "cond",
        .list [.ident "x", .list [.ident "quote", .ident "else"]],
        .list [.ident "else", .int 1]])) := by
  have procedure : (lambda ["y"] [.list [.ident "quote", .ident "cond"]]).expand =
      .ok (.lambda ["y"] [.quote (.ident "cond")]) := rfl
  have read : Reader.single true "(cond (x 'else) ; or\n (else 1))" = .ok (.list [.ident "cond",
      .list [.ident "x", .list [.ident "quote", .ident "else"]],
      .list [.ident "else", .int 1]]) := by decide +kernel
  have expands : (list [.ident "cond",
      .list [.ident "x", .list [.ident "quote", .ident "else"]],
      .list [.ident "else", .int 1]]).expand =
        .ok (.cond [.test (.ident "x") [.quote (.ident "else")], .otherwise [.int 1]]) := rfl
  have same_text := text_expand_eq.1 _ _ procedure
  have back := (text_expand_eq.2 _ _ _ _ read expands false).1
  exact ⟨⟨procedure, same_text⟩, read, back⟩

end TailScheme.Expr
