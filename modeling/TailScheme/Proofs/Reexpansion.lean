import TailScheme.Proofs.WellFormed

/-!
# Expanding again

Expansion leaves nothing for a second one to do. `Expr.Settled` says what that means of a tree by
itself: outside quoted data no keyword is left, so no list is a form, and no definition stands where
a value belongs. Nothing is asked of parameters and of branches without a test, which are checked
only where they are written as lists. Every expansion is settled, whatever tree it comes from
(`settled_of_expandsTo`), and a settled tree expands to itself (`Settled.expandsTo_self`).
-/
namespace TailScheme.Expr

open List (Forall₂)

/-- The trees in which there is nothing to expand. A list needs no rule for its head: a keyword is
not settled by itself. -/
inductive Settled : Expr → Prop where
  | bool (value : Bool) : Settled (.bool value)
  | int (value : Int64) : Settled (.int value)
  | ident {name : String} (free : IsFree name) : Settled (.ident name)
  | application {items : List Expr} (each : ∀ item ∈ items, item.Settled) : Settled (.list items)
  | quote (datum : Expr) : Settled (.quote datum)
  | define {name : String} {value : Expr} (inner : value.Settled) (valued : ¬value.IsDefinition) :
      Settled (.define name value)
  | set {name : String} {value : Expr} (inner : value.Settled) (valued : ¬value.IsDefinition) :
      Settled (.set name value)
  | lambda {params : List String} {body : List Expr} (each : ∀ item ∈ body, item.Settled) :
      Settled (.lambda params body)
  | cond {branches : List Branch}
      (tests : ∀ branch ∈ branches, ∀ guard ∈ branch.guard?, guard.Settled)
      (bodies : ∀ branch ∈ branches, ∀ item ∈ branch.body, item.Settled) :
      Settled (.cond branches)

section

variable {e tree : Expr} {items trees clauses : List Expr} {branches : List Branch}

/-- The trees that a list becomes are settled if each of them is. -/
theorem settled_of_each (each : Forall₂ (fun _ tree => tree.Settled) items trees) :
    ∀ tree ∈ trees, tree.Settled :=
  forall_mem_of_each each.flip fun _ _ settled => settled

/-- One more branch is settled if its test and its body are. -/
theorem settled_cond_cons {branch : Branch} (test : ∀ guard ∈ branch.guard?, guard.Settled)
    (body : ∀ item ∈ branch.body, item.Settled) (rest : (cond branches).Settled) :
    (cond (branch :: branches)).Settled := by
  cases rest with
  | cond tests bodies =>
    apply Settled.cond
    · exact List.forall_mem_cons.mpr ⟨test, tests⟩
    · exact List.forall_mem_cons.mpr ⟨body, bodies⟩

/-- No branches are settled. -/
theorem settled_cond_nil : (cond []).Settled :=
  .cond (List.forall_mem_nil _) (List.forall_mem_nil _)

/-- The branches that clauses become are settled if their parts are. -/
theorem settled_of_clauses
    (expansion : ClausesExpansion (fun _ tree => tree.Settled) clauses branches) :
    (cond branches).Settled := by
  induction expansion with
  | nil => exact settled_cond_nil
  | otherwise nonempty each =>
    have body := settled_of_each each
    exact settled_cond_cons (by simp [Branch.guard?]) body settled_cond_nil
  | test no_else test nonempty each more ih =>
    have body := settled_of_each each
    exact settled_cond_cons (by simpa [Branch.guard?] using test) body ih

/-- The branches that expanded branches become are settled if their parts are. -/
theorem settled_of_branches {others : List Branch}
    (each : Forall₂ (BranchExpansion fun _ tree => tree.Settled) branches others) :
    (cond others).Settled := by
  induction each with
  | nil => exact settled_cond_nil
  | cons expansion more ih =>
    cases expansion with
    | otherwise each =>
      have body := settled_of_each each
      exact settled_cond_cons (by simp [Branch.guard?]) body ih
    | test test each =>
      have body := settled_of_each each
      exact settled_cond_cons (by simpa [Branch.guard?] using test) body ih

/-- If the parts become settled trees, so does the whole. -/
theorem settled_of_layer (expansion : Expansion (fun _ tree => tree.Settled) e tree) :
    tree.Settled := by
  cases expansion with
  | bool value => exact .bool value
  | int value => exact .int value
  | ident free => exact .ident free
  | application free each => exact .application (settled_of_each each)
  | quoteForm datum | quote datum => exact .quote datum
  | defineForm free inner valued => exact .define inner valued
  | define inner valued => exact .define inner valued
  | setForm free inner valued => exact .set inner valued
  | set inner valued => exact .set inner valued
  | lambdaForm distinct free nonempty each => exact .lambda (settled_of_each each)
  | lambda each => exact .lambda (settled_of_each each)
  | condForm each => exact settled_of_clauses each
  | cond each => exact settled_of_branches each

/-- Every expansion is settled. -/
theorem settled_of_expandsTo (expands : e.ExpandsTo tree) : tree.Settled :=
  expand_induction (fun _ _ => settled_of_layer) expands

/-- Branches whose parts expand to themselves do so too. -/
theorem branches_expand_to_self
    (tests : ∀ branch ∈ branches, ∀ guard ∈ branch.guard?, guard.ExpandsTo guard)
    (bodies : ∀ branch ∈ branches, ∀ item ∈ branch.body, item.ExpandsTo item) :
    Forall₂ (BranchExpansion ExpandsTo) branches branches := by
  apply List.forall₂_same.mpr
  intro branch among
  have body : Forall₂ ExpandsTo branch.body branch.body :=
    List.forall₂_same.mpr (bodies branch among)
  cases branch with
  | otherwise items => exact .otherwise body
  | test guard items =>
    have test := tests _ among guard rfl
    exact .test test body

/-- A settled tree expands to itself. -/
theorem Settled.expandsTo_self (settled : e.Settled) : e.ExpandsTo e := by
  apply expandsTo_iff.mpr
  induction settled with
  | bool value => exact .bool value
  | int value => exact .int value
  | ident free => exact .ident free
  | @application items each ih =>
    have head_free : ∀ name, items.head? = some (.ident name) → IsFree name := by
      intro name head
      cases each _ (List.mem_of_head? head) with
      | ident free => exact free
    have each_expands : ∀ item ∈ items, item.ExpandsTo item :=
      fun item among => expandsTo_iff.mpr (ih item among)
    exact .application head_free (List.forall₂_same.mpr each_expands)
  | quote datum => exact .quote datum
  | define inner valued ih => exact .define (expandsTo_iff.mpr ih) valued
  | set inner valued ih => exact .set (expandsTo_iff.mpr ih) valued
  | @lambda params body each ih =>
    have each_expands : ∀ item ∈ body, item.ExpandsTo item :=
      fun item among => expandsTo_iff.mpr (ih item among)
    exact .lambda (List.forall₂_same.mpr each_expands)
  | cond tests bodies tests_ih bodies_ih =>
    apply Expansion.cond
    apply branches_expand_to_self
    · exact fun branch among guard tested => expandsTo_iff.mpr (tests_ih branch among guard tested)
    · exact fun branch among item inside => expandsTo_iff.mpr (bodies_ih branch among item inside)

end

/-- A second expansion changes nothing, whatever tree the first one came from. -/
theorem expand_of_expand {e tree : Expr} (expands : e.expand = .ok tree) :
    tree.expand = .ok tree := by
  have settled : tree.Settled := settled_of_expandsTo expands
  exact settled.expandsTo_self

/-- A procedure with the same parameter twice and an `else` in the middle, both as nodes, keeps them
in the first expansion, which turns only what is still a list into nodes, and in the second. -/
theorem expand_of_expand_mixed :
    (list [.ident "define", .ident "f", .lambda ["x", "x"] [.cond [
      .otherwise [.list [.ident "quote", .list [.ident "define"]]],
      .test (.bool true) [.list [.ident "set!", .ident "x", .int 1]]]]]).expand =
      .ok (.define "f" (.lambda ["x", "x"] [.cond [
        .otherwise [.quote (.list [.ident "define"])],
        .test (.bool true) [.set "x" (.int 1)]]])) ∧
    (define "f" (.lambda ["x", "x"] [.cond [
      .otherwise [.quote (.list [.ident "define"])],
      .test (.bool true) [.set "x" (.int 1)]]])).expand =
      .ok (.define "f" (.lambda ["x", "x"] [.cond [
        .otherwise [.quote (.list [.ident "define"])],
        .test (.bool true) [.set "x" (.int 1)]]])) := by
  have first : (list [.ident "define", .ident "f", .lambda ["x", "x"] [.cond [
      .otherwise [.list [.ident "quote", .list [.ident "define"]]],
      .test (.bool true) [.list [.ident "set!", .ident "x", .int 1]]]]]).expand =
      .ok (.define "f" (.lambda ["x", "x"] [.cond [
        .otherwise [.quote (.list [.ident "define"])],
        .test (.bool true) [.set "x" (.int 1)]]])) := rfl
  exact ⟨first, expand_of_expand first⟩

end TailScheme.Expr
