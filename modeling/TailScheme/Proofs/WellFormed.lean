import TailScheme.Proofs.Expansion

/-!
# Well-formed programs

Which raw trees are programs, said without the function that expands them (`Expr.WellFormed`), and
what expanded trees are like (`Expr.Expanded`). A raw tree expands if and only if it is well formed
(`expand_isOk_iff`). What it expands to is expanded in every part, and stands for the tree that was
written: `Expr.written` turns each node back into the list for it, with quoted data as it is.
-/
namespace TailScheme

/-- A clause of a `cond` as it is written: a head and at least one expression. -/
structure Clause where
  head : Expr
  body : List Expr
  nonempty : body ≠ []

/-- The list that a clause is written as. -/
def Clause.tree (clause : Clause) : Expr := .list (clause.head :: clause.body)

namespace Expr

open List (Forall₂)

/-- The trees that are read from texts: literals, identifiers and lists. -/
inductive Raw : Expr → Prop where
  | bool (value : Bool) : Raw (.bool value)
  | int (value : Int64) : Raw (.int value)
  | ident (name : String) : Raw (.ident name)
  | list {items : List Expr} (each : ∀ item ∈ items, item.Raw) : Raw (.list items)

/-- The tree is written as a definition. -/
def IsDefineForm (e : Expr) : Prop := ∃ rest, e = .list (.ident "define" :: rest)

/-- The raw trees that are programs. An application needs no rule for its head: a keyword is not
well formed by itself. -/
inductive WellFormed : Expr → Prop where
  | bool (value : Bool) : WellFormed (.bool value)
  | int (value : Int64) : WellFormed (.int value)
  | ident {name : String} (free : IsFree name) : WellFormed (.ident name)
  | application {items : List Expr} (each : ∀ item ∈ items, item.WellFormed) :
      WellFormed (.list items)
  | quote (datum : Expr) : WellFormed (.list [.ident "quote", datum])
  | define {name : String} {value : Expr} (free : IsFree name) (inner : value.WellFormed)
      (valued : ¬value.IsDefineForm) : WellFormed (.list [.ident "define", .ident name, value])
  | set {name : String} {value : Expr} (free : IsFree name) (inner : value.WellFormed)
      (valued : ¬value.IsDefineForm) : WellFormed (.list [.ident "set!", .ident name, value])
  | lambda {params : List String} {body : List Expr} (distinct : params.Nodup)
      (free : ∀ name ∈ params, IsFree name) (nonempty : body ≠ [])
      (each : ∀ item ∈ body, item.WellFormed) :
      WellFormed (.list (.ident "lambda" :: .list (params.map .ident) :: body))
  | cond {clauses : List Clause}
      (tests : ∀ clause ∈ clauses, clause.head ≠ .ident "else" → clause.head.WellFormed)
      (bodies : ∀ clause ∈ clauses, ∀ item ∈ clause.body, item.WellFormed)
      (last : ∀ clause ∈ clauses.dropLast, clause.head ≠ .ident "else") :
      WellFormed (.list (.ident "cond" :: clauses.map Clause.tree))

/-- The trees that the evaluator runs. Outside quoted data, which is raw, there is no keyword; names
that are bound are no keywords either, parameters are distinct, bodies are not empty, only the last
branch of a `cond` is without a test, and no definition is taken for a value. -/
inductive Expanded : Expr → Prop where
  | bool (value : Bool) : Expanded (.bool value)
  | int (value : Int64) : Expanded (.int value)
  | ident {name : String} (free : IsFree name) : Expanded (.ident name)
  | application {items : List Expr} (each : ∀ item ∈ items, item.Expanded) :
      Expanded (.list items)
  | quote {datum : Expr} (raw : datum.Raw) : Expanded (.quote datum)
  | define {name : String} {value : Expr} (free : IsFree name) (inner : value.Expanded)
      (valued : ¬value.IsDefinition) : Expanded (.define name value)
  | set {name : String} {value : Expr} (free : IsFree name) (inner : value.Expanded)
      (valued : ¬value.IsDefinition) : Expanded (.set name value)
  | lambda {params : List String} {body : List Expr} (distinct : params.Nodup)
      (free : ∀ name ∈ params, IsFree name) (nonempty : body ≠ [])
      (each : ∀ item ∈ body, item.Expanded) : Expanded (.lambda params body)
  | cond {branches : List Branch}
      (tests : ∀ branch ∈ branches, ∀ guard ∈ branch.guard?, guard.Expanded)
      (nonempty : ∀ branch ∈ branches, branch.body ≠ [])
      (bodies : ∀ branch ∈ branches, ∀ item ∈ branch.body, item.Expanded)
      (last : ∀ branch ∈ branches.dropLast, branch.guard?.isSome) : Expanded (.cond branches)

mutual

/-- The tree that an expanded tree was written as. -/
def written : Expr → Expr
  | .quote datum => .list [.ident "quote", datum]
  | .define name value => .list [.ident "define", .ident name, value.written]
  | .set name value => .list [.ident "set!", .ident name, value.written]
  | .lambda params body =>
    .list (.ident "lambda" :: .list (params.map .ident) :: writtenAll body)
  | .cond branches => .list (.ident "cond" :: writtenBranches branches)
  | .list items => .list (writtenAll items)
  | .bool value => .bool value
  | .int value => .int value
  | .ident name => .ident name

/-- What several expanded trees were written as. -/
def writtenAll : List Expr → List Expr
  | [] => []
  | item :: items => item.written :: writtenAll items

/-- The clauses that branches were written as. -/
def writtenBranches : List Branch → List Expr
  | [] => []
  | .test guard body :: branches =>
    .list (guard.written :: writtenAll body) :: writtenBranches branches
  | .otherwise body :: branches =>
    .list (.ident "else" :: writtenAll body) :: writtenBranches branches

end

section

variable {e tree : Expr} {items trees clauses : List Expr} {branches : List Branch}

/-- The items of a raw list are raw. -/
theorem Raw.forall_mem (raw : (Expr.list items).Raw) : ∀ item ∈ items, item.Raw := by
  cases raw with
  | list each => exact each

/-- What comes before the last of a list is its head or comes before the last of the rest. -/
theorem mem_dropLast_cons {α : Type} {first item : α} {rest : List α}
    (early : item ∈ (first :: rest).dropLast) : item = first ∨ item ∈ rest.dropLast := by
  cases rest with
  | nil => simp at early
  | cons next rest => simpa using early

/-- The parts of a raw tree are raw. -/
theorem IsPart.raw {inner : Expr} (is_part : IsPart inner e) (raw : e.Raw) : inner.Raw := by
  cases is_part with
  | item among => exact raw.forall_mem _ among
  | clause clause among => exact (raw.forall_mem _ clause).forall_mem _ among
  | define | set | lambda | guard | branch => cases raw

/-- The parts of an expanded tree are expanded. -/
theorem IsPart.expanded {inner : Expr} (is_part : IsPart inner e) (expanded : e.Expanded) :
    inner.Expanded := by
  cases is_part with
  | item among =>
    cases expanded with
    | application each => exact each _ among
  | clause clause among =>
    cases expanded with
    | application each =>
      cases each _ clause with
      | application each => exact each _ among
  | define =>
    cases expanded with
    | define free inner valued => exact inner
  | set =>
    cases expanded with
    | set free inner valued => exact inner
  | lambda among =>
    cases expanded with
    | lambda distinct free nonempty each => exact each _ among
  | guard among tested =>
    cases expanded with
    | cond tests nonempty bodies last => exact tests _ among _ tested
  | branch among inside =>
    cases expanded with
    | cond tests nonempty bodies last => exact bodies _ among _ inside

/-- What holds of every layer of a raw tree whose parts it holds of, holds of every expansion of a
raw tree. -/
theorem raw_induction {motive : Expr → Expr → Prop}
    (layer : ∀ e tree, e.Raw → Expansion motive e tree → motive e tree)
    (raw : e.Raw) (expands : e.ExpandsTo tree) : motive e tree := by
  have layer_of_raw : ∀ e tree, Expansion (fun e tree => e.Raw → motive e tree) e tree →
      e.Raw → motive e tree := by
    intro e tree expansion raw
    exact layer e tree raw (expansion.imp fun _ is_part _ holds => holds (is_part.raw raw))
  exact expand_induction layer_of_raw expands raw

/-- The second tree was written as the first one. -/
def WrittenAs (e tree : Expr) : Prop := tree.written = e

/-- The trees of a list were written as the list. -/
theorem writtenAll_of_each (each : Forall₂ WrittenAs items trees) : writtenAll trees = items := by
  induction each with
  | nil => rfl
  | cons same more ih => rw [writtenAll, same, ih]

/-- The branches that clauses become were written as the clauses. -/
theorem writtenBranches_of_clauses (expansion : ClausesExpansion WrittenAs clauses branches) :
    writtenBranches branches = clauses := by
  induction expansion with
  | nil => rfl
  | otherwise nonempty each => rw [writtenBranches, writtenAll_of_each each, writtenBranches]
  | test no_else same nonempty each more ih =>
    rw [writtenBranches, same, writtenAll_of_each each, ih]

/-- If the parts were written as what they come from, so was the whole. -/
theorem writtenAs_of_layer (raw : e.Raw) (expansion : Expansion WrittenAs e tree) :
    e.WrittenAs tree := by
  unfold WrittenAs
  cases expansion with
  | bool | int | ident | quoteForm => rw [written]
  | application free each => rw [written, writtenAll_of_each each]
  | defineForm free same valued => rw [written, same]
  | setForm free same valued => rw [written, same]
  | lambdaForm distinct free nonempty each => rw [written, writtenAll_of_each each]
  | condForm each => rw [written, writtenBranches_of_clauses each]
  | quote | define | set | lambda | cond => cases raw

/-- What follows for each of a list from what it becomes. -/
theorem forall_mem_of_each {α β : Type} {part : α → β → Prop} {good : α → Prop} {items : List α}
    {trees : List β} (each : Forall₂ part items trees)
    (implies : ∀ item tree, part item tree → good item) : ∀ item ∈ items, good item := by
  induction each with
  | nil => exact List.forall_mem_nil _
  | cons first more ih => exact List.forall_mem_cons.mpr ⟨implies _ _ first, ih⟩

/-- The trees that a list becomes are expanded. -/
theorem expanded_of_each (each : Forall₂ (fun _ tree => tree.Expanded) items trees) :
    ∀ tree ∈ trees, tree.Expanded :=
  forall_mem_of_each each.flip fun _ _ expanded => expanded

/-- What becomes of a body that is not empty is not empty. -/
theorem ne_nil_of_each {motive : Expr → Expr → Prop} (nonempty : items ≠ [])
    (each : Forall₂ motive items trees) : trees ≠ [] := by
  rintro rfl
  cases each
  exact nonempty rfl

/-- The branches that clauses become are expanded. -/
theorem expanded_of_clauses
    (expansion : ClausesExpansion (fun _ tree => tree.Expanded) clauses branches) :
    (cond branches).Expanded := by
  induction expansion with
  | nil => exact .cond (by simp) (by simp) (by simp) (by simp)
  | otherwise nonempty each =>
    have body := expanded_of_each each
    have some_body := ne_nil_of_each nonempty each
    exact .cond (by simp [Branch.guard?]) (by simpa [Branch.body] using some_body)
      (by simpa [Branch.body] using body) (by simp)
  | @test head guard body trees clauses branches no_else test nonempty each more ih =>
    have body := expanded_of_each each
    have some_body := ne_nil_of_each nonempty each
    cases ih with
    | cond tests nonempties bodies last =>
      refine .cond ?_ ?_ ?_ ?_
      · exact List.forall_mem_cons.mpr ⟨by simpa [Branch.guard?] using test, tests⟩
      · exact List.forall_mem_cons.mpr ⟨some_body, nonempties⟩
      · exact List.forall_mem_cons.mpr ⟨body, bodies⟩
      · intro branch early
        rcases mem_dropLast_cons early with rfl | later
        · rfl
        · exact last branch later

/-- If the parts become expanded trees, so does the whole. -/
theorem expanded_of_layer (raw : e.Raw)
    (expansion : Expansion (fun _ tree => tree.Expanded) e tree) : tree.Expanded := by
  cases expansion with
  | bool value => exact .bool value
  | int value => exact .int value
  | ident free => exact .ident free
  | application free each => exact .application (expanded_of_each each)
  | quoteForm datum => exact .quote (raw.forall_mem datum (by simp))
  | defineForm free inner valued => exact .define free inner valued
  | setForm free inner valued => exact .set free inner valued
  | lambdaForm distinct free nonempty each =>
    exact .lambda distinct free (ne_nil_of_each nonempty each) (expanded_of_each each)
  | condForm each => exact expanded_of_clauses each
  | quote | define | set | lambda | cond => cases raw

/-- A tree that is well formed, and becomes a definition if it is written as one. -/
structure IsProgram (e tree : Expr) : Prop where
  wellFormed : e.WellFormed
  definition : e.IsDefineForm → tree.IsDefinition

/-- The trees of a list that becomes something are well formed. -/
theorem wellFormed_of_each (each : Forall₂ IsProgram items trees) :
    ∀ item ∈ items, item.WellFormed :=
  forall_mem_of_each each fun _ _ program => program.wellFormed

/-- Clauses that become branches are well formed. -/
theorem wellFormed_of_clauses (expansion : ClausesExpansion IsProgram clauses branches) :
    (list (.ident "cond" :: clauses)).WellFormed := by
  suffices shaped : ∃ shapes : List Clause, clauses = shapes.map Clause.tree ∧
      (∀ clause ∈ shapes, clause.head ≠ .ident "else" → clause.head.WellFormed) ∧
      (∀ clause ∈ shapes, ∀ item ∈ clause.body, item.WellFormed) ∧
      ∀ clause ∈ shapes.dropLast, clause.head ≠ .ident "else" by
    obtain ⟨shapes, rfl, tests, bodies, last⟩ := shaped
    exact .cond tests bodies last
  induction expansion with
  | nil => exact ⟨[], rfl, by simp, by simp, by simp⟩
  | @otherwise body trees nonempty each =>
    have body_formed := wellFormed_of_each each
    exact ⟨[⟨.ident "else", body, nonempty⟩], rfl, by simp, by simpa using body_formed, by simp⟩
  | @test head guard body trees clauses branches no_else test nonempty each more ih =>
    obtain ⟨shapes, rfl, tests, bodies, last⟩ := ih
    refine ⟨⟨head, body, nonempty⟩ :: shapes, rfl, ?_, ?_, ?_⟩
    · exact List.forall_mem_cons.mpr ⟨fun _ => test.wellFormed, tests⟩
    · exact List.forall_mem_cons.mpr ⟨wellFormed_of_each each, bodies⟩
    · intro clause early
      rcases mem_dropLast_cons early with rfl | later
      · exact no_else
      · exact last clause later

/-- If the parts are well formed, so is the whole. -/
theorem isProgram_of_layer (raw : e.Raw) (expansion : Expansion IsProgram e tree) :
    e.IsProgram tree := by
  have other_form : ∀ {name : String} {rest : List Expr}, name ≠ "define" →
      ¬(list (.ident name :: rest)).IsDefineForm := by
    rintro name rest other ⟨_, same⟩
    simp only [list.injEq, List.cons.injEq, ident.injEq] at same
    exact other same.1
  cases expansion with
  | bool value => exact ⟨.bool value, fun ⟨_, same⟩ => by cases same⟩
  | int value => exact ⟨.int value, fun ⟨_, same⟩ => by cases same⟩
  | ident free => exact ⟨.ident free, fun ⟨_, same⟩ => by cases same⟩
  | application free each =>
    refine ⟨.application (wellFormed_of_each each), ?_⟩
    rintro ⟨rest, same⟩
    obtain rfl := list.inj same
    exact absurd rfl (free "define" rfl .define)
  | quoteForm datum => exact ⟨.quote datum, fun form => absurd form (other_form (by decide))⟩
  | @defineForm name value tree free inner valued =>
    exact ⟨.define free inner.wellFormed fun form => valued (inner.definition form),
      fun _ => ⟨name, tree, rfl⟩⟩
  | setForm free inner valued =>
    exact ⟨.set free inner.wellFormed fun form => valued (inner.definition form),
      fun form => absurd form (other_form (by decide))⟩
  | lambdaForm distinct free nonempty each =>
    exact ⟨.lambda distinct free nonempty (wellFormed_of_each each),
      fun form => absurd form (other_form (by decide))⟩
  | condForm each =>
    exact ⟨wellFormed_of_clauses each, fun form => absurd form (other_form (by decide))⟩
  | quote | define | set | lambda | cond => cases raw

/-- Trees that all expand do so one by one. -/
theorem exists_each (all : ∀ item ∈ items, ∃ tree, item.ExpandsTo tree) :
    ∃ trees, Forall₂ ExpandsTo items trees := by
  induction items with
  | nil => exact ⟨[], .nil⟩
  | cons item items ih =>
    rw [List.forall_mem_cons] at all
    obtain ⟨tree, expands⟩ := all.1
    obtain ⟨trees, each⟩ := ih all.2
    exact ⟨tree :: trees, .cons expands each⟩

/-- Clauses expand if their heads and bodies do and only the last one has `else` for a head. -/
theorem exists_branches {shapes : List Clause}
    (tests : ∀ clause ∈ shapes, clause.head ≠ .ident "else" →
      ∃ tree, clause.head.ExpandsTo tree)
    (bodies : ∀ clause ∈ shapes, ∀ item ∈ clause.body, ∃ tree, item.ExpandsTo tree)
    (last : ∀ clause ∈ shapes.dropLast, clause.head ≠ .ident "else") :
    ∃ branches, ClausesExpansion ExpandsTo (shapes.map Clause.tree) branches := by
  induction shapes with
  | nil => exact ⟨[], .nil⟩
  | cons clause shapes ih =>
    rw [List.forall_mem_cons] at tests bodies
    obtain ⟨head, body, nonempty⟩ := clause
    obtain ⟨trees, each⟩ := exists_each bodies.1
    by_cases is_else : head = .ident "else"
    · -- A clause with `else` comes before no other one.
      cases shapes with
      | nil =>
        subst is_else
        exact ⟨_, .otherwise nonempty each⟩
      | cons next shapes => exact absurd is_else (last ⟨head, body, nonempty⟩ (by simp))
    · obtain ⟨guard, test⟩ := tests.1 is_else
      have later : ∀ clause ∈ shapes.dropLast, clause.head ≠ .ident "else" := by
        intro clause early
        refine last clause ?_
        rw [List.dropLast_cons_of_ne_nil (List.ne_nil_of_mem ((List.dropLast_subset _) early))]
        exact List.mem_cons_of_mem _ early
      obtain ⟨branches, more⟩ := ih tests.2 bodies.2 later
      exact ⟨_, .test is_else test nonempty each more⟩

/-- A program that becomes a definition is written as one. -/
theorem isDefineForm_of_isDefinition (wellFormed : e.WellFormed) (expands : e.ExpandsTo tree)
    (definition : tree.IsDefinition) : e.IsDefineForm := by
  obtain ⟨name, value, rfl⟩ := definition
  cases expandsTo_iff.mp expands with
  | defineForm => exact ⟨_, rfl⟩
  | define => cases wellFormed

/-- A program expands. -/
theorem WellFormed.exists_expandsTo (wellFormed : e.WellFormed) : ∃ tree, e.ExpandsTo tree := by
  induction wellFormed with
  | bool value => exact ⟨_, expandsTo_iff.mpr (.bool value)⟩
  | int value => exact ⟨_, expandsTo_iff.mpr (.int value)⟩
  | ident free => exact ⟨_, expandsTo_iff.mpr (.ident free)⟩
  | @application items formed ih =>
    obtain ⟨trees, each⟩ := exists_each ih
    refine ⟨_, expandsTo_iff.mpr (.application ?_ each)⟩
    intro name head
    cases formed _ (List.mem_of_head? head) with
    | ident free => exact free
  | quote datum => exact ⟨_, expandsTo_iff.mpr (.quoteForm datum)⟩
  | define free inner valued ih =>
    obtain ⟨tree, expands⟩ := ih
    exact ⟨_, expandsTo_iff.mpr (.defineForm free expands fun definition =>
      valued (isDefineForm_of_isDefinition inner expands definition))⟩
  | set free inner valued ih =>
    obtain ⟨tree, expands⟩ := ih
    exact ⟨_, expandsTo_iff.mpr (.setForm free expands fun definition =>
      valued (isDefineForm_of_isDefinition inner expands definition))⟩
  | lambda distinct free nonempty formed ih =>
    obtain ⟨trees, each⟩ := exists_each ih
    exact ⟨_, expandsTo_iff.mpr (.lambdaForm distinct free nonempty each)⟩
  | cond tests bodies last tests_expand bodies_expand =>
    obtain ⟨branches, each⟩ := exists_branches tests_expand bodies_expand last
    exact ⟨_, expandsTo_iff.mpr (.condForm each)⟩

/-- A raw tree expands if and only if it is well formed. -/
theorem expand_isOk_iff (raw : e.Raw) : (∃ tree, e.expand = .ok tree) ↔ e.WellFormed := by
  constructor
  · rintro ⟨tree, expands⟩
    exact (raw_induction (fun _ _ => isProgram_of_layer) raw expands).wellFormed
  · exact WellFormed.exists_expandsTo

/-- What a raw tree expands to is expanded. -/
theorem expanded_of_expandsTo (raw : e.Raw) (expands : e.ExpandsTo tree) : tree.Expanded :=
  raw_induction (fun _ _ => expanded_of_layer) raw expands

/-- What a raw tree expands to stands for the tree that was written. -/
theorem written_of_expandsTo (raw : e.Raw) (expands : e.ExpandsTo tree) : tree.written = e :=
  raw_induction (motive := WrittenAs) (fun _ _ => writtenAs_of_layer) raw expands

end

end Expr

end TailScheme
