import TailScheme.Expr.Expand
import Mathlib.Data.List.Forall2
import Mathlib.Data.List.Nodup

/-!
# What expansion does

`Expr.Expansion part e tree` says how a tree may expand in one layer, where `part` tells what
becomes of its parts: one constructor for each form as it is read, and one for each node that is
already expanded. A tree expands exactly by a layer whose parts expand (`expandsTo_iff`). So
what holds of all expansions is shown layer by layer (`expand_induction`), and no proof about
expansion has to look at the function again.
-/
namespace TailScheme.Expr

open List (Forall₂)

/-- No keyword is written so. -/
def IsFree (name : String) : Prop := ∀ keyword : Keyword, keyword.name ≠ name

/-- The tree is a definition that is already expanded. -/
def IsDefinition (e : Expr) : Prop := ∃ name value, e = .define name value

section

variable (part : Expr → Expr → Prop)

/-- What becomes of the clauses after `cond`. Only the last one may have `else` for a test. -/
inductive ClausesExpansion : List Expr → List Branch → Prop where
  | nil : ClausesExpansion [] []
  | otherwise {body trees : List Expr} (nonempty : body ≠ []) (each : Forall₂ part body trees) :
      ClausesExpansion [.list (.ident "else" :: body)] [.otherwise trees]
  | test {head guard : Expr} {body trees clauses : List Expr} {branches : List Branch}
      (no_else : head ≠ .ident "else") (test : part head guard) (nonempty : body ≠ [])
      (each : Forall₂ part body trees) (more : ClausesExpansion clauses branches) :
      ClausesExpansion (.list (head :: body) :: clauses) (.test guard trees :: branches)

/-- What becomes of a branch that is already expanded. -/
inductive BranchExpansion : Branch → Branch → Prop where
  | otherwise {body trees : List Expr} (each : Forall₂ part body trees) :
      BranchExpansion (.otherwise body) (.otherwise trees)
  | test {head guard : Expr} {body trees : List Expr} (test : part head guard)
      (each : Forall₂ part body trees) : BranchExpansion (.test head body) (.test guard trees)

/-- How a tree expands in one layer. -/
inductive Expansion : Expr → Expr → Prop where
  | bool (value : Bool) : Expansion (.bool value) (.bool value)
  | int (value : Int64) : Expansion (.int value) (.int value)
  | ident {name : String} (free : IsFree name) : Expansion (.ident name) (.ident name)
  | application {items trees : List Expr}
      (free : ∀ name, items.head? = some (.ident name) → IsFree name)
      (each : Forall₂ part items trees) : Expansion (.list items) (.list trees)
  | quoteForm (datum : Expr) : Expansion (.list [.ident "quote", datum]) (.quote datum)
  | defineForm {name : String} {value tree : Expr} (free : IsFree name) (expands : part value tree)
      (valued : ¬tree.IsDefinition) :
      Expansion (.list [.ident "define", .ident name, value]) (.define name tree)
  | setForm {name : String} {value tree : Expr} (free : IsFree name) (expands : part value tree)
      (valued : ¬tree.IsDefinition) :
      Expansion (.list [.ident "set!", .ident name, value]) (.set name tree)
  | lambdaForm {params : List String} {body trees : List Expr} (distinct : params.Nodup)
      (free : ∀ name ∈ params, IsFree name) (nonempty : body ≠ [])
      (each : Forall₂ part body trees) :
      Expansion (.list (.ident "lambda" :: .list (params.map .ident) :: body))
        (.lambda params trees)
  | condForm {clauses : List Expr} {branches : List Branch}
      (each : ClausesExpansion part clauses branches) :
      Expansion (.list (.ident "cond" :: clauses)) (.cond branches)
  | quote (datum : Expr) : Expansion (.quote datum) (.quote datum)
  | define {name : String} {value tree : Expr} (expands : part value tree)
      (valued : ¬tree.IsDefinition) : Expansion (.define name value) (.define name tree)
  | set {name : String} {value tree : Expr} (expands : part value tree)
      (valued : ¬tree.IsDefinition) : Expansion (.set name value) (.set name tree)
  | lambda {params : List String} {body trees : List Expr} (each : Forall₂ part body trees) :
      Expansion (.lambda params body) (.lambda params trees)
  | cond {branches trees : List Branch} (each : Forall₂ (BranchExpansion part) branches trees) :
      Expansion (.cond branches) (.cond trees)

end

/-- A tree expands to another one. -/
def ExpandsTo (e tree : Expr) : Prop := e.expand = .ok tree

section

variable {e tree : Expr} {name : String}

/-- Two computations in a row succeed if the first one does and then the second. -/
theorem bind_eq_ok_iff {ε α β : Type} {first : Except ε α} {second : α → Except ε β} {result : β} :
    (first >>= second) = .ok result ↔ ∃ value, first = .ok value ∧ second value = .ok result := by
  cases first with
  | error error => simp [bind, Except.bind]
  | ok value => simp [bind, Except.bind]

/-- A name is free if no keyword is found by it. -/
theorem isFree_iff : IsFree name ↔ Keyword.ofName? name = none := by
  constructor
  · intro free
    rcases found : Keyword.ofName? name with _ | keyword
    · rfl
    · exact absurd (Keyword.name_of_ofName? found) (free keyword)
  · rintro none_found keyword rfl
    rw [Keyword.ofName?_name] at none_found
    cases none_found

/-- A value is a tree that is no definition. -/
theorem asValue_eq_ok_iff {form : Keyword} {value : Expr} :
    asValue form value = .ok tree ↔ value = tree ∧ ¬tree.IsDefinition := by
  unfold asValue
  split
  · next name inner =>
    constructor
    · rintro ⟨⟩
    · rintro ⟨rfl, valued⟩
      exact absurd ⟨name, inner, rfl⟩ valued
  · next no_definition =>
    constructor
    · rintro ⟨⟩
      exact ⟨rfl, fun ⟨name, inner, same⟩ => no_definition name inner same⟩
    · rintro ⟨rfl, -⟩
      rfl

/-- A list of trees expands one by one. -/
theorem expandEach_eq_ok_iff {items trees : List Expr} :
    expandEach items = .ok trees ↔ Forall₂ ExpandsTo items trees := by
  induction items generalizing trees with
  | nil =>
    rw [expandEach, List.forall₂_nil_left_iff, Except.ok.injEq, eq_comm]
  | cons item items ih =>
    simp only [expandEach, bind_eq_ok_iff, ih, List.forall₂_cons_left_iff, pure, Except.pure,
      Except.ok.injEq]
    constructor
    · rintro ⟨first, first_expands, rest, rest_expand, rfl⟩
      exact ⟨first, rest, first_expands, rest_expand, rfl⟩
    · rintro ⟨first, rest, first_expands, rest_expand, rfl⟩
      exact ⟨first, first_expands, rest, rest_expand, rfl⟩

/-- Branches that are already expanded expand one by one. -/
theorem expandBranches_eq_ok_iff {branches trees : List Branch} :
    expandBranches branches = .ok trees ↔ Forall₂ (BranchExpansion ExpandsTo) branches trees := by
  induction branches generalizing trees with
  | nil =>
    rw [expandBranches, List.forall₂_nil_left_iff, Except.ok.injEq, eq_comm]
  | cons branch branches ih =>
    cases branch with
    | otherwise body =>
      simp only [expandBranches, bind_eq_ok_iff, expandEach_eq_ok_iff, ih,
        List.forall₂_cons_left_iff, pure, Except.pure, Except.ok.injEq]
      constructor
      · rintro ⟨body_trees, each, rest, later, rfl⟩
        exact ⟨_, rest, .otherwise each, later, rfl⟩
      · rintro ⟨_, rest, expanded, later, rfl⟩
        cases expanded with
        | otherwise each => exact ⟨_, each, rest, later, rfl⟩
    | test guard body =>
      simp only [expandBranches, bind_eq_ok_iff, expandEach_eq_ok_iff, ih,
        List.forall₂_cons_left_iff, pure, Except.pure, Except.ok.injEq]
      constructor
      · rintro ⟨guard_tree, test, body_trees, each, rest, later, rfl⟩
        exact ⟨_, rest, .test test each, later, rfl⟩
      · rintro ⟨_, rest, expanded, later, rfl⟩
        cases expanded with
        | test test each => exact ⟨_, test, _, each, rest, later, rfl⟩

/-- The name of a variable is a free one. -/
theorem variableName?_eq_some_iff :
    e.variableName? = some name ↔ e = .ident name ∧ IsFree name := by
  cases e with
  | ident other =>
    rw [variableName?, isFree_iff, ident.injEq]
    rcases found : Keyword.ofName? other with _ | keyword
    · simp only [Option.isSome_none, Bool.false_eq_true, ↓reduceIte, Option.some.injEq]
      constructor
      · rintro rfl
        exact ⟨rfl, found⟩
      · exact And.left
    · simp only [Option.isSome_some, ↓reduceIte, reduceCtorEq, false_iff, not_and]
      rintro rfl free
      rw [found] at free
      cases free
  | _ => simp [variableName?]

/-- The names of variables are free ones. -/
theorem mapM_variableName?_eq_some_iff {items : List Expr} {names : List String} :
    items.mapM variableName? = some names ↔
      items = names.map .ident ∧ ∀ name ∈ names, IsFree name := by
  induction items generalizing names with
  | nil => cases names <;> simp
  | cons item items ih =>
    cases names with
    | nil => simp [List.mapM_cons, Option.bind_eq_some_iff]
    | cons name names =>
      simp only [List.mapM_cons, Option.bind_eq_bind, Option.bind_eq_some_iff,
        variableName?_eq_some_iff, ih, pure, Option.some.injEq, List.cons.injEq, List.map_cons,
        List.forall_mem_cons]
      constructor
      · rintro ⟨_, ⟨rfl, free⟩, _, ⟨rfl, others⟩, rfl, rfl⟩
        exact ⟨⟨rfl, rfl⟩, free, others⟩
      · rintro ⟨⟨rfl, rfl⟩, free, others⟩
        exact ⟨name, ⟨rfl, free⟩, names, ⟨rfl, others⟩, rfl, rfl⟩

/-- Names are found distinct if none occurs twice. -/
theorem distinct_iff {names : List String} : distinct names = true ↔ names.Nodup := by
  induction names with
  | nil => simp [distinct]
  | cons name names ih => simp [distinct, ih]

/-- Parameters are distinct and free names. -/
theorem parameters?_eq_some_iff {items : List Expr} {params : List String} :
    parameters? items = some params ↔
      items = params.map .ident ∧ params.Nodup ∧ ∀ name ∈ params, IsFree name := by
  unfold parameters?
  rcases found : items.mapM variableName? with _ | names
  · simp only [reduceCtorEq, false_iff]
    rintro ⟨same, -, free⟩
    rw [mapM_variableName?_eq_some_iff.mpr ⟨same, free⟩] at found
    cases found
  · obtain ⟨rfl, free⟩ := mapM_variableName?_eq_some_iff.mp found
    by_cases distinct_names : distinct names = true
    · simp only [if_pos distinct_names, Option.some.injEq]
      constructor
      · rintro rfl
        exact ⟨rfl, distinct_iff.mp distinct_names, free⟩
      · rintro ⟨same, -, -⟩
        exact List.map_injective_iff.mpr (fun _ _ => ident.inj) same
    · simp only [if_neg distinct_names, reduceCtorEq, false_iff]
      rintro ⟨same, nodup, -⟩
      obtain rfl := List.map_injective_iff.mpr (fun _ _ => ident.inj) same
      exact distinct_names (distinct_iff.mpr nodup)

/-- A binding consists of a free name and a value. -/
theorem expandBinding_eq_ok_iff {form : Keyword} {rest : List Expr} :
    expandBinding form rest = .ok (name, tree) ↔
      ∃ value, rest = [.ident name, value] ∧ IsFree name ∧ value.ExpandsTo tree ∧
        ¬tree.IsDefinition := by
  unfold expandBinding
  split
  · next first value =>
    rcases found : first.variableName? with _ | other
    · simp only [reduceCtorEq, false_iff]
      rintro ⟨value, same, free, -⟩
      cases same
      rw [variableName?_eq_some_iff.mpr ⟨rfl, free⟩] at found
      cases found
    · obtain ⟨rfl, free⟩ := variableName?_eq_some_iff.mp found
      simp only [bind_eq_ok_iff, asValue_eq_ok_iff, pure, Except.pure, Except.ok.injEq,
        Prod.mk.injEq]
      constructor
      · rintro ⟨_, expands, _, ⟨rfl, valued⟩, rfl, rfl⟩
        exact ⟨value, rfl, free, expands, valued⟩
      · rintro ⟨_, same, -, expands, valued⟩
        cases same
        exact ⟨tree, expands, tree, ⟨rfl, valued⟩, rfl, rfl⟩
  · next other_shape =>
    simp only [reduceCtorEq, false_iff]
    rintro ⟨value, rfl, -⟩
    exact other_shape _ _ rfl

/-- A procedure has distinct and free parameters and a body that is not empty. -/
theorem expandLambda_eq_ok_iff {rest : List Expr} :
    expandLambda rest = .ok tree ↔
      ∃ params body trees, rest = .list (params.map .ident) :: body ∧ params.Nodup ∧
        (∀ name ∈ params, IsFree name) ∧ body ≠ [] ∧ Forall₂ ExpandsTo body trees ∧
        tree = .lambda params trees := by
  unfold expandLambda
  split
  · next items first body =>
    rcases found : parameters? items with _ | params
    · simp only [reduceCtorEq, false_iff]
      rintro ⟨params, _, _, same, distinct, free, -⟩
      cases same
      rw [parameters?_eq_some_iff.mpr ⟨rfl, distinct, free⟩] at found
      cases found
    · obtain ⟨rfl, distinct, free⟩ := parameters?_eq_some_iff.mp found
      simp only [bind_eq_ok_iff, expandEach_eq_ok_iff, pure, Except.pure, Except.ok.injEq]
      constructor
      · rintro ⟨first_tree, first_expands, trees, each, rfl⟩
        exact ⟨params, _, _, rfl, distinct, free, List.cons_ne_nil _ _,
          .cons first_expands each, rfl⟩
      · rintro ⟨others, _, _, same, -, -, -, all, rfl⟩
        obtain ⟨lists, rfl⟩ := List.cons.inj same
        obtain rfl := List.map_injective_iff.mpr (fun _ _ => ident.inj) (list.inj lists)
        obtain ⟨first_tree, trees, first_expands, each, rfl⟩ := List.forall₂_cons_left_iff.mp all
        exact ⟨first_tree, first_expands, trees, each, rfl⟩
  · next other_shape =>
    simp only [reduceCtorEq, false_iff]
    rintro ⟨params, body, trees, rfl, -, -, nonempty, -⟩
    obtain ⟨first, body, rfl⟩ := List.exists_cons_of_ne_nil nonempty
    exact other_shape _ _ _ rfl

/-- The mark of a final branch is the identifier `else`. -/
theorem isElse_iff : e.isElse = true ↔ e = .ident "else" := by
  cases e <;> simp [isElse]

/-- Clauses expand one by one, and only the last one may have `else` for a test. -/
theorem expandClauses_eq_ok_iff {clauses : List Expr} {branches : List Branch} :
    expandClauses clauses = .ok branches ↔ ClausesExpansion ExpandsTo clauses branches := by
  induction clauses generalizing branches with
  | nil =>
    rw [expandClauses, Except.ok.injEq]
    constructor
    · rintro rfl
      exact .nil
    · rintro ⟨⟩
      rfl
  | cons clause clauses ih =>
    unfold expandClauses
    split
    · next same => cases same
    · next head first body clauses same =>
      cases same
      by_cases is_else : head = .ident "else"
      · subst is_else
        rw [if_pos (isElse_iff.mpr rfl)]
        cases clauses with
        | nil =>
          simp only [bind_eq_ok_iff, expandEach_eq_ok_iff, pure, Except.pure, Except.ok.injEq]
          constructor
          · rintro ⟨first_tree, first_expands, trees, each, rfl⟩
            exact .otherwise (List.cons_ne_nil _ _) (.cons first_expands each)
          · intro expanded
            cases expanded with
            | otherwise nonempty all =>
              cases all with
              | cons first_expands each => exact ⟨_, first_expands, _, each, rfl⟩
            | test no_else => exact absurd rfl no_else
        | cons next clauses =>
          simp only [reduceCtorEq, false_iff]
          intro expanded
          cases expanded with
          | test no_else => exact no_else rfl
      · rw [if_neg (fun marked => is_else (isElse_iff.mp marked))]
        simp only [bind_eq_ok_iff, expandEach_eq_ok_iff, ih, pure, Except.pure, Except.ok.injEq]
        constructor
        · rintro ⟨guard, test, first_tree, first_expands, trees, each, branches, more, rfl⟩
          exact .test is_else test (List.cons_ne_nil _ _) (.cons first_expands each) more
        · intro expanded
          cases expanded with
          | otherwise => exact absurd rfl is_else
          | test no_else test nonempty all more =>
            cases all with
            | cons first_expands each =>
              exact ⟨_, test, _, first_expands, _, each, _, more, rfl⟩
    · next other_shape no_clause same =>
      cases same
      simp only [reduceCtorEq, false_iff]
      intro expanded
      cases expanded with
      | otherwise nonempty =>
        obtain ⟨first, body, rfl⟩ := List.exists_cons_of_ne_nil nonempty
        exact no_clause _ _ _ rfl
      | test no_else test nonempty =>
        obtain ⟨first, body, rfl⟩ := List.exists_cons_of_ne_nil nonempty
        exact no_clause _ _ _ rfl

/-- The keyword of a tree is the identifier that is written so. -/
theorem keyword?_eq_some_iff {keyword : Keyword} :
    e.keyword? = some keyword ↔ e = .ident keyword.name := by
  cases e with
  | ident name =>
    rw [keyword?, ident.injEq]
    constructor
    · exact fun found => (Keyword.name_of_ofName? found).symm
    · rintro rfl
      exact Keyword.ofName?_name keyword
  | _ => simp [keyword?]

/-- A list whose head is a keyword expands as that form does. -/
theorem expand_form (keyword : Keyword) (rest : List Expr) :
    (list (.ident keyword.name :: rest)).expand =
      match keyword with
      | .quote => quoteForm rest
      | .define => do
        let (name, value) ← expandBinding .define rest
        return .define name value
      | .set => do
        let (name, value) ← expandBinding .set rest
        return .set name value
      | .lambda => expandLambda rest
      | .cond => do
        let branches ← expandClauses rest
        return .cond branches := by
  have found : (Expr.ident keyword.name).keyword? = some keyword := keyword?_eq_some_iff.mpr rfl
  rw [expand, found]
  cases keyword <;> rfl

/-- A list that expands does so by a layer whose parts expand. -/
theorem expansion_of_list {items : List Expr} (expands : (list items).ExpandsTo tree) :
    Expansion ExpandsTo (.list items) tree := by
  unfold ExpandsTo at expands
  cases items with
  | nil =>
    cases expands
    exact .application (by simp) .nil
  | cons head rest =>
    rcases found : head.keyword? with _ | keyword
    · simp only [expand, found, bind_eq_ok_iff, expandEach_eq_ok_iff, pure, Except.pure,
        Except.ok.injEq] at expands
      obtain ⟨head_tree, head_expands, trees, each, rfl⟩ := expands
      refine .application ?_ (.cons head_expands each)
      rintro name ⟨⟩
      exact isFree_iff.mpr found
    · obtain rfl := keyword?_eq_some_iff.mp found
      rw [expand_form] at expands
      cases keyword with
      | quote =>
        simp only [quoteForm] at expands
        split at expands
        · next datum =>
          cases expands
          exact .quoteForm datum
        · cases expands
      | define =>
        simp only [bind_eq_ok_iff, Prod.exists, expandBinding_eq_ok_iff, pure, Except.pure,
          Except.ok.injEq] at expands
        obtain ⟨name, inner, ⟨value, rfl, free, value_expands, valued⟩, rfl⟩ := expands
        exact .defineForm free value_expands valued
      | set =>
        simp only [bind_eq_ok_iff, Prod.exists, expandBinding_eq_ok_iff, pure, Except.pure,
          Except.ok.injEq] at expands
        obtain ⟨name, inner, ⟨value, rfl, free, value_expands, valued⟩, rfl⟩ := expands
        exact .setForm free value_expands valued
      | lambda =>
        obtain ⟨params, body, trees, rfl, distinct, free, nonempty, each, rfl⟩ :=
          expandLambda_eq_ok_iff.mp expands
        exact .lambdaForm distinct free nonempty each
      | cond =>
        simp only [bind_eq_ok_iff, expandClauses_eq_ok_iff, pure, Except.pure,
          Except.ok.injEq] at expands
        obtain ⟨branches, each, rfl⟩ := expands
        exact .condForm each

/-- A tree that expands does so by a layer whose parts expand. -/
theorem expansion_of_expandsTo (expands : e.ExpandsTo tree) : Expansion ExpandsTo e tree := by
  cases e with
  | list items => exact expansion_of_list expands
  | bool value =>
    cases expands
    exact .bool value
  | int value =>
    cases expands
    exact .int value
  | ident name =>
    unfold ExpandsTo at expands
    rw [expand] at expands
    split at expands
    · cases expands
    · next none_found =>
      cases expands
      exact .ident (isFree_iff.mpr none_found)
  | quote datum =>
    cases expands
    exact .quote datum
  | define name value =>
    simp only [ExpandsTo, expand, bind_eq_ok_iff, asValue_eq_ok_iff, pure, Except.pure,
      Except.ok.injEq] at expands
    obtain ⟨_, value_expands, inner, ⟨rfl, valued⟩, rfl⟩ := expands
    exact .define value_expands valued
  | set name value =>
    simp only [ExpandsTo, expand, bind_eq_ok_iff, asValue_eq_ok_iff, pure, Except.pure,
      Except.ok.injEq] at expands
    obtain ⟨_, value_expands, inner, ⟨rfl, valued⟩, rfl⟩ := expands
    exact .set value_expands valued
  | lambda params body =>
    simp only [ExpandsTo, expand, bind_eq_ok_iff, expandEach_eq_ok_iff, pure, Except.pure,
      Except.ok.injEq] at expands
    obtain ⟨trees, each, rfl⟩ := expands
    exact .lambda each
  | cond branches =>
    simp only [ExpandsTo, expand, bind_eq_ok_iff, expandBranches_eq_ok_iff, pure, Except.pure,
      Except.ok.injEq] at expands
    obtain ⟨trees, each, rfl⟩ := expands
    exact .cond each

/-- A layer whose parts expand is an expansion. -/
theorem expandsTo_of_expansion (expansion : Expansion ExpandsTo e tree) : e.ExpandsTo tree := by
  cases expansion with
  | bool value => rfl
  | int value => rfl
  | ident free =>
    rw [ExpandsTo, expand, isFree_iff.mp free]
  | @application items trees free each =>
    cases each with
    | nil => rfl
    | @cons head head_tree rest trees head_expands each =>
      have no_keyword : head.keyword? = none := by
        rcases found : head.keyword? with _ | keyword
        · rfl
        · obtain rfl := keyword?_eq_some_iff.mp found
          exact absurd rfl (free keyword.name rfl keyword)
      simp only [ExpandsTo, expand, no_keyword, bind_eq_ok_iff]
      exact ⟨_, head_expands, _, expandEach_eq_ok_iff.mpr each, rfl⟩
  | quoteForm datum => exact expand_form .quote [datum]
  | @defineForm name value tree free value_expands valued =>
    have binding : expandBinding .define [.ident name, value] = .ok (name, tree) :=
      expandBinding_eq_ok_iff.mpr ⟨value, rfl, free, value_expands, valued⟩
    exact (expand_form .define _).trans (bind_eq_ok_iff.mpr ⟨_, binding, rfl⟩)
  | @setForm name value tree free value_expands valued =>
    have binding : expandBinding .set [.ident name, value] = .ok (name, tree) :=
      expandBinding_eq_ok_iff.mpr ⟨value, rfl, free, value_expands, valued⟩
    exact (expand_form .set _).trans (bind_eq_ok_iff.mpr ⟨_, binding, rfl⟩)
  | lambdaForm distinct free nonempty each =>
    have procedure := expandLambda_eq_ok_iff.mpr ⟨_, _, _, rfl, distinct, free, nonempty, each, rfl⟩
    exact (expand_form .lambda _).trans procedure
  | condForm each =>
    have branches := expandClauses_eq_ok_iff.mpr each
    exact (expand_form .cond _).trans (bind_eq_ok_iff.mpr ⟨_, branches, rfl⟩)
  | quote datum => rfl
  | define value_expands valued =>
    rw [ExpandsTo, expand]
    exact bind_eq_ok_iff.mpr ⟨_, value_expands, bind_eq_ok_iff.mpr
      ⟨_, asValue_eq_ok_iff.mpr ⟨rfl, valued⟩, rfl⟩⟩
  | set value_expands valued =>
    rw [ExpandsTo, expand]
    exact bind_eq_ok_iff.mpr ⟨_, value_expands, bind_eq_ok_iff.mpr
      ⟨_, asValue_eq_ok_iff.mpr ⟨rfl, valued⟩, rfl⟩⟩
  | lambda each =>
    rw [ExpandsTo, expand]
    exact bind_eq_ok_iff.mpr ⟨_, expandEach_eq_ok_iff.mpr each, rfl⟩
  | cond each =>
    rw [ExpandsTo, expand]
    exact bind_eq_ok_iff.mpr ⟨_, expandBranches_eq_ok_iff.mpr each, rfl⟩

/-- A tree expands exactly by a layer whose parts expand. -/
theorem expandsTo_iff : e.ExpandsTo tree ↔ Expansion ExpandsTo e tree :=
  ⟨expansion_of_expandsTo, expandsTo_of_expansion⟩

end

/-- The parts of a tree: everything that is expanded by itself when the tree is, and more. The parts
of the clauses of a raw `cond` are among the parts of the lists in a list. -/
inductive IsPart : Expr → Expr → Prop where
  | item {item : Expr} {items : List Expr} (among : item ∈ items) : IsPart item (.list items)
  | clause {item : Expr} {parts items : List Expr} (clause : .list parts ∈ items)
      (among : item ∈ parts) : IsPart item (.list items)
  | define {name : String} {value : Expr} : IsPart value (.define name value)
  | set {name : String} {value : Expr} : IsPart value (.set name value)
  | lambda {params : List String} {item : Expr} {body : List Expr} (among : item ∈ body) :
      IsPart item (.lambda params body)
  | guard {guard : Expr} {branch : Branch} {branches : List Branch} (among : branch ∈ branches)
      (tested : branch.guard? = some guard) : IsPart guard (.cond branches)
  | branch {item : Expr} {branch : Branch} {branches : List Branch} (among : branch ∈ branches)
      (inside : item ∈ branch.body) : IsPart item (.cond branches)

/-- Parts are smaller than the whole. -/
theorem IsPart.sizeOf_lt {inner e : Expr} (is_part : IsPart inner e) : sizeOf inner < sizeOf e := by
  cases is_part with
  | item among =>
    have smaller := List.sizeOf_lt_of_mem among
    simp only [list.sizeOf_spec]
    omega
  | clause clause among =>
    have smaller := List.sizeOf_lt_of_mem among
    have clause_smaller := List.sizeOf_lt_of_mem clause
    simp only [list.sizeOf_spec] at clause_smaller ⊢
    omega
  | define =>
    simp only [define.sizeOf_spec]
    omega
  | set =>
    simp only [set.sizeOf_spec]
    omega
  | lambda among =>
    have smaller := List.sizeOf_lt_of_mem among
    simp only [lambda.sizeOf_spec]
    omega
  | @guard _ branch _ among tested =>
    have branch_smaller := List.sizeOf_lt_of_mem among
    cases branch with
    | otherwise body => cases tested
    | test guard body =>
      cases tested
      simp only [Branch.test.sizeOf_spec, cond.sizeOf_spec] at branch_smaller ⊢
      omega
  | @branch _ branch _ among inside =>
    have branch_smaller := List.sizeOf_lt_of_mem among
    have smaller := List.sizeOf_lt_of_mem inside
    cases branch with
    | otherwise body =>
      simp only [Branch.body, Branch.otherwise.sizeOf_spec, cond.sizeOf_spec] at *
      omega
    | test guard body =>
      simp only [Branch.body, Branch.test.sizeOf_spec, cond.sizeOf_spec] at *
      omega

section

variable {part other : Expr → Expr → Prop}

/-- What each of a list becomes, it also becomes in another sense. -/
theorem each_imp {α β : Type} {part other : α → β → Prop} {items : List α} {trees : List β}
    (each : Forall₂ part items trees)
    (weaken : ∀ item ∈ items, ∀ tree, part item tree → other item tree) :
    Forall₂ other items trees := by
  induction each with
  | nil => exact .nil
  | @cons item tree items trees first more ih =>
    rw [List.forall_mem_cons] at weaken
    exact .cons (weaken.1 tree first) (ih weaken.2)

/-- What the parts of clauses become, they also become in another sense. -/
theorem ClausesExpansion.imp {clauses : List Expr} {branches : List Branch}
    (expansion : ClausesExpansion part clauses branches)
    (weaken : ∀ parts, .list parts ∈ clauses → ∀ item ∈ parts, ∀ tree,
      part item tree → other item tree) :
    ClausesExpansion other clauses branches := by
  induction expansion with
  | nil => exact .nil
  | otherwise nonempty each =>
    have inside := weaken _ List.mem_cons_self
    rw [List.forall_mem_cons] at inside
    exact .otherwise nonempty (each_imp each inside.2)
  | test no_else test nonempty each more ih =>
    have inside := weaken _ List.mem_cons_self
    rw [List.forall_mem_cons] at inside
    exact .test no_else (inside.1 _ test) nonempty (each_imp each inside.2)
      (ih fun parts clause => weaken parts (List.mem_cons_of_mem _ clause))

/-- What the parts of a branch become, they also become in another sense. -/
theorem BranchExpansion.imp {branch tree : Branch} (expansion : BranchExpansion part branch tree)
    (guards : ∀ guard, branch.guard? = some guard → ∀ tree, part guard tree → other guard tree)
    (bodies : ∀ item ∈ branch.body, ∀ tree, part item tree → other item tree) :
    BranchExpansion other branch tree := by
  cases expansion with
  | otherwise each => exact .otherwise (each_imp each bodies)
  | test test each => exact .test (guards _ rfl _ test) (each_imp each bodies)

/-- What the parts of a tree become, they also become in another sense. -/
theorem Expansion.imp {e tree : Expr} (expansion : Expansion part e tree)
    (weaken : ∀ inner, IsPart inner e → ∀ result, part inner result → other inner result) :
    Expansion other e tree := by
  cases expansion with
  | bool value => exact .bool value
  | int value => exact .int value
  | ident free => exact .ident free
  | quoteForm datum => exact .quoteForm datum
  | quote datum => exact .quote datum
  | application free each =>
    exact .application free (each_imp each fun item among => weaken item (.item among))
  | defineForm free expands valued =>
    exact .defineForm free (weaken _ (.item (by simp)) _ expands) valued
  | setForm free expands valued =>
    exact .setForm free (weaken _ (.item (by simp)) _ expands) valued
  | lambdaForm distinct free nonempty each =>
    exact .lambdaForm distinct free nonempty (each_imp each fun item among =>
      weaken item (.item (List.mem_cons_of_mem _ (List.mem_cons_of_mem _ among))))
  | condForm each =>
    exact .condForm (each.imp fun parts clause item among =>
      weaken item (.clause (List.mem_cons_of_mem _ clause) among))
  | define expands valued => exact .define (weaken _ .define _ expands) valued
  | set expands valued => exact .set (weaken _ .set _ expands) valued
  | lambda each => exact .lambda (each_imp each fun item among => weaken item (.lambda among))
  | cond each =>
    exact .cond (each_imp each fun branch among tree expansion =>
      expansion.imp (fun guard tested => weaken guard (.guard among tested))
        fun item inside => weaken item (.branch among inside))

/-- What holds of every layer whose parts it holds of, holds of every expansion. -/
theorem expand_induction {motive : Expr → Expr → Prop} {e tree : Expr}
    (layer : ∀ e tree, Expansion motive e tree → motive e tree) (expands : e.ExpandsTo tree) :
    motive e tree := by
  -- By size and not by structure, because one layer reaches into lists of lists.
  induction size : sizeOf e using Nat.strongRecOn generalizing e tree with
  | _ size ih =>
    subst size
    exact layer e tree ((expandsTo_iff.mp expands).imp fun inner is_part result expands =>
      ih _ is_part.sizeOf_lt expands rfl)

end

end TailScheme.Expr
