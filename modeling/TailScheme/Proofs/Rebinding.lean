import TailScheme.Proofs.Locality
import TailScheme.Proofs.ExpandedCode
import TailScheme.Proofs.Successive

/-!
# Bindings change under their own names only

The binding of a name changes only when a definition or an assignment of that very name is executed.
All code that an evaluation may come to is in its tree or in the bodies of the closures that it can
reach (`Machine.ReachesValue`). If none of it defines or assigns a name, then that name is bound to
the same value afterwards in every scope that was there, or still to none: as a parameter, it is
bound in scopes that are new.

So a builtin keeps its name as long as no program has a definition or an assignment of the name in
its text (`Expr.Rewrites`).
-/
namespace TailScheme

mutual

/-- The scopes that an evaluation in a scope may look into: that scope, those around it, and those
that closures were made in, outward. -/
inductive Machine.ReachesScope (machine : Machine) (start : ScopeId) : ScopeId → Prop where
  | start : machine.ReachesScope start start
  | parent {scope parent : ScopeId} {found : Scope} (reached : machine.ReachesScope start scope)
      (there : machine.heap.scopes[scope]? = some found) (within : found.parent = some parent) :
      machine.ReachesScope start parent
  | captured {procedure : Closure} (reached : machine.ReachesValue start (.closure procedure)) :
      machine.ReachesScope start procedure.scope

/-- The values that an evaluation in a scope may get hold of: those that are bound where it may
look, those in calls that are deferred to frames, and the parts of pairs. -/
inductive Machine.ReachesValue (machine : Machine) (start : ScopeId) : Value → Prop where
  | bound {scope : ScopeId} {name : String} {value : Value}
      (reached : machine.ReachesScope start scope)
      (among : (name, value) ∈ machine.heap.locals scope) : machine.ReachesValue start value
  | callee {frame : Frame} {call : Call} (running : frame ∈ machine.stack.frames)
      (deferred : frame.deferred = some call) :
      machine.ReachesValue start (.closure call.callee)
  | arg {frame : Frame} {call : Call} {value : Value} (running : frame ∈ machine.stack.frames)
      (deferred : frame.deferred = some call) (among : value ∈ call.args) :
      machine.ReachesValue start value
  | first {id : Nat} {first second : Value}
      (reached : machine.ReachesValue start (.pair id first second)) :
      machine.ReachesValue start first
  | second {id : Nat} {first second : Value}
      (reached : machine.ReachesValue start (.pair id first second)) :
      machine.ReachesValue start second

end

namespace Machine

section

variable {machine : Machine} {start : ScopeId} {changes : String → Prop}

/-- Whatever can be reached has a property if all values that the machine holds have it. -/
theorem ReachesValue.of_all {good : Value → Prop} (hereditary : Value.Hereditary good)
    (all : machine.All good) {value : Value} : machine.ReachesValue start value → good value
  | .bound _ among => all.heap _ _ among
  | .callee running deferred => (all.stack _ running _ deferred).callee
  | .arg running deferred among => (all.stack _ running _ deferred).args _ among
  | .first reached => ((hereditary.pair_iff _ _ _).mp (of_all hereditary all reached)).1
  | .second reached => ((hereditary.pair_iff _ _ _).mp (of_all hereditary all reached)).2

/-- The scopes that an evaluation in a scope may ever look into: those that it may look into at the
start, and those that are new. -/
def MayReach (machine : Machine) (start scope : ScopeId) : Prop :=
  machine.ReachesScope start scope ∨ machine.heap.scopes.size ≤ scope

/-- Values that can be reached are confined if all closures that can be reached are. -/
theorem ReachesValue.confined
    (closures : ∀ procedure, machine.ReachesValue start (.closure procedure) →
      ∀ item ∈ procedure.body, ∀ name, item.Rebinds name → changes name) {value : Value}
    (reached : machine.ReachesValue start value) :
    value.Confined (machine.MayReach start) changes := by
  induction value with
  | pair id first second first_ih second_ih =>
    exact ⟨first_ih reached.first, second_ih reached.second⟩
  | closure procedure => exact ⟨.inl (.captured reached), closures procedure reached⟩
  | _ => trivial

/-- A machine is confined if all closures that can be reached are. -/
theorem confined_of_closures
    (closures : ∀ procedure, machine.ReachesValue start (.closure procedure) →
      ∀ item ∈ procedure.body, ∀ name, item.Rebinds name → changes name) :
    machine.Confined (machine.MayReach start) changes := by
  refine ⟨⟨?_, ?_, .inr⟩, ?_⟩
  · rintro scope (reached | new) ⟨name, value⟩ among
    · exact ReachesValue.confined closures (.bound reached among)
    · rw [Heap.locals, Array.getElem?_eq_none new] at among
      cases among
  · rintro scope found parent (reached | new) there within
    · exact .inl (.parent reached there within)
    · rw [Array.getElem?_eq_none new] at there
      cases there
  · intro frame running call deferred
    exact ⟨ReachesValue.confined closures (.callee running deferred),
      fun arg among => ReachesValue.confined closures (.arg running deferred among)⟩

end

end Machine

namespace Expr

/-- There is a definition or an assignment of the name in the text of the program, outside
quotes. -/
inductive Rewrites (name : String) : Expr → Prop where
  | define {rest : List Expr} : Rewrites name (.list (.ident "define" :: .ident name :: rest))
  | set {rest : List Expr} : Rewrites name (.list (.ident "set!" :: .ident name :: rest))
  | item {item : Expr} {items : List Expr} (unquoted : items.head? ≠ some (.ident "quote"))
      (among : item ∈ items) (inside : Rewrites name item) : Rewrites name (.list items)

section

variable {name : String} {e inner : Expr} {items : List Expr} {branches : List Branch}

/-- An identifier is no definition. -/
@[simp] theorem not_rewrites_ident (other : String) : ¬(ident other).Rewrites name := by
  rintro ⟨⟩

/-- An integer is no definition. -/
@[simp] theorem not_rewrites_int (value : Int64) : ¬(int value).Rewrites name := by
  rintro ⟨⟩

/-- Where a list defines or assigns a name. -/
@[simp] theorem rewrites_list_iff : (list items).Rewrites name ↔
    (∃ rest, items = .ident "define" :: .ident name :: rest) ∨
    (∃ rest, items = .ident "set!" :: .ident name :: rest) ∨
    items.head? ≠ some (.ident "quote") ∧ ∃ item ∈ items, item.Rewrites name := by
  constructor
  · rintro (_ | _ | ⟨unquoted, among, inside⟩)
    · exact .inl ⟨_, rfl⟩
    · exact .inr (.inl ⟨_, rfl⟩)
    · exact .inr (.inr ⟨unquoted, _, among, inside⟩)
  · rintro (⟨rest, rfl⟩ | ⟨rest, rfl⟩ | ⟨unquoted, item, among, inside⟩)
    · exact .define
    · exact .set
    · exact .item unquoted among inside

/-- No expanded tree is written as the keyword of quotes. -/
theorem Expanded.written_ne_quote (expanded : e.Expanded) : e.written ≠ .ident "quote" := by
  cases expanded with
  | ident free =>
    intro same
    cases same
    exact free .quote rfl
  | _ => simp [written]

/-- What several trees were written as is what each of them was written as. -/
theorem writtenAll_eq_map : writtenAll items = items.map written := by
  induction items with
  | nil => rfl
  | cons item items ih => rw [writtenAll, ih, List.map_cons]

/-- What is written first in an expanded list is not the keyword of quotes. -/
theorem head?_writtenAll_ne (each : ∀ item ∈ items, item.Expanded) :
    (writtenAll items).head? ≠ some (.ident "quote") := by
  cases items with
  | nil => simp [writtenAll]
  | cons item items =>
    rw [writtenAll, List.head?_cons]
    intro same
    exact (each item List.mem_cons_self).written_ne_quote (Option.some.inj same)

/-- A branch was written as a clause, with its test for a head. -/
theorem exists_clause {branch : Branch} (among : branch ∈ branches) :
    ∃ head, .list (head :: writtenAll branch.body) ∈ writtenBranches branches ∧
      (branch.guard? = none → head = .ident "else") ∧
      ∀ guard, branch.guard? = some guard → head = guard.written := by
  induction branches with
  | nil => cases among
  | cons first branches ih =>
    rcases List.mem_cons.mp among with rfl | later
    · cases branch with
      | test guard body =>
        refine ⟨guard.written, List.mem_cons_self, (by rintro ⟨⟩), ?_⟩
        rintro _ ⟨⟩
        rfl
      | otherwise body => exact ⟨.ident "else", List.mem_cons_self, fun _ => rfl, by rintro _ ⟨⟩⟩
    · obtain ⟨head, clause, is_else, is_test⟩ := ih later
      refine ⟨head, ?_, is_else, is_test⟩
      cases first with
      | test guard body => exact List.mem_cons_of_mem _ clause
      | otherwise body => exact List.mem_cons_of_mem _ clause

/-- What is written in an item of an expanded list is written in the list. -/
theorem Rewrites.in_list {item : Expr} (inside : item.written.Rewrites name)
    (among : item ∈ items) (expanded : (list items).Expanded) :
    (list items).written.Rewrites name := by
  cases expanded with
  | application each =>
    refine .item (head?_writtenAll_ne each) ?_ inside
    rw [writtenAll_eq_map]
    exact List.mem_map_of_mem among

/-- What is written in a test or in the body of a branch is written in the `cond`. -/
theorem Rewrites.in_cond {item : Expr} {branch : Branch} (inside : item.written.Rewrites name)
    (place : branch.guard? = some item ∨ item ∈ branch.body) (among : branch ∈ branches)
    (expanded : (cond branches).Expanded) : (cond branches).written.Rewrites name := by
  obtain ⟨head, clause, is_else, is_test⟩ := exists_clause among
  have head_ne : head ≠ .ident "quote" := by
    rcases tested : branch.guard? with _ | guard
    · rw [is_else tested]
      simp
    · rw [is_test guard tested]
      exact ((IsPart.guard among tested).expanded expanded).written_ne_quote
  have in_clause : item.written ∈ head :: writtenAll branch.body := by
    rcases place with tested | in_body
    · rw [is_test item tested]
      exact List.mem_cons_self
    · rw [writtenAll_eq_map]
      exact List.mem_cons_of_mem _ (List.mem_map_of_mem in_body)
  have clause_rewrites : (list (head :: writtenAll branch.body)).Rewrites name :=
    .item (by simpa using head_ne) in_clause inside
  exact .item (by simp) (List.mem_cons_of_mem _ clause) clause_rewrites

/-- What is written in a part of an expanded tree is written in the tree. -/
theorem IsPart.rewrites (is_part : IsPart inner e) (expanded : e.Expanded)
    (inside : inner.written.Rewrites name) : e.written.Rewrites name := by
  cases is_part with
  | item among => exact inside.in_list among expanded
  | clause clause among =>
    have clause_expanded := (IsPart.item clause).expanded expanded
    exact (inside.in_list among clause_expanded).in_list clause expanded
  | define => exact .item (by simp) (by simp) inside
  | set => exact .item (by simp) (by simp) inside
  | lambda among =>
    refine .item (by simp) ?_ inside
    rw [writtenAll_eq_map]
    exact List.mem_cons_of_mem _ (List.mem_cons_of_mem _ (List.mem_map_of_mem among))
  | guard among tested => exact inside.in_cond (.inl tested) among expanded
  | branch among in_body => exact inside.in_cond (.inr in_body) among expanded

/-- A definition or an assignment in an expanded tree was written in the text. -/
theorem Rebinds.rewrites (rebinds : e.Rebinds name) (expanded : e.Expanded) :
    e.written.Rewrites name := by
  induction rebinds with
  | define => exact .define
  | set => exact .set
  | part is_part inside ih => exact is_part.rewrites expanded (ih (is_part.expanded expanded))

end

end Expr

namespace Heap

/-- The top level lies within no other scope, so its names are looked up nowhere else. -/
theorem lookup_root (heap : Heap) (name : String) :
    heap.lookup root name = (heap.locals root).find? name := by
  have along : ∀ scopes, scopes = [root] →
      (heap.findAlong name scopes).map Prod.snd = (heap.locals root).find? name := by
    rintro _ rfl
    rw [findAlong]
    split
    · next found => exact found.symm
    · next missing => exact missing.symm
  unfold lookup Heap.find? chain
  rw [chainWithin]
  split
  · next missing => simp [locals, missing, findAlong, Bindings.find?]
  · split
    · exact along _ rfl
    · exact along _ rfl

/-- A program starts with every builtin under its name. -/
theorem find?_initial (builtin : Builtin) :
    (initial.locals root).find? builtin.name = some (.builtin builtin) := by
  cases builtin <;> rfl

end Heap

section

variable {live : ScopeId → Prop} {changes : String → Prop} (config : Config) (budget : Nat)

/-- Evaluating a raw tree changes only names that are defined or assigned in its text. -/
theorem traced_evalDatum {raw : Expr} {machine : Machine} (confined : machine.Confined live changes)
    (alive : live Heap.root) (is_raw : raw.Raw)
    (rewritten : ∀ name, raw.Rewrites name → changes name) :
    Run.Traced live changes (fun _ _ => True) machine
      (left (evalDatum config budget raw machine)) := by
  unfold evalDatum
  rcases expands : raw.expand with form | e
  · exact .of_scopes confined rfl confined.stack
  · have rebound : ∀ name, e.Rebinds name → changes name := by
      intro name rebinds
      have was_written := rebinds.rewrites (Expr.expanded_of_expandsTo is_raw expands)
      rw [Expr.written_of_expandsTo is_raw expands] at was_written
      exact rewritten name was_written
    have traced := (stays_eval config budget alive rebound).traced confined
    exact ⟨traced.confined, traced.footprint.mono fun _ _ _ _ => trivial⟩

/-- Evaluating raw trees one after the other changes only names that are defined or assigned in
their texts. -/
theorem traced_evalItems (alive : live Heap.root) (items : List (Except ReadError Expr))
    (all_raw : ∀ raw, .ok raw ∈ items → raw.Raw)
    (rewritten : ∀ raw, .ok raw ∈ items → ∀ name, raw.Rewrites name → changes name) :
    ∀ (last : Value) (machine : Machine), machine.Confined live changes →
      Run.Traced live changes (fun _ _ => True) machine
        (left (evalItems config budget last items machine)) := by
  induction items with
  | nil => exact fun _ _ confined => .of_scopes confined rfl confined.stack
  | cons item items ih =>
    intro last machine confined
    cases item with
    | error error => exact .of_scopes confined rfl confined.stack
    | ok raw =>
      have later := ih (fun raw among => all_raw raw (List.mem_cons_of_mem _ among))
        fun raw among => rewritten raw (List.mem_cons_of_mem _ among)
      have traced := traced_evalDatum config budget confined alive (all_raw raw List.mem_cons_self)
        (rewritten raw List.mem_cons_self)
      change Run.Traced live changes _ machine (left (EStateM.bind (evalDatum config budget raw)
        (fun value => evalItems config budget value items) machine))
      unfold EStateM.bind
      match evalDatum config budget raw machine, traced with
      | .ok value after, traced => exact traced.trans (later value after traced.confined)
      | .error stop after, traced => exact traced

/-- Running sources one after the other changes only names that are defined or assigned in their
texts. -/
theorem footprint_history (alive : live Heap.root) (sources : List (Bool × String))
    (rewritten : ∀ source ∈ sources, ∀ raw,
      .ok raw ∈ (Reader.ofString source.1 source.2).items →
      ∀ name, raw.Rewrites name → changes name) :
    ∀ machine : Machine, machine.Confined live changes →
      ∀ result ∈ history config budget sources machine,
        machine.heap.Footprint (fun _ _ => True) changes result.2 := by
  induction sources with
  | nil => exact fun _ _ _ among => by cases among
  | cons source sources ih =>
    intro machine confined result among
    obtain ⟨comments, text⟩ := source
    rw [List.forall_mem_cons] at rewritten
    have traced := traced_evalItems config budget alive (Reader.ofString comments text).items
      (fun _ => Reader.raw_of_mem_items _) rewritten.1 .nil machine confined
    rcases List.mem_cons.mp among with rfl | later
    · rw [snd_seen]
      exact traced.footprint
    · exact traced.footprint.trans (ih rewritten.2 _ traced.confined result later)

end

/-- A program starts confined, whatever may change. -/
theorem Machine.confined_initial (changes : String → Prop) :
    Machine.initial.Confined (fun _ => True) changes :=
  ⟨⟨fun _ => Heap.all_initial (fun _ => trivial) _, fun _ _ _ => trivial, fun _ => trivial⟩,
    fun _ among => by cases among⟩

/-- A binding changes only through a definition or an assignment of its own name. If neither the
tree nor the body of any closure that can be reached contains one, outside quoted data, then the
evaluation of the tree leaves the name in every scope that was there bound to what it was bound to,
or to nothing, whether it ends with a value or not. So a builtin keeps its name in all programs that
are written without a definition or an assignment of that name outside quotes. -/
theorem binding_changes_under_its_name :
    (∀ (config : Config) (budget room : Nat) (e : Expr) (scope : ScopeId) (machine : Machine)
      (name : String), ¬e.Rebinds name →
      (∀ procedure, machine.ReachesValue scope (.closure procedure) →
        ∀ item ∈ procedure.body, ¬item.Rebinds name) →
      ∀ other < machine.heap.scopes.size,
        ((left (evaluate config.tailCalls (invoke config budget room) e scope machine)).heap.locals
          other).find? name = (machine.heap.locals other).find? name) ∧
    ∀ (config : Config) (budget : Nat) (sources : List (Bool × String)) (builtin : Builtin),
      (∀ source ∈ sources, ∀ raw, .ok raw ∈ (Reader.ofString source.1 source.2).items →
        ¬raw.Rewrites builtin.name) →
      ∀ heap ∈ Heap.initial :: (history config budget sources .initial).map Prod.snd,
        heap.lookup Heap.root builtin.name = some (.builtin builtin) := by
  constructor
  · intro config budget room e scope machine name e_free closures_free other old
    have confined : machine.Confined (machine.MayReach scope) (· ≠ name) :=
      Machine.confined_of_closures fun procedure reached item among label rebinds => by
        rintro rfl
        exact closures_free procedure reached item among rebinds
    have stays : Run.Stays (machine.MayReach scope) (· ≠ name) (Heap.Grants scope e.Defines)
        (Value.Confined (machine.MayReach scope) (· ≠ name))
        (evaluate config.tailCalls (invoke config budget room) e scope) :=
      stays_evaluate (stays_invoke config budget room) e scope (.inl .start) (fun _ => id)
        fun label rebinds => by
          rintro rfl
          exact e_free rebinds
    exact (stays.traced confined).footprint.unchanged old fun differs => differs rfl
  · intro config budget sources builtin unwritten heap among
    have footprint : Heap.initial.Footprint (fun _ _ => True) (· ≠ builtin.name) heap := by
      rcases List.mem_cons.mp among with rfl | later
      · exact .refl _
      · obtain ⟨result, ran, rfl⟩ := List.mem_map.mp later
        exact footprint_history config budget trivial sources
          (fun source listed raw read name rewrites => by
            rintro rfl
            exact unwritten source listed raw read rewrites)
          .initial (Machine.confined_initial _) result ran
    rw [Heap.lookup_root, footprint.unchanged (by decide) fun differs => differs rfl]
    exact Heap.find?_initial builtin

/-- A procedure with a parameter `x` that quotes a definition of `x` leaves the binding of `x` alone
when it is called, and a parameter `+` in one program leaves `+` to the next one. -/
theorem binding_changes_under_its_name_of_parameter :
    let body := [Expr.quote (.list [.ident "define", .ident "x", .int 1]), .ident "x"]
    let heap := (Heap.initial.insert Heap.root "x" (.int 7)).insert Heap.root "f"
      (.closure ⟨0, ["x"], body, Heap.root⟩)
    let e := Expr.list [.ident "f", .int 5]
    let sources := [(true, "(define f (lambda (+) '(set! + 1))) ; (set! + 2)"), (false, "(f 3)")]
    ¬e.Rebinds "x" ∧
    (∀ procedure, (Machine.ofHeap heap).ReachesValue Heap.root (.closure procedure) →
      ∀ item ∈ procedure.body, ¬item.Rebinds "x") ∧
    Heap.root < heap.scopes.size ∧
    ((left (evaluate true (invoke ⟨true, 200⟩ 5 200) e Heap.root (.ofHeap heap))).heap.locals
      Heap.root).find? "x" = (heap.locals Heap.root).find? "x" ∧
    (∀ source ∈ sources, ∀ raw, .ok raw ∈ (Reader.ofString source.1 source.2).items →
      ¬raw.Rewrites "+") ∧
    ∀ final ∈ Heap.initial :: (history ⟨true, 200⟩ 5 sources .initial).map Prod.snd,
      final.lookup Heap.root "+" = some (.builtin .add) := by
  intro body heap e sources
  have e_free : ¬e.Rebinds "x" := by simp [e]
  have all : (Machine.ofHeap heap).All (Value.Confined (fun _ => True) (· ≠ "x")) := by
    refine ⟨((Heap.all_initial fun _ => trivial).insert trivial).insert ⟨trivial, ?_⟩,
      fun _ among => by cases among⟩
    intro item among name rebinds
    simp only [body, List.mem_cons, List.not_mem_nil, or_false] at among
    rcases among with rfl | rfl
    · exact absurd rebinds (Expr.not_rebinds_quote _)
    · exact absurd rebinds (Expr.not_rebinds_ident _)
  have closures_free : ∀ procedure,
      (Machine.ofHeap heap).ReachesValue Heap.root (.closure procedure) →
      ∀ item ∈ procedure.body, ¬item.Rebinds "x" := by
    intro procedure reached item among rebinds
    have confined := reached.of_all (Value.hereditary_confined _ _) all
    exact confined.2 item among "x" rebinds rfl
  have first : (Reader.ofString true "(define f (lambda (+) '(set! + 1))) ; (set! + 2)").items =
      [.ok (.list [.ident "define", .ident "f", .list [.ident "lambda", .list [.ident "+"],
        .list [.ident "quote", .list [.ident "set!", .ident "+", .int 1]]]])] :=
    Reader.items_eq_iff.mpr (by decide +kernel)
  have second : (Reader.ofString false "(f 3)").items = [.ok (.list [.ident "f", .int 3])] :=
    Reader.items_eq_iff.mpr (by decide +kernel)
  have unwritten : ∀ source ∈ sources, ∀ raw,
      .ok raw ∈ (Reader.ofString source.1 source.2).items → ¬raw.Rewrites "+" := by
    simp [sources, first, second]
  obtain ⟨runs, programs⟩ := binding_changes_under_its_name
  exact ⟨e_free, closures_free, by decide,
    runs ⟨true, 200⟩ 5 200 e Heap.root (.ofHeap heap) "x" e_free closures_free Heap.root
      (by decide),
    unwritten, programs ⟨true, 200⟩ 5 sources .add unwritten⟩

end TailScheme
