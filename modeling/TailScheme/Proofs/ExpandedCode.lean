import TailScheme.Proofs.WellFormed
import TailScheme.Proofs.RoundTrip
import TailScheme.Proofs.Regime

/-!
# Only expanded code runs

The code of a closure may run long after it was expanded, from a scope or out of a list. But every
closure that a machine holds was made from an expanded `lambda` and its code is kept as it is, so
that whatever runs is expanded. All data that is quoted there is raw, and raw data can be quoted:
programs that are read from texts never stop at an unquotable form.
-/
namespace TailScheme

open Value (Hereditary)

namespace Value

/-- The code of all closures in a value is expanded. -/
def Expanded : Value → Prop
  | .pair _ first second => first.Expanded ∧ second.Expanded
  | .closure procedure => (Expr.lambda procedure.params procedure.body).Expanded
  | _ => True

/-- Pairs bring no code of their own. -/
theorem hereditary_expanded : Hereditary Expanded where
  nil := trivial
  bool _ := trivial
  int _ := trivial
  symbol _ := trivial
  builtin _ := trivial
  pair_iff _ _ _ := Iff.rfl

end Value

namespace Expr

variable {allowed : Error → Prop} {good : Value → Prop}

/-- Raw trees can be quoted. -/
theorem quotable_raw (hereditary : Hereditary good) : Quotable Raw allowed good where
  composite := hereditary.toComposite
  symbol name _ := hereditary.symbol name
  items _ raw := raw.forall_mem
  quote _ raw := by cases raw
  form e raw special := by cases raw <;> cases special

end Expr

/-- Code is expanded, and evaluation does not fail at quoted data. -/
def Regime.expanded : Regime where
  code := Expr.Expanded
  value := Value.Expanded
  name _ := True
  failure error := ∀ shown, error ≠ .unquotable shown

/-- Expanded code evaluates to nothing but expanded code, and what it quotes is raw. -/
theorem Regime.closed_expanded : Regime.expanded.Closed where
  part _ _ := Expr.IsPart.expanded
  define_name _ _ _ := trivial
  set_name _ _ _ := trivial
  composite := Value.hereditary_expanded.toComposite
  closure_iff _ := Iff.rfl
  quoted datum code := by
    cases code with
    | quote raw => exact (Expr.quotable_raw Value.hereditary_expanded).yields_quoted datum raw
  misuse error misuse := by
    rintro shown rfl
    cases misuse
  ident_unbound _ _ := by rintro _ ⟨⟩
  set_unbound _ _ _ := by rintro _ ⟨⟩
  missing := by rintro _ ⟨⟩
  shown _ _ _ _ := ⟨(by rintro _ ⟨⟩), (by rintro _ ⟨⟩)⟩
  count _ _ _ _ := by rintro _ ⟨⟩
  refused _ := by rintro _ ⟨⟩

namespace Expr

/-- A tree that a text can stand for is raw. -/
theorem Readable.raw {e : Expr} {level : Nat} (readable : e.Readable level) : e.Raw := by
  induction readable with
  | bool value => exact .bool value
  | int value => exact .int value
  | ident => exact .ident _
  | list room each ih => exact .list ih

end Expr

/-- What a reader hands out is a tree that a text can stand for. -/
theorem Reader.readable_of_mem_items (reader : Reader) {raw : Expr}
    (among : .ok raw ∈ reader.items) : raw.Readable 0 := by
  fun_induction Reader.items reader with
  | case1 reader later ends => cases among
  | case2 reader item later found shorter ih =>
    rcases List.mem_cons.mp among with first | more
    · subst first
      obtain ⟨_, _, _, derived, _⟩ := Reader.next_eq_ok_iff.mp found
      exact readable_of_datum derived
    · exact ih more

/-- What a reader hands out is raw. -/
theorem Reader.raw_of_mem_items (reader : Reader) {raw : Expr} (among : .ok raw ∈ reader.items) :
    raw.Raw :=
  (reader.readable_of_mem_items among).raw

/-- What a reader hands out is of the regime: what it expands to is expanded. -/
theorem Regime.expanded_admits (reader : Reader) : Regime.expanded.Admits reader.items where
  code _ among _ expands := Expr.expanded_of_expandsTo (reader.raw_of_mem_items among) expands
  malformed _ _ _ _ := by rintro _ ⟨⟩
  failure _ _ := by rintro _ ⟨⟩

section

variable (config : Config) (budget : Nat)

/-- On a machine that holds only expanded code, no source of a history stops at quoted data. -/
theorem history_ordinary (sources : List (Bool × String)) :
    ∀ machine : Machine, machine.All Value.Expanded →
      ∀ result ∈ history config budget sources machine,
        ∀ shown, result.1 ≠ .error (.failed (.unquotable shown)) := by
  intro machine all result among shown stopped
  have obeys : machine.Obeys .expanded := ⟨all, fun _ _ _ => trivial⟩
  have failure := failure_of_history config budget Regime.closed_expanded machine obeys
    (fun source _ => Regime.expanded_admits _) result among _ stopped
  exact failure shown rfl

/-- A program starts without any code. -/
theorem all_initial : Machine.initial.All Value.Expanded :=
  ⟨Heap.all_initial fun _ => trivial, fun _ among => by cases among⟩

end

/-- Expansion accepts exactly the well-formed programs. A raw tree that is well formed expands, to
a tree that is expanded in every part and stands for the one that was written; any other is refused
as malformed, and the machine is left as it was. So whatever sources are run one after the other,
none of them stops at an unquotable form. -/
theorem expansion_accepts_programs :
    (∀ raw : Expr, raw.Raw →
      ((∃ tree, raw.expand = .ok tree) ↔ raw.WellFormed) ∧
      (¬raw.WellFormed → ∃ form, raw.expand = .error form ∧ ∀ config budget machine,
        evalDatum config budget raw machine = .error (.failed (.malformed form)) machine) ∧
      ∀ tree, raw.expand = .ok tree → tree.Expanded ∧ tree.written = raw) ∧
    ∀ config budget sources, ∀ result ∈ history config budget sources .initial,
      ∀ shown, result.1 ≠ .error (.failed (.unquotable shown)) := by
  constructor
  · intro raw is_raw
    have accepted := Expr.expand_isOk_iff is_raw
    refine ⟨accepted, ?_, ?_⟩
    · intro ill_formed
      rcases expands : raw.expand with form | tree
      · refine ⟨form, rfl, ?_⟩
        intro config budget machine
        simp only [evalDatum, expands, Run.fail]
      · exact absurd (accepted.mp ⟨tree, expands⟩) ill_formed
    · intro tree expands
      exact ⟨Expr.expanded_of_expandsTo is_raw expands, Expr.written_of_expandsTo is_raw expands⟩
  · intro config budget sources
    exact history_ordinary config budget sources .initial all_initial

/-- A procedure that hands back quoted data that looks like a form is a program; one with the same
parameter twice is refused. Calling the first one stops at nothing quoted. -/
theorem expansion_accepts_programs_of_procedure :
    ((Expr.list [.ident "lambda", .list [.ident "x"],
        .list [.ident "quote", .list [.ident "cond"]]]).WellFormed ∧
      (Expr.lambda ["x"] [.quote (.list [.ident "cond"])]).Expanded ∧
      (Expr.lambda ["x"] [.quote (.list [.ident "cond"])]).written =
        .list [.ident "lambda", .list [.ident "x"],
          .list [.ident "quote", .list [.ident "cond"]]]) ∧
    evalDatum ⟨true, 200⟩ 5 (.list [.ident "lambda", .list [.ident "x", .ident "x"], .int 1])
        .initial = .error (.failed (.malformed .lambda)) .initial ∧
    ∃ result ∈ history ⟨true, 200⟩ 5 [(true, "((lambda (x) '(cond)) 1)")] .initial,
      ∀ shown, result.1 ≠ .error (.failed (.unquotable shown)) := by
  have read : Reader.single true "(lambda (x) '(cond))" = .ok (.list [.ident "lambda",
      .list [.ident "x"], .list [.ident "quote", .list [.ident "cond"]]]) := by decide +kernel
  have read_twice : Reader.single true "(lambda (x x) 1)" =
      .ok (.list [.ident "lambda", .list [.ident "x", .ident "x"], .int 1]) := by decide +kernel
  have expands : (Expr.list [.ident "lambda", .list [.ident "x"],
      .list [.ident "quote", .list [.ident "cond"]]]).expand =
        .ok (.lambda ["x"] [.quote (.list [.ident "cond"])]) := rfl
  have refused : (Expr.list [.ident "lambda", .list [.ident "x", .ident "x"], .int 1]).expand =
      .error .lambda := rfl
  have accepted := expansion_accepts_programs.1 _ (readable_of_single read).raw
  have rejected := expansion_accepts_programs.1 _ (readable_of_single read_twice).raw
  have ill_formed : ¬(Expr.list [.ident "lambda", .list [.ident "x", .ident "x"],
      .int 1]).WellFormed := by
    intro well_formed
    obtain ⟨tree, expands⟩ := rejected.1.mpr well_formed
    rw [refused] at expands
    cases expands
  obtain ⟨form, same, stops⟩ := rejected.2.1 ill_formed
  obtain rfl := Except.error.inj (same.symm.trans refused)
  have runs := expansion_accepts_programs.2 ⟨true, 200⟩ 5 [(true, "((lambda (x) '(cond)) 1)")]
  exact ⟨⟨accepted.1.mp ⟨_, expands⟩, accepted.2.2 _ expands⟩, stops _ _ _,
    _, List.mem_cons_self, runs _ List.mem_cons_self⟩

end TailScheme
