import ServerSplit.Config.Check
import ServerSplit.Directive
import ServerSplit.Proofs.Js.Marked

/-! Which of the directives that a configuration may have can mark a function. The function
`function f() { "…"; }`, with the directive in either kind of quotes, is marked by it exactly if the literal
can hold the directive, and its source is not read otherwise. -/
namespace ServerSplit

open Js Js.Tree
open Js.Grammar (Literal Unescaped functionHead literalBlock literalFunction literalSource literalStatement literalTree)

/-! ### The function of a literal -/

theorem functions_literalTree (p : Literal) : (literalTree p).functions = [literalFunction p] := by
  have hpieces := collectOf_leaves (p := isFunction) (fun _ => rfl) p.2
  simp [functions, literalTree, collect, collectOf, literalFunction, functionHead, literalBlock, literalStatement,
    hpieces, isFunction, functionKind?]

theorem functionName?_literalFunction (p : Literal) : (literalFunction p).functionName? = some ['f'] := rfl

theorem prologue_literalFunction (p : Literal) :
    prologue (literalFunction p).functionBody = [.node .string (p.2.map .leaf)] := rfl

theorem prologue_literalTree (p : Literal) : prologue (literalTree p).children = [] := rfl

namespace Directive

theorem markers_literalTree {d : Text} {p : Literal} (h : (node .string (p.2.map .leaf)).contents = d) :
    markers d (literalTree p) = [⟨.node .string (p.2.map .leaf), literalFunction p⟩] := by
  simp [markers, functions_literalTree, inPrologue, prologue_literalFunction, h]

theorem orphans_literalTree (d : Text) (p : Literal) : orphans d (literalTree p) = [] := by
  simp [orphans, inPrologue, prologue_literalTree]

end Directive

/-! ### Directives of configurations -/

namespace Config

theorem unescaped_directive {c : Config} (h : c.fault? = none) {q : Char} (hq : q = '"' ∨ q = '\'') :
    Unescaped q c.directive := by
  have hbroken : ¬ c.directive.any "\"'\n\\".toList.contains = true := by
    intro hany
    rw [fault?, if_pos hany] at h
    split at h <;> exact nomatch h
  intro x hx
  have hfree : "\"'\n\\".toList.contains x = false := by
    simpa using fun hx' => hbroken (List.any_eq_true.2 ⟨x, hx, hx'⟩)
  refine ⟨?_, ?_, ?_⟩
  · rintro rfl
    rcases hq with rfl | rfl <;> cases hfree
  · rintro rfl
    cases hfree
  · rintro rfl
    cases hfree

/-- The directive of a usable configuration marks the function that begins with it, and nothing else there, if a
literal can hold it; if not, the source is none. A directive without carriage returns and zero characters is held. -/
theorem directive_marks {c : Config} (h : c.fault? = none) {q : Char} (hq : q = '"' ∨ q = '\'') :
    (if StringLiteral.holds c.directive then
      ∃ tree l f, parse (literalSource q c.directive) = some tree ∧
        Directive.markers c.directive tree = [⟨l, f⟩] ∧ f.functionName? = some ['f'] ∧
        Directive.orphans c.directive tree = []
    else parse (literalSource q c.directive) = none) ∧
    (c.directive.all StringLiteral.isPlain → StringLiteral.holds c.directive) := by
  refine ⟨?_, StringLiteral.holds_of_plain⟩
  obtain ⟨o, hheld, hparse, hcontents⟩ := parse_literalSource hq (unescaped_directive h hq)
  rw [← hheld]
  cases o with
  | none => simpa using hparse
  | some p =>
    refine (if_pos rfl).mpr ⟨_, _, _, hparse, Directive.markers_literalTree (hcontents p rfl), ?_, ?_⟩
    · exact functionName?_literalFunction p
    · exact Directive.orphans_literalTree _ p

/-- A carriage return that a comment follows does not keep a directive from marking its function. -/
theorem directive_marks_comment :
    let d := "use\r/* */server".toList
    Config.fault? { directive := d } = none ∧
      ∃ tree l f, parse "function f() \x7b 'use\r/* */server'; \x7d".toList = some tree ∧
        Directive.markers d tree = [⟨l, f⟩] ∧ f.functionName? = some ['f'] ∧ Directive.orphans d tree = [] :=
  have h : Config.fault? { directive := "use\r/* */server".toList } = none := by decide +kernel
  ⟨h, (if_pos (by decide +kernel)).mp (directive_marks h (.inr rfl)).1⟩

/-- A configuration can have a directive with a carriage return in it, which no literal holds. -/
theorem broken_directive_accepted :
    Config.fault? { directive := "a\rb".toList } = none ∧
      parse "function f() \x7b \"a\rb\"; \x7d".toList = none ∧
      parse "function f() \x7b 'a\rb'; \x7d".toList = none := by
  decide +kernel

end Config

end ServerSplit
