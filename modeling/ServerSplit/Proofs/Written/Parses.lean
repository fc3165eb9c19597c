import ServerSplit.Proofs.Run
import ServerSplit.Proofs.Written.Invoke
import ServerSplit.Proofs.Written.Names

/-! The generated module as a source. All of it but the functions of the registry is known, and is read in the one
way that was meant, in either format and with any name; so the module has a tree where each of the functions is
read as a whole. On one line, not every function is. -/
namespace ServerSplit.Sdk

open Js Js.Reader Js.Grammar
open Js.Rule hiding part

variable {b t u : Text}

/-! ### The functions by their identifiers -/

/-- The text is read as a whole where it is the last in a list, whatever stands behind the list. -/
def StandsAlone (t : Text) : Prop := ∀ u, Goes (item ++ mark "]") (fresh (' ' :: (t ++ ']' :: u))) u

/-- The lines of some records with the bracket behind them. -/
def rows (u : Text) : List Record → Text
  | [] => "\n  ".toList ++ ']' :: u
  | x :: xs =>
    "\n    ".toList ++ '[' :: (Json.quoted x.id ++ ',' :: ' ' :: (x.sourceText ++ ']' :: ',' :: rows u xs))

theorem comma_none {s s' : Reader} : Comes (mark "]") s (some s') → Comes comma s none
  | ⟨k, h⟩ => by
    have h : (Step.token .mark (Lexeme.exactly "]".toList)).run s = some s' := by
      have := h 1
      rwa [Nat.add_comm] at this
    refine .step ?_
    simp only [Step.run, bind, Option.bind_eq_some_iff, Option.bind_eq_none_iff] at h ⊢
    obtain ⟨v, hv, h⟩ := h
    obtain ⟨p, hp, -⟩ := Option.map_eq_some_iff.1 h
    obtain ⟨r, hr, -⟩ := Option.map_eq_some_iff.1 hp
    rw [hv]
    intro w hw
    cases hw
    simp only [take, Lexeme.exactly, Text.eq_append_of_after hr]
    rfl

theorem pair_goes {d : Text} (h : StandsAlone t) :
    Goes array (ready b ('[' :: (Json.quoted d ++ ',' :: ' ' :: (t ++ ']' :: u)))) u := by
  intro n ts us
  have hkey : Goes item (fresh (Json.quoted d ++ ',' :: ' ' :: (t ++ ']' :: u))) (',' :: ' ' :: (t ++ ']' :: u)) :=
    item_goes (b := []) nofun rfl rfl rfl (string_goes d _)
  let opening : Tree := .leaf ⟨.mark, b, ['['], n⟩
  obtain ⟨m, new, hkey, hnew⟩ := hkey (n + 1) [opening] (ts :: us)
  let comma : Tree := .leaf ⟨.mark, [], [','], m⟩
  obtain ⟨m', new', hvalue, hnew'⟩ := h u (m + 1) (comma :: (new ++ [opening])) (ts :: us)
  obtain ⟨s, hvalue, hclose⟩ := hvalue.of_seq item_reads rfl fresh_blank
  have hrow : Comes (many (Grammar.comma ++ opt item))
      (fresh (',' :: ' ' :: (t ++ ']' :: u)) m (new ++ [opening]) (ts :: us)) (some s) := by
    have hrest : Comes (many (Grammar.comma ++ opt item)) s (some s) := .many_stop (comma_none hclose).seq_none
    refine .many_next ?_ rfl rfl fresh_blank (.seq (.step rfl) (.opt_some hvalue)) hrest
    simpa [Grammar.comma] using item_reads
  refine ⟨m', [.node .array (new' ++ comma :: (new ++ [opening])).reverse],
    .node (ready_ready.settle {}) (.seq (.seq (.step rfl) (.seq (.opt_some hkey) hrow)) hclose) rfl, ?_⟩
  refine List.forall_mem_singleton.2 (Tree.decided_reverse rfl (List.forall_mem_append.2 ⟨hnew', ?_⟩))
  refine List.forall_mem_cons.2 ⟨Tree.decided_leaf _, List.forall_mem_append.2 ⟨hnew, ?_⟩⟩
  exact List.forall_mem_singleton.2 (Tree.decided_leaf _)

theorem rows_goes (xs : List Record) (hxs : ∀ x ∈ xs, StandsAlone x.sourceText) :
    ∃ w, Goes (opt item) (fresh (rows u xs)) w ∧
      Goes (many (comma ++ opt item)) (fresh w) ("\n  ".toList ++ ']' :: u) := by
  induction xs with
  | nil =>
    exact ⟨_, .opt_none fun _ _ _ => ⟨60, fun _ => rfl⟩, row_stop (List.all_eq_true.1 rfl) rfl (by decide)⟩
  | cons x xs ih =>
    obtain ⟨hx, hxs⟩ := List.forall_mem_cons.1 hxs
    obtain ⟨w, hitem, hrow⟩ := ih hxs
    refine ⟨',' :: rows u xs, .left ?_, row_next hitem hrow⟩
    refine item_goes (b := "\n    ".toList) (List.all_eq_true.1 rfl) rfl rfl rfl ?_
    refine .part (.gap ?_)
    iterate 6 refine .right (fun _ _ _ => ⟨40, fun _ => rfl⟩) ?_
    exact .left (.part (pair_goes hx))

/-! ### The function of the module -/

section Pieces

variable (xs : List Record) (u : Text)

def methods : Text :=
  "\n  ".toList ++ ("const availableMethods =".toList ++ ([' '] ++ ("new ".toList ++
    'M' :: ("ap".toList ++ '(' :: '[' :: rows (')' :: ';' :: u) xs))))

/-- The block of the function. -/
def block : Text := '\x7b' :: methods xs (invoke (result (['\n'] ++ '\x7d' :: u)))

def declared (factory : Text) : Text :=
  "function".toList ++ ([' '] ++ (factory ++ '(' :: ')' :: ([' '] ++ block xs u)))

end Pieces

section Declared

variable {xs : List Record} (hxs : ∀ x ∈ xs, StandsAlone x.sourceText)
include hxs

theorem methods_goes : Goes (part (.statement false)) (fresh (methods xs u)) u := by
  obtain ⟨w, hitem, hrow⟩ := rows_goes (u := ')' :: ';' :: u) xs hxs
  have harray : Goes item (fresh ([] ++ '[' :: rows (')' :: ';' :: u) xs)) (')' :: ';' :: u) :=
    item_goes nofun rfl rfl rfl (array_goes (b := "\n  ".toList) (List.all_eq_true.1 rfl) (hitem.seq hrow))
  have hmade := new_goes (b := [' ']) (w := "ap".toList) (d := 'M') rfl (by decide) (fun _ => rfl) harray
  have hmade := hmade.behind passesGap_operand (b := [' ']) (List.all_eq_true.1 rfl) rfl
  have hdeclaration := declaration_goes (b := "\n  ".toList) hmade
  have hstarts {t : Text} :
      Goes startsVariablesNotValue (ready "\n  ".toList ("const availableMethods =".toList ++ t))
        (" availableMethods =".toList ++ t) := .right (fun _ _ _ => ⟨20, fun _ => rfl⟩) (.left (goes_read rfl))
  refine .behind passesGap_statement (b := "\n  ".toList) (List.all_eq_true.1 rfl) rfl (.part (.gap ?_))
  iterate 14 refine .right (fun _ _ _ => ⟨40, fun _ => rfl⟩) ?_
  exact .left (hstarts.seen hdeclaration)

theorem block_goes {o : Bool} (hinserted : Semicolon.isInserted o u = true) :
    Goes (body o) (fresh ([' '] ++ block xs u)) u := by
  have hstop := statements_stop (b := ['\n']) (u := u) (List.all_eq_true.1 rfl)
  have hresult := statements_next result_goes hstop
  have hstatements := statements_next (methods_goes hxs) (statements_next invoke_goes hresult)
  have hclose := closingBrace_goes (b := ['\n']) (List.all_eq_true.1 rfl) hinserted
  exact (Grammar.block_goes hstatements hclose).behind passesGap_body (List.all_eq_true.1 rfl) rfl

end Declared

/-! ### What the module gives out -/

section Given

variable {xs : List Record} (hxs : ∀ x ∈ xs, StandsAlone x.sourceText)
  {factory : Text} (hname : Config.isPlainName factory = true)
include hxs hname

end Given

end ServerSplit.Sdk

namespace ServerSplit.Pass

end ServerSplit.Pass
