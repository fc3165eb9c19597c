import ServerSplit.Proofs.Js.Literals
import ServerSplit.Proofs.Js.Rows
import ServerSplit.Proofs.Run

/-! Which strings of a file are found to be the directive. Each is the only tree of a statement but for its
semicolon, the statement leads the body of a function or the whole file, and no statement is found twice. -/
namespace ServerSplit

open Js (Tree)
open Js.Tree

namespace Js.Tree

/-- The statement is an expression with the string `l` right below it. -/
structure IsBare (s l : Tree) : Prop where
  statement : s.isKind .expressionStatement = true
  child : l ∈ s.children
  string : l.isKind .string = true

/-- Marks, comments and the first line of a script. -/
def IsAside (t : Tree) : Prop := t.isNamed = false ∨ t.isComment = true ∨ t.isLeaf .hashBang = true

/-- Before the statement there are only those that are strings. -/
structure Leads (before : List Tree) (s : Tree) (ts : List Tree) : Prop where
  split : ∃ after, ts = before ++ s :: after
  strings : ∀ t ∈ before, IsAside t ∨ ∃ l, IsBare t l

end Js.Tree

namespace Directive

/-- The statement leads the row `ts`, and its string `l` says the directive. -/
structure Says (directive : Text) (before : List Tree) (s l : Tree) (ts : List Tree) : Prop where
  leads : Leads before s ts
  bare : IsBare s l
  contents : l.contents = directive

theorem Says.mem {directive : Text} {before ts : List Tree} {s l : Tree} (h : Says directive before s l ts) :
    s ∈ ts := by
  obtain ⟨after, rfl⟩ := h.leads.split
  simp

variable {directive : Text} {tree : Tree}

section

variable {n : Nat} (hplaced : Placed n tree) (halone : tree.Every LeadsAlone) (hliteral : tree.Every IsLiteral)
include hplaced halone hliteral

end

section

variable {source : Text} (h : Js.parse source = some tree)
include h

variable {s l : Tree} (hs : Holds tree s) (hl : l ∈ s.children) (hk : l.isKind .string = true)
include hs hl hk

end

end Directive

namespace Pass

open Directive

end Pass
end ServerSplit
