import ServerSplit.Js.Statement

/-! The strings that mark functions. A directive counts where it stands among the strings that lead the
body of a function. -/
namespace ServerSplit

open Js (Tree)

/-- A directive and the function that it marks. -/
structure Marker where
  literal : Tree
  owner : Tree
  deriving Repr

namespace Directive

/-- The literals among leading strings that say the directive. -/
def inPrologue (directive : Text) (statements : List Tree) : List Tree :=
  (Tree.prologue statements).filter fun l => l.contents = directive

/-- The markers of all functions, in the order of the source. -/
def markers (directive : Text) (tree : Tree) : List Marker :=
  (tree.functions.flatMap fun f =>
      (inPrologue directive f.functionBody).map fun l => ⟨l, f⟩).mergeSort
    fun a b => decide (a.literal.start ≤ b.literal.start)

/-- The directives of the whole file, which mark nothing. -/
def orphans (directive : Text) (tree : Tree) : List Tree := inPrologue directive tree.children

end Directive

end ServerSplit
