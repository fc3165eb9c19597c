import ServerSplit.Js.OneLine
import ServerSplit.Js.Statement
import ServerSplit.Slug
import ServerSplit.Text.Place

/-! Functions as they are taken out of a file. -/
namespace ServerSplit

open Js (Tree FunctionKind)

/-- A function taken out of a file: what the server runs, and what its stub needs. -/
structure Extracted where
  id : Text
  name : Text
  sourceText : Text
  start : Nat
  stop : Nat
  line : Nat
  singleLine : Bool
  indent : Text
  deriving Repr, DecidableEq

namespace Extracted

def lineOf (source : Text) (t : Tree) : Nat := (Place.ofOffset source t.start).line

/-- Takes out a function, if it has a name of its own. -/
def ofFunction? (path source : Text) (f : Tree) : Option Extracted :=
  f.functionName?.map fun name =>
    { id := functionId path name
      name
      sourceText := f.oneLine none
      start := f.start
      stop := f.stop
      line := lineOf source f
      singleLine := !f.text.contains '\n'
      indent := f.indent source }

end Extracted

end ServerSplit
