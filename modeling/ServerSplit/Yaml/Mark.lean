import ServerSplit.Text.Digits

/-! Places in a text of YAML, and what can be wrong there. -/
namespace ServerSplit.Yaml

/-- A place in a text: the characters before it, its line and its column, counted from zero. -/
structure Mark where
  index : Nat := 0
  line : Nat := 0
  column : Nat := 0
  deriving Repr, DecidableEq

namespace Mark

/-- Whether a place is the start of the text, as far as a message is concerned. -/
def isStart (m : Mark) : Bool := m.line = 0 && m.column = 0

def text (m : Mark) : Text :=
  "line ".toList ++ Text.ofNat (m.line + 1) ++ " column ".toList ++ Text.ofNat (m.column + 1)

/-- Names a place in a message, unless it is the start of the text. -/
def suffix (m : Mark) : Text := if m.isStart then [] else " at ".toList ++ m.text

end Mark

/-- What is wrong with a text of YAML. -/
structure Fault where
  problem : String
  mark : Mark := {}
  /-- The number of bytes before the problem, where it has no line. -/
  offset : Nat := 0
  /-- What was being read, and where that began. -/
  context : Option (String × Mark) := none
  deriving Repr, DecidableEq

namespace Fault

/-- Names the context of a fault; its place only if the problem has another one. -/
def contextText (f : Fault) : Text :=
  match f.context with
  | none => []
  | some (doing, start) =>
    ", ".toList ++ doing.toList ++
      if start.line = f.mark.line ∧ start.column = f.mark.column then [] else start.suffix

def message (f : Fault) : Text :=
  f.problem.toList ++
    (if f.mark.isStart ∧ f.offset ≠ 0 then " at position ".toList ++ Text.ofNat f.offset
    else f.mark.suffix) ++
    f.contextText

end Fault

end ServerSplit.Yaml
