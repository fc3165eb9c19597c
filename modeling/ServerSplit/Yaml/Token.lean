import ServerSplit.Yaml.Mark

/-! The tokens of YAML. -/
namespace ServerSplit.Yaml

/-- How a scalar is written. -/
inductive Style
  | plain
  | singleQuoted
  | doubleQuoted
  | literal
  | folded
  deriving Repr, DecidableEq

inductive Token
  | streamEnd
  /-- The version that a text says it is written in. -/
  | version (major minor : Nat)
  /-- What a handle of tags stands for. -/
  | tagPrefix (handle stem : Text)
  | documentStart
  | documentEnd
  | blockSequenceStart
  | blockMappingStart
  | blockEnd
  | flowSequenceStart
  | flowSequenceEnd
  | flowMappingStart
  | flowMappingEnd
  | blockEntry
  | flowEntry
  | key
  | value
  | alias (name : Text)
  | anchor (name : Text)
  | tag (handle suffix : Text)
  | scalar (style : Style) (text : Text)
  deriving Repr, DecidableEq

/-- A token and the place where it starts. -/
structure Placed where
  token : Token
  mark : Mark
  deriving Repr, DecidableEq

/-- The place behind a token of one character. -/
def Placed.behind (p : Placed) : Mark :=
  { p.mark with index := p.mark.index + 1, column := p.mark.column + 1 }

end ServerSplit.Yaml
