import ServerSplit.Text.Basic

/-! Patterns for paths. A star or a question mark also stands for a slash; two stars that are a whole
part of a path stand for any number of parts. -/
namespace ServerSplit.Glob

inductive Part
  | char (c : Char)
  /-- One byte. -/
  | any
  /-- Any bytes. -/
  | many
  /-- Any number of leading parts of a path. -/
  | leading
  /-- All further parts of a path, at least a slash. -/
  | trailing
  /-- A slash, or two with any parts between them. -/
  | between
  | oneOf (negated : Bool) (ranges : List (Char × Char))
  | either (branches : List (List Part))
  deriving Repr

/-- Why a pattern is none. -/
inductive Fault
  | unclosedClass
  | invalidRange (first last : Char)
  | unopenedGroup
  | unclosedGroup
  | danglingEscape
  deriving Repr, DecidableEq

def Fault.message : Fault → Text
  | .unclosedClass => "unclosed character class; missing ']'".toList
  | .invalidRange a b => "invalid range; '".toList ++ [a] ++ "' > '".toList ++ [b] ++ ['\'']
  | .unopenedGroup =>
    "unopened alternate group; missing '\x7b' (maybe escape '\x7d' with '[\x7d]'?)".toList
  | .unclosedGroup =>
    "unclosed alternate group; missing '\x7d' (maybe escape '\x7b' with '[\x7b]'?)".toList
  | .danglingEscape => "dangling '\\'".toList

end ServerSplit.Glob
