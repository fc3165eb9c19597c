import ServerSplit.Json.Basic

/-! Values of JSON for people: one item or member a line, each level two blanks further in. -/
namespace ServerSplit.Json

/-- The end of a line and the blanks of the next one. -/
def newLine (level : Nat) : Text := '\n' :: List.replicate (2 * level) ' '

mutual

/-- The text of a value on the given level. -/
def pretty (level : Nat) : Json → Text
  | .array (v :: vs) =>
    ['['] ++ newLine (level + 1) ++ pretty (level + 1) v ++ prettyRest (level + 1) vs ++
      newLine level ++ [']']
  | .object ((k, v) :: ms) =>
    ['\x7b'] ++ newLine (level + 1) ++ quoted k ++ ": ".toList ++ pretty (level + 1) v ++
      prettyMembers (level + 1) ms ++ newLine level ++ ['\x7d']
  | v => v.text

/-- The items behind the first one of an array. -/
def prettyRest (level : Nat) : List Json → Text
  | [] => []
  | v :: vs => [','] ++ newLine level ++ pretty level v ++ prettyRest level vs

/-- The members behind the first one of an object. -/
def prettyMembers (level : Nat) : List (Text × Json) → Text
  | [] => []
  | (k, v) :: ms =>
    [','] ++ newLine level ++ quoted k ++ ": ".toList ++ pretty level v ++ prettyMembers level ms

end

end ServerSplit.Json
