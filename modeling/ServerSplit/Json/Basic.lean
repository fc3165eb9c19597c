import ServerSplit.Decimal.Binary
import ServerSplit.Json.Quoted

/-! Values of JSON. -/
namespace ServerSplit

/-- A whole number, or the bits of a double. -/
inductive Json.Number
  | whole (n : Int)
  | double (bits : UInt64)
  deriving Repr, DecidableEq

/-- A value. The members of an object that is read stand in the order of their keys, one for each. -/
inductive Json
  | null
  | bool (b : Bool)
  | number (n : Json.Number)
  | string (t : Text)
  | array (items : List Json)
  | object (members : List (Text × Json))
  deriving Repr, Inhabited

namespace Json

/-- Members with one more, which takes the place of one with its key. -/
def insertMember (key : Text) (v : Json) : List (Text × Json) → List (Text × Json)
  | [] => [(key, v)]
  | (k, w) :: ms =>
    if key < k then (key, v) :: (k, w) :: ms
    else if key = k then (key, v) :: ms
    else (k, w) :: insertMember key v ms

def Number.text : Number → Text
  | .whole n => (if n < 0 then ['-'] else []) ++ Text.ofNat n.natAbs
  | .double bits => Decimal.render (Decimal.Binary.ofBits bits)

mutual

/-- The text of a value, without blanks. -/
def text : Json → Text
  | .null => "null".toList
  | .bool b => (if b then "true" else "false").toList
  | .number n => n.text
  | .string t => quoted t
  | .array [] => "[]".toList
  | .array (v :: vs) => ['['] ++ text v ++ restText vs
  | .object [] => "\x7b\x7d".toList
  | .object ((k, v) :: ms) => ['\x7b'] ++ quoted k ++ [':'] ++ text v ++ memberText ms

/-- The items behind the first one of an array, and its end. -/
def restText : List Json → Text
  | [] => [']']
  | v :: vs => [','] ++ text v ++ restText vs

/-- The members behind the first one of an object, and its end. -/
def memberText : List (Text × Json) → Text
  | [] => ['\x7d']
  | (k, v) :: ms => [','] ++ quoted k ++ [':'] ++ text v ++ memberText ms

end

end Json

end ServerSplit
