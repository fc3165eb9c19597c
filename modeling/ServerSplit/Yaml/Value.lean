import ServerSplit.Decimal.Rounding
import ServerSplit.Text.Quoted
import ServerSplit.Yaml.Event

/-! What scalars stand for: nothing, truth values, numbers or texts. -/
namespace ServerSplit.Yaml

inductive Value
  | null
  | bool (b : Bool)
  | integer (n : Int)
  | float (b : Decimal.Binary)
  | infinity (negative : Bool)
  | notANumber
  | string (t : Text)
  deriving Repr, DecidableEq

namespace Value

/-- What a value is called in the message about its type. -/
def describe : Value → Text
  | null => "unit value".toList
  | bool b => "boolean `".toList ++ (if b then "true" else "false").toList ++ ['`']
  | integer n =>
    "integer `".toList ++ (if n < 0 then ['-'] else []) ++ Text.ofNat n.natAbs ++ ['`'] ++
      (if Nat.pow 2 64 ≤ n then " as u128".toList else if n < -(Nat.pow 2 63 : Nat) then " as i128".toList else [])
  | float b => "floating point `".toList ++ Decimal.renderPlain b ++ ['`']
  | infinity negative =>
    "floating point `".toList ++ (if negative then "-inf`" else "inf`").toList
  | notANumber => "floating point `NaN`".toList
  | string t => "string ".toList ++ Text.quoted t

def isNull (t : Text) : Bool := ["null", "Null", "NULL", "~"].any (·.toList = t)

def bool? (t : Text) : Option Bool :=
  if ["true", "True", "TRUE"].any (·.toList = t) then some true
  else if ["false", "False", "FALSE"].any (·.toList = t) then some false
  else none

/-! ### Numbers -/

/-- The bases that are written before the digits. -/
def bases : List (Text × Nat) := [("0x".toList, 16), ("0o".toList, 8), ("0b".toList, 2)]

/-- Whether digits with a zero before them make up the whole text, which is no number then. -/
def isPadded (t : Text) : Bool :=
  match t with
  | '-' :: '0' :: r | '+' :: '0' :: r | '0' :: r => !r.isEmpty && r.all Char.isDigit
  | _ => false

/-- The value of digits behind the sign of `t`, if it is at most `bound`. -/
def magnitude? (t digits : Text) (bound : Nat) : Option Nat :=
  let based := bases.findSome? fun p => (Text.after p.1 digits).bind fun r =>
    (Text.toNat? p.2 r).filter (· ≤ bound)
  based <|> if isPadded t then none else (Text.toNat? 10 digits).filter (· ≤ bound)

def withoutPlus : Text → Text
  | '+' :: r => r
  | t => t

/-- A whole number of at most 128 bits. -/
def integer? (t : Text) : Option Int :=
  match t with
  | '-' :: r => (magnitude? t r (Nat.pow 2 127)).map fun n => -(n : Int)
  | _ => (magnitude? t (withoutPlus t) (Nat.pow 2 128 - 1)).map fun n => (n : Int)

/-- Digits at the head of a text, and the rest. -/
def splitDigits (t : Text) : Text × Text := (t.takeWhile Char.isDigit, t.dropWhile Char.isDigit)

/-- An exponent up to the end of the text, or nothing. -/
def exponent? : Text → Option Int
  | [] => some 0
  | a :: r =>
    if a ≠ 'e' ∧ a ≠ 'E' then none
    else match r with
      | '-' :: r => (Text.toNat? 10 r).map fun n => -(n : Int)
      | r => (Text.toNat? 10 (withoutPlus r)).map fun n => (n : Int)

/-- A decimal number without a sign, if it has a double. -/
def decimal? (negative : Bool) (t : Text) : Option Decimal.Binary := do
  let (whole, r) := splitDigits t
  let (fraction, r) := match r with
    | '.' :: r => splitDigits r
    | r => ([], r)
  let digits ← Text.toNat? 10 (whole ++ fraction)
  let e ← exponent? r
  Decimal.Binary.ofDecimal? negative digits (e - fraction.length)

def float? (t : Text) : Option Value :=
  let is := fun (names : List String) (t : Text) => names.any (·.toList = t)
  let infinite := [".inf", ".Inf", ".INF"]
  match t with
  | '-' :: r => if is infinite r then some (.infinity true) else (decimal? true r).map .float
  | _ =>
    if is infinite (withoutPlus t) then some (.infinity false)
    else if is [".nan", ".NaN", ".NAN"] t then some .notANumber
    else (decimal? false (withoutPlus t)).map .float

/-- What a plain scalar stands for. -/
def ofPlain (t : Text) : Value :=
  if t.isEmpty || isNull t then .null
  else match bool? t, integer? t with
    | some b, _ => .bool b
    | none, some n => .integer n
    | none, none => if isPadded t then .string t else (float? t).getD (.string t)

end Value

/-! ### Tags -/

/-- The tag of a type of the language. -/
def coreTag (name : String) : Text := "tag:yaml.org,2002:".toList ++ name.toList

/-- Whether a scalar may be a truth value: it is plain, or it is literal and says so. -/
def Scalar.mayBeBool (s : Scalar) : Bool :=
  s.style = .plain || s.style = .literal && s.tag = some (coreTag "bool")

/-- What a scalar stands for, or what its tag says in vain. -/
def Scalar.value (s : Scalar) : Except String Value :=
  let tagged := fun name => s.tag = some (coreTag name)
  let expect := fun (what : String) (v : Option Value) =>
    match v with
    | some v => .ok v
    | none => .error what
  if tagged "bool" then expect "a boolean" ((Value.bool? s.text).map .bool)
  else if tagged "int" then expect "an integer" ((Value.integer? s.text).map .integer)
  else if tagged "float" then expect "a float" (Value.float? s.text)
  else if tagged "null" then expect "null" (if Value.isNull s.text then some .null else none)
  else if s.style = .plain && s.tag.all (·.head? = some '!') then .ok (.ofPlain s.text)
  else .ok (.string s.text)

end ServerSplit.Yaml
