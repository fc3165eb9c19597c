import ServerSplit.Json.Basic
import ServerSplit.Json.Cursor

/-! Reading numbers of JSON. Whole numbers of 64 bits stay whole; of all others the first digits that
fit into 64 bits are scaled by a power of ten. -/
namespace ServerSplit.Json

def isDigitAt (c : Cursor) : Bool := c.peek?.any Char.isDigit

/-- The largest whole number that is kept, and the largest exponent that is read. -/
def maxWhole : Nat := Nat.pow 2 64 - 1

def maxExponent : Nat := Nat.pow 2 31 - 1

/-- Digits as long as their value stays within a bound: the value and how many were read. -/
def readDigits (bound : Nat) : Nat → Nat → Nat → Cursor → Nat × Nat × Cursor
  | 0, value, count, c => (value, count, c)
  | n + 1, value, count, c =>
    match c.peek? with
    | some d =>
      if d.isDigit then
        let more := value * 10 + (d.toNat - 48)
        if bound < more then (value, count, c) else readDigits bound n more (count + 1) (c.skip 1)
      else (value, count, c)
    | none => (value, count, c)

def digitsUpTo (bound value : Nat) (c : Cursor) : Nat × Nat × Cursor :=
  readDigits bound c.rest.length value 0 c

/-- Passes over digits; also their number. -/
def skipDigits (c : Cursor) : Nat × Cursor :=
  let n := (c.rest.takeWhile fun b => 48 ≤ b && b ≤ 57).length
  (n, c.skip n)

/-- A double with a sign. -/
def signed (positive : Bool) (f : Float) : Number := .double (if positive then f else -f).toBits

/-- A power of ten as a double. -/
def powerOfTen (n : Nat) : Float := Float.ofScientific 1 false n

/-- `significand * 10 ^ exponent`, scaled in steps of doubles. -/
def scale (positive : Bool) (significand : Nat) (exponent : Int) : Reads Number := fun c =>
  go 64 (UInt64.ofNat significand).toFloat exponent c
where
  /-- The fuel bounds the number of divisions until nothing is left. -/
  go : Nat → Float → Int → Cursor → Except Fault (Number × Cursor)
    | 0, f, _, c => .ok (signed positive f, c)
    | n + 1, f, exponent, c =>
      if exponent.natAbs ≤ 308 then
        if 0 ≤ exponent then
          let g := f * powerOfTen exponent.natAbs
          if g.isInf then c.fail .numberOutOfRange else .ok (signed positive g, c)
        else .ok (signed positive (f / powerOfTen exponent.natAbs), c)
      else if f == 0 then .ok (signed positive f, c)
      else if 0 ≤ exponent then c.fail .numberOutOfRange
      else go n (f / powerOfTen 308) (exponent + 308) c

/-- An exponent, at its letter. -/
def readExponent (positive : Bool) (significand : Nat) (shift : Int) : Reads Number := fun c => do
  let c := c.skip 1
  let (up, c) := match c.peek? with
    | some '+' => (true, c.skip 1)
    | some '-' => (false, c.skip 1)
    | _ => (true, c)
  if c.rest.isEmpty then c.fail .endInValue
  else if !isDigitAt c then (c.skip 1).fail .invalidNumber
  else
    let (e, _, d) := digitsUpTo maxExponent 0 c
    if isDigitAt d then
      if significand ≠ 0 ∧ up then (d.skip 1).fail .numberOutOfRange
      else return (signed positive 0, (skipDigits d).2)
    else scale positive significand (if up then shift + e else shift - e) d

/-- A fraction, at its point. -/
def readFraction (positive : Bool) (significand : Nat) (shift : Int) : Reads Number := fun c => do
  let c := c.skip 1
  let (value, count, d) := digitsUpTo maxWhole significand c
  let overflow := isDigitAt d
  if count = 0 ∧ !overflow then
    d.failNext (if d.rest.isEmpty then .endInValue else .invalidNumber)
  else
    let d := (skipDigits d).2
    let shift := shift - count
    match d.peek? with
    | some 'e' | some 'E' => readExponent positive value shift d
    | _ => scale positive value shift d

/-- A number behind its sign. -/
def readNumber (positive : Bool) : Reads Number := fun c => do
  match c.peek? with
  | none => c.fail .endInValue
  | some first =>
    if !first.isDigit then (c.skip 1).fail .invalidNumber
    else if first = '0' ∧ isDigitAt (c.skip 1) then (c.skip 1).failNext .invalidNumber
    else
      let (value, _, d) := digitsUpTo maxWhole 0 c
      let (dropped, d) := skipDigits d
      match d.peek? with
      | some '.' => readFraction positive value dropped d
      | some 'e' | some 'E' => readExponent positive value dropped d
      | _ =>
        if dropped ≠ 0 then scale positive value dropped d
        else if positive then return (.whole value, d)
        else if value = 0 ∨ Nat.pow 2 63 < value then
          return (signed false (UInt64.ofNat value).toFloat, d)
        else return (.whole (-value), d)

/-- Passes over a number behind its sign. -/
def skipNumber (c : Cursor) : Except Fault Cursor := do
  let c ← match c.peek? with
    | some first =>
      if first = '0' then
        if isDigitAt (c.skip 1) then (c.skip 1).failNext .invalidNumber else .ok (c.skip 1)
      else if first.isDigit then .ok (skipDigits c).2
      else (c.skip 1).fail .invalidNumber
    | none => c.fail .invalidNumber
  let c ← match c.peek? with
    | some '.' =>
      let (n, d) := skipDigits (c.skip 1)
      if n = 0 then d.failNext .invalidNumber else .ok d
    | _ => .ok c
  match c.peek? with
  | some 'e' | some 'E' =>
    let d := c.skip 1
    let d := match d.peek? with
      | some '+' | some '-' => d.skip 1
      | _ => d
    if isDigitAt d then return (skipDigits d).2 else (d.skip 1).fail .invalidNumber
  | _ => return c

end ServerSplit.Json
