import ServerSplit.Json.Numbers
import ServerSplit.Json.Strings

/-! Reading values of JSON, and passing over values that do not matter. -/
namespace ServerSplit.Json

/-- The number of brackets that may be open at once, and one more. -/
def depthLimit : Nat := 128

/-! ### Lists and objects -/

/-- What follows in a list: another item, at its place, or the end. -/
def nextItem (first : Bool) : Reads Bool := fun c => do
  let (b, c) ← c.next .endInList
  if b = ']' then return (false, c)
  else if b = ',' ∧ !first then
    let (b, d) ← (c.skip 1).next .endInValue
    if b = ']' then d.failNext .trailingComma else return (true, d)
  else if first then return (true, c)
  else c.failNext .commaOrBracketExpected

/-- What follows in an object: another key, behind its opening quote, or the end. -/
def nextKey (first : Bool) : Reads Bool := fun c => do
  let (b, c) ← c.next .endInObject
  if b = '\x7d' then return (false, c)
  else if b = ',' ∧ !first then
    let (b, d) ← (c.skip 1).next .endInValue
    if b = '"' then return (true, d.skip 1)
    else if b = '\x7d' then d.failNext .trailingComma
    else d.failNext .keyExpected
  else if !first then c.failNext .commaOrBraceExpected
  else if b = '"' then return (true, c.skip 1)
  else c.failNext .keyExpected

/-- The colon behind a key. -/
def readColon (c : Cursor) : Except Fault Cursor := do
  let (b, c) ← c.next .endInObject
  if b = ':' then return c.skip 1 else c.failNext .colonExpected

/-- The end of a list. -/
def endList (c : Cursor) : Except Fault Cursor := do
  let (b, c) ← c.next .endInList
  if b = ']' then return c.skip 1
  else if b = ',' then
    match (c.skip 1).skipSpace with
    | d => if d.peek? = some ']' then d.failNext .trailingComma else d.failNext .trailingCharacters
  else c.failNext .trailingCharacters

/-- The end of an object. -/
def endObject (c : Cursor) : Except Fault Cursor := do
  let (b, c) ← c.next .endInObject
  if b = '\x7d' then return c.skip 1
  else if b = ',' then c.failNext .trailingComma
  else c.failNext .trailingCharacters

/-! ### Values -/

/-- A value that is no list and no object, whose first character `b` stands at the place. -/
def readAtom (b : Char) : Reads Json := fun c => do
  match b with
  | 'n' => return (.null, ← readWord "ull".toList (c.skip 1))
  | 't' => return (.bool true, ← readWord "rue".toList (c.skip 1))
  | 'f' => return (.bool false, ← readWord "alse".toList (c.skip 1))
  | '-' =>
    let (n, c) ← readNumber false (c.skip 1)
    return (.number n, c)
  | '"' =>
    let (t, c) ← readString (c.skip 1)
    return (.string t, c)
  | b =>
    if b.isDigit then
      let (n, c) ← readNumber true c
      return (.number n, c)
    else c.failNext .valueExpected

mutual

/-- A value. The fuel exceeds the number of bytes left; `depth` is the number of brackets that may
still be opened, and one more. -/
def readValue : Nat → Nat → Cursor → Except Fault (Json × Cursor)
  | 0, _, c => c.fail .endInValue
  | n + 1, depth, c => do
    let (b, c) ← c.next .endInValue
    if b = '[' then
      if depth ≤ 1 then c.failNext .tooDeep
      else
        let (items, c) ← readItems n (depth - 1) true (c.skip 1)
        return (.array items, ← endList c)
    else if b = '\x7b' then
      if depth ≤ 1 then c.failNext .tooDeep
      else
        let (members, c) ← readMembers n (depth - 1) true [] (c.skip 1)
        return (.object members, ← endObject c)
    else readAtom b c

def readItems : Nat → Nat → Bool → Cursor → Except Fault (List Json × Cursor)
  | 0, _, _, c => c.fail .endInList
  | n + 1, depth, first, c => do
    let (more, c) ← nextItem first c
    if more then
      let (v, c) ← readValue n depth c
      let (vs, c) ← readItems n depth false c
      return (v :: vs, c)
    else return ([], c)

/-- Members, put into those read before them. -/
def readMembers : Nat → Nat → Bool → List (Text × Json) → Cursor →
    Except Fault (List (Text × Json) × Cursor)
  | 0, _, _, _, c => c.fail .endInObject
  | n + 1, depth, first, ms, c => do
    let (more, c) ← nextKey first c
    if more then
      let (k, c) ← readString c
      let c ← readColon c
      let (v, c) ← readValue n depth c
      readMembers n depth false (insertMember k v ms) c
    else return (ms, c)

end

def fuelAt (c : Cursor) : Nat := 2 * c.rest.length + 2

/-! ### Values that do not matter -/

/-- Passes over a key and its colon, in an object. -/
def skipKey (c : Cursor) : Except Fault Cursor := do
  let (b, c) ← c.next .endInObject
  if b = '"' then
    let c ← skipString (c.rest.length + 1) (c.skip 1)
    readColon c
  else c.failNext .keyExpected

def skipAtom (b : Char) (c : Cursor) : Except Fault Cursor :=
  match b with
  | 'n' => readWord "ull".toList (c.skip 1)
  | 't' => readWord "rue".toList (c.skip 1)
  | 'f' => readWord "alse".toList (c.skip 1)
  | '-' => skipNumber (c.skip 1)
  | '"' => skipString (c.rest.length + 1) (c.skip 1)
  | b => if b.isDigit then skipNumber c else c.failNext .valueExpected

mutual

/-- Passes over a value. The fuel exceeds the number of bytes left. -/
def skipValue : Nat → Cursor → Except Fault Cursor
  | 0, c => c.fail .endInValue
  | n + 1, c => do
    let (b, c) ← c.next .endInValue
    if b = '[' then skipRest n true false (c.skip 1)
    else if b = '\x7b' then skipRest n false false (c.skip 1)
    else skipAtom b c

/-- Passes over what is left of a list or an object, behind an item if there was one. -/
def skipRest : Nat → Bool → Bool → Cursor → Except Fault Cursor
  | 0, _, _, c => c.fail .endInList
  | n + 1, isList, behind, c => do
    let (b, c) ← c.next (if isList then .endInList else .endInObject)
    if b = (if isList then ']' else '\x7d') then return c.skip 1
    else
      let c ←
        if !behind then .ok c
        else if b = ',' then .ok (c.skip 1)
        else c.failNext (if isList then .commaOrBracketExpected else .commaOrBraceExpected)
      let c ← if isList then .ok c else skipKey c
      let c ← skipValue n c
      skipRest n isList true c

end

/-- Nothing but blanks up to the end. -/
def endText (c : Cursor) : Except Fault Unit :=
  let c := c.skipSpace
  if c.rest.isEmpty then .ok () else c.failNext .trailingCharacters

/-- A whole text of JSON. -/
def ofBytes (bs : List UInt8) : Except Fault Json := do
  let c := Cursor.ofBytes bs
  let (v, c) ← readValue (fuelAt c) depthLimit c
  endText c
  return v

end ServerSplit.Json
