import ServerSplit.Json.Read

/-! The calls that stubs send: an object with an identifier and arguments, or a list of the two. -/
namespace ServerSplit

structure Request where
  id : Text
  args : List Json
  deriving Repr

namespace Request

open Json

/-- What a value is called in the message about its type. -/
def typeName : Json → Text
  | .null => "null".toList
  | .bool b => "boolean `".toList ++ Json.text (.bool b) ++ ['`']
  | .number (.whole n) => "integer `".toList ++ Number.text (.whole n) ++ ['`']
  | .number n => "floating point `".toList ++ n.text ++ ['`']
  | .string t => "string ".toList ++ Text.quoted t
  | .array _ => "sequence".toList
  | .object _ => "map".toList

/-- Fails at a value of another type than the expected one, whose first character is `b`. -/
def failType {α : Type} (b : Char) (expected : Text) (c : Cursor) : Except Json.Fault α := do
  if b = '[' then c.fail (.wrongType "sequence".toList expected)
  else if b = '\x7b' then c.fail (.wrongType "map".toList expected)
  else
    let (v, c) ← readAtom b c
    c.fail (.wrongType (typeName v) expected)

def readId : Json.Reads Text := fun c => do
  let (b, c) ← c.next .endInValue
  if b = '"' then readString (c.skip 1) else failType b "a string".toList c

/-- The arguments; `depth` is the number of brackets that may still be opened, and one more. -/
def readArgs (depth : Nat) : Json.Reads (List Json) := fun c => do
  let (b, c) ← c.next .endInValue
  if b = '[' then
    if depth ≤ 1 then c.failNext .tooDeep
    else
      let (vs, c) ← readItems (fuelAt c) (depth - 1) true (c.skip 1)
      return (vs, ← endList c)
  else failType b "a sequence".toList c

/-- What has been read of a request. -/
structure Partial where
  id : Option Text := none
  args : Option (List Json) := none

/-- Fails behind the end of the list or object in which the fault is. -/
def failBehind {α : Type} (ending : Cursor → Except Json.Fault Cursor) (cause : Cause) (c : Cursor) :
    Except Json.Fault α :=
  match ending c with
  | .ok c => c.fail cause
  | .error _ =>
    let d := c.skipSpace
    (if d.peek? = some ',' then (d.skip 1).skipSpace else d).fail cause

def failInObject {α : Type} (cause : Cause) (c : Cursor) : Except Json.Fault α :=
  match endObject c with
  | .ok c => c.fail cause
  | .error _ => c.skipSpace.fail cause

/-- The members of a request, in any order; others are passed over. The fuel exceeds the number of
bytes left. -/
def readFields : Nat → Bool → Partial → Cursor → Except Json.Fault (Partial × Cursor)
  | 0, _, _, c => c.fail .endInObject
  | n + 1, first, r, c => do
    let (more, c) ← nextKey first c
    if more then
      let (k, c) ← readString c
      if k = "id".toList then
        if r.id.isSome then failInObject (.duplicateField k) c
        else
          let (id, c) ← readId (← readColon c)
          readFields n false { r with id := some id } c
      else if k = "args".toList then
        if r.args.isSome then failInObject (.duplicateField k) c
        else
          let (args, c) ← readArgs (depthLimit - 1) (← readColon c)
          readFields n false { r with args := some args } c
      else
        let c ← readColon c
        readFields n false r (← skipValue (fuelAt c) c)
    else return (r, c)

def name : Text := "struct BffRequest".toList

def ofObject : Json.Reads Request := fun c => do
  let (r, c) ← readFields (fuelAt c) true {} c
  match r.id with
  | none => failInObject (.missingField "id".toList) c
  | some id => return (⟨id, r.args.getD []⟩, ← endObject c)

/-- Fails in a list that is too short. -/
def failLength {α : Type} (n : Nat) (c : Cursor) : Except Json.Fault α :=
  failBehind endList (.wrongLength n (name ++ " with 2 elements".toList)) c

def ofList : Json.Reads Request := fun c => do
  let (more, c) ← nextItem true c
  if !more then failLength 0 c
  else
    let (id, c) ← readId c
    let (more, c) ← nextItem false c
    if !more then return (⟨id, []⟩, ← endList c)
    else
      let (args, c) ← readArgs (depthLimit - 1) c
      return (⟨id, args⟩, ← endList c)

/-- The request that a body is. -/
def ofBytes (bs : List UInt8) : Except Json.Fault Request := do
  let (b, c) ← (Cursor.ofBytes bs).next .endInValue
  let (r, c) ←
    if b = '[' then ofList (c.skip 1)
    else if b = '\x7b' then ofObject (c.skip 1)
    else failType b name c
  endText c
  return r

/-- The text of a request, as a stub sends it. -/
def text (r : Request) : Text :=
  "\x7b\"id\":".toList ++ Json.quoted r.id ++ ",\"args\":".toList ++ Json.text (.array r.args) ++ ['\x7d']

end Request

end ServerSplit
