import ServerSplit.Text.Place
import ServerSplit.Text.Quoted
import ServerSplit.Text.Utf8

/-! Reading JSON from bytes: the place in the bytes, and what can be wrong there. -/
namespace ServerSplit.Json

/-- What is wrong with a text of JSON. -/
inductive Cause
  | endInList
  | endInObject
  | endInString
  | endInValue
  | colonExpected
  | commaOrBracketExpected
  | commaOrBraceExpected
  | wordExpected
  | valueExpected
  | invalidEscape
  | invalidNumber
  | numberOutOfRange
  | invalidCodePoint
  | controlCharacter
  | keyExpected
  | loneSurrogate
  | trailingComma
  | trailingCharacters
  | unfinishedSurrogate
  | tooDeep
  | wrongType (found expected : Text)
  | missingField (name : Text)
  | duplicateField (name : Text)
  | wrongLength (length : Nat) (expected : Text)
  deriving Repr, DecidableEq

def Cause.message : Cause → Text
  | .endInList => "EOF while parsing a list".toList
  | .endInObject => "EOF while parsing an object".toList
  | .endInString => "EOF while parsing a string".toList
  | .endInValue => "EOF while parsing a value".toList
  | .colonExpected => "expected `:`".toList
  | .commaOrBracketExpected => "expected `,` or `]`".toList
  | .commaOrBraceExpected => "expected `,` or `\x7d`".toList
  | .wordExpected => "expected ident".toList
  | .valueExpected => "expected value".toList
  | .invalidEscape => "invalid escape".toList
  | .invalidNumber => "invalid number".toList
  | .numberOutOfRange => "number out of range".toList
  | .invalidCodePoint => "invalid unicode code point".toList
  | .controlCharacter =>
    "control character (\\u0000-\\u001F) found while parsing a string".toList
  | .keyExpected => "key must be a string".toList
  | .loneSurrogate => "lone leading surrogate in hex escape".toList
  | .trailingComma => "trailing comma".toList
  | .trailingCharacters => "trailing characters".toList
  | .unfinishedSurrogate => "unexpected end of hex escape".toList
  | .tooDeep => "recursion limit exceeded".toList
  | .wrongType found expected =>
    "invalid type: ".toList ++ found ++ ", expected ".toList ++ expected
  | .missingField name => "missing field `".toList ++ name ++ ['`']
  | .duplicateField name => "duplicate field `".toList ++ name ++ ['`']
  | .wrongLength n expected =>
    "invalid length ".toList ++ Text.ofNat n ++ ", expected ".toList ++ expected

/-- What is wrong, and the number of bytes up to there. -/
structure Fault where
  cause : Cause
  index : Nat
  deriving Repr, DecidableEq

/-- The line, counted from one, and the number of bytes on it that lead to a place in the bytes. -/
def placeOf (bs : List UInt8) (index : Nat) : Nat × Nat :=
  (bs.take index).foldl (fun p b => if b = 10 then (p.1 + 1, 0) else (p.1, p.2 + 1)) (1, 0)

/-- The message of a fault in given bytes. -/
def Fault.message (f : Fault) (bs : List UInt8) : Text :=
  let (line, column) := placeOf bs f.index
  f.cause.message ++ " at line ".toList ++ Text.ofNat line ++ " column ".toList ++ Text.ofNat column

/-- A place in the bytes. -/
structure Cursor where
  rest : List UInt8
  index : Nat
  deriving Repr, DecidableEq

namespace Cursor

def ofBytes (bs : List UInt8) : Cursor := ⟨bs, 0⟩

def skip (c : Cursor) (n : Nat) : Cursor := ⟨c.rest.drop n, c.index + (c.rest.take n).length⟩

def peek? (c : Cursor) : Option Char := c.rest.head?.map fun b => Char.ofNat b.toNat

/-- Fails at what was read last. -/
def fail {α : Type} (c : Cursor) (cause : Cause) : Except Fault α := .error ⟨cause, c.index⟩

/-- Fails at the byte that would be read next. -/
def failNext {α : Type} (c : Cursor) (cause : Cause) : Except Fault α :=
  .error ⟨cause, (c.skip 1).index⟩

def isSpace (b : UInt8) : Bool := b = 32 || b = 10 || b = 9 || b = 13

def skipSpace (c : Cursor) : Cursor := c.skip (c.rest.takeWhile isSpace).length

/-- The next byte behind blanks, as a character, at its place. -/
def next (c : Cursor) (atEnd : Cause) : Except Fault (Char × Cursor) :=
  let c := c.skipSpace
  match c.peek? with
  | some b => .ok (b, c)
  | none => c.failNext atEnd

end Cursor

/-- A reader of something at a place, with the place behind it. -/
abbrev Reads (α : Type) := Cursor → Except Fault (α × Cursor)

/-- The rest of a word. -/
def readWord : List Char → Cursor → Except Fault Cursor
  | [], c => .ok c
  | w :: ws, c =>
    match c.peek? with
    | none => c.fail .endInValue
    | some b => if b = w then readWord ws (c.skip 1) else (c.skip 1).fail .wordExpected

end ServerSplit.Json
