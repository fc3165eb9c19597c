import ServerSplit.Text.Utf8
import ServerSplit.Yaml.Cursor
import ServerSplit.Yaml.Token

/-! What stands before a node or a document: anchors, tags and directives. Each reader starts at the
sign that gives it away; `start` is the place of that sign. -/
namespace ServerSplit.Yaml

/-! ### Anchors -/

/-- The name of an anchor or an alias. -/
def readName (doing : String) : Reads Text := fun c =>
  let start := c.mark
  let (name, c) := (c.skip 1).span isWordChar
  if name.isEmpty || !(endsWord c.rest || c.next?.any "?:,]\x7d%@`".toList.contains) then
    c.fail "did not find expected alphabetic or numeric character" (some (doing, start))
  else .ok (name, c)

def readAnchor : Reads Token := fun c => do
  let (name, c) ← readName "while scanning an anchor" c
  return (.anchor name, c)

def readAlias : Reads Token := fun c => do
  let (name, c) ← readName "while scanning an alias" c
  return (.alias name, c)

/-! ### Tags -/

/-- The number of bytes of a character, by the first of them. -/
def byteCount? (n : Nat) : Option Nat :=
  if n < 0x80 then some 1
  else if n < 0xC0 then none
  else if n < 0xE0 then some 2
  else if n < 0xF0 then some 3
  else if n < 0xF8 then some 4
  else none

/-- A byte in its two digits behind a percent sign. -/
def escapedByte? (c : Cursor) : Option Nat :=
  match c.rest with
  | '%' :: a :: b :: _ => Text.toNat? 16 [a, b]
  | _ => none

/-- The bytes of one character in digits; `left` is how many are to come, unless none was read. -/
def readEscapes (doing : String) (start : Mark) : Nat → Option Nat → List UInt8 → Reads Text
  | 0, _, bs, c => .ok ((Text.ofBytes bs.reverse).1, c)
  | n + 1, left, bs, c =>
    if left = some 0 then .ok ((Text.ofBytes bs.reverse).1, c)
    else match escapedByte? c with
      | none => c.fail "did not find URI escaped octet" (some (doing, start))
      | some b =>
        match left with
        | none =>
          match byteCount? b with
          | none => c.fail "found an incorrect leading UTF-8 octet" (some (doing, start))
          | some k => readEscapes doing start n (some (k - 1)) (b.toUInt8 :: bs) (c.skip 3)
        | some k =>
          if b / 64 = 2 then readEscapes doing start n (some (k - 1)) (b.toUInt8 :: bs) (c.skip 3)
          else c.fail "found an incorrect trailing UTF-8 octet" (some (doing, start))

/-- The characters of a tag, and those that only a tag between brackets may hold. -/
def isTagChar (bracketed : Bool) (c : Char) : Bool :=
  isWordChar c || ";/?:@&=+$.%!~*'()".toList.contains c || bracketed && ",[]".toList.contains c

/-- The characters of a tag behind those in `t`. -/
def readTagText (doing : String) (start : Mark) (bracketed : Bool) : Nat → Text → Reads Text
  | 0, t, c => .ok (t, c)
  | n + 1, t, c =>
    match c.next? with
    | some a =>
      if a = '%' then do
        let (s, c) ← readEscapes doing start 4 none [] c
        readTagText doing start bracketed n (t ++ s) c
      else if isTagChar bracketed a then readTagText doing start bracketed n (t ++ [a]) (c.skip 1)
      else .ok (t, c)
    | none => .ok (t, c)

/-- A tag or its end, behind `head`, of which the first character is dropped. -/
def readTagEnd (directive bracketed : Bool) (head : Text) (start : Mark) : Reads Text := fun c => do
  let doing := if directive then "while parsing a %TAG directive" else "while parsing a tag"
  let (t, d) ← readTagText doing start bracketed (c.rest.length + 1) (head.drop 1) c
  if head.isEmpty && c.mark.index = d.mark.index then
    d.fail "did not find expected tag URI" (some (doing, start))
  else return (t, d)

/-- An exclamation mark with a name and perhaps another mark behind it. -/
def readHandle (directive : Bool) (start : Mark) : Reads Text := fun c =>
  if !c.is '!' then
    c.fail "did not find expected '!'"
      (some (if directive then "while scanning a tag directive" else "while scanning a tag", start))
  else
    let (name, c) := (c.skip 1).span isWordChar
    if c.is '!' then .ok ('!' :: name ++ ['!'], c.skip 1)
    else if directive && !name.isEmpty then
      c.fail "did not find expected '!'" (some ("while parsing a tag directive", start))
    else .ok ('!' :: name, c)

def readTag (flow : Bool) : Reads Token := fun c => do
  let start := c.mark
  let doing := "while scanning a tag"
  let (token, c) ←
    if c.rest.take 2 = ['!', '<'] then do
      let (t, c) ← readTagEnd false true [] start (c.skip 2)
      if c.is '>' then .ok (Token.tag [] t, c.skip 1)
      else c.fail "did not find the expected '>'" (some (doing, start))
    else do
      let (handle, c) ← readHandle false start c
      if 1 < handle.length && handle.getLast? = some '!' then do
        let (t, c) ← readTagEnd false false [] start c
        pure (Token.tag handle t, c)
      else do
        let (t, c) ← readTagEnd false false handle start c
        pure (if t.isEmpty then Token.tag [] ['!'] else .tag ['!'] t, c)
  if flow && c.is ',' || endsWord c.rest then return (token, c)
  else c.fail "did not find expected whitespace or line break" (some (doing, start))

/-! ### Directives -/

/-- A number of at most nine digits. -/
def readVersionNumber (start : Mark) : Reads Nat := fun c =>
  let (digits, d) := c.span Char.isDigit
  let doing := "while scanning a %YAML directive"
  if 9 < digits.length then
    (c.skip 9).fail "found extremely long version number" (some (doing, start))
  else match Text.toNat? 10 digits with
    | some n => .ok (n, d)
    | none => d.fail "did not find expected version number" (some (doing, start))

def readVersion (start : Mark) : Reads Token := fun c => do
  let (major, c) ← readVersionNumber start (c.skipWhile isSpace)
  if c.is '.' then
    let (minor, c) ← readVersionNumber start (c.skip 1)
    return (.version major minor, c)
  else
    c.fail "did not find expected digit or '.' character"
      (some ("while scanning a %YAML directive", start))

def readTagPrefix (start : Mark) : Reads Token := fun c => do
  let doing := "while scanning a %TAG directive"
  let (handle, c) ← readHandle true start (c.skipWhile isSpace)
  if !c.next?.any isSpace then
    c.fail "did not find expected whitespace" (some (doing, start))
  else
    let (stem, c) ← readTagEnd true true [] start (c.skipWhile isSpace)
    if endsWord c.rest then return (.tagPrefix handle stem, c)
    else c.fail "did not find expected whitespace or line break" (some (doing, start))

/-- A directive and the rest of its line. -/
def readDirective : Reads Token := fun c => do
  let start := c.mark
  let context := some ("while scanning a directive", start)
  let (name, c) := (c.skip 1).span isWordChar
  if name.isEmpty then c.fail "could not find expected directive name" context
  else if !endsWord c.rest then c.fail "found unexpected non-alphabetical character" context
  else
    let (token, c) ←
      if name = "YAML".toList then readVersion start c
      else if name = "TAG".toList then readTagPrefix start c
      else c.fail "found unknown directive name" context
    match c.skipComment? with
    | some c => return (token, c)
    | none =>
      (c.skipWhile isSpace).fail "did not find expected comment or line break" context

end ServerSplit.Yaml
