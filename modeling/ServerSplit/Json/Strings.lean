import ServerSplit.Json.Cursor

/-! Reading strings of JSON. -/
namespace ServerSplit.Json

/-- A part of a string: bytes as they stand from a place on, or a character that was escaped. -/
inductive Piece
  | raw (start : Nat) (bytes : List UInt8)
  | char (c : Char)
  deriving Repr, DecidableEq

/-- The value of four digits. -/
def readHex : Reads Nat := fun c =>
  let w := c.rest.take 4
  if w.length < 4 then (c.skip 4).fail .endInString
  else
    match Text.toNat? 16 (w.map fun b => Char.ofNat b.toNat) with
    | some n => .ok (n, c.skip 4)
    | none => (c.skip 4).fail .invalidEscape

/-- The second half of a character that takes two escapes. -/
def readLowSurrogate (high : Nat) : Reads Char := fun c => do
  match c.peek? with
  | none => c.fail .endInString
  | some '\\' =>
    match (c.skip 1).peek? with
    | none => (c.skip 1).fail .endInString
    | some 'u' =>
      let (low, c) ← readHex (c.skip 2)
      if 0xDC00 ≤ low ∧ low ≤ 0xDFFF then
        return (Char.ofNat ((high - 0xD800) * 0x400 + (low - 0xDC00) + 0x10000), c)
      else c.fail .loneSurrogate
    | some _ => (c.skip 2).fail .unfinishedSurrogate
  | some _ => (c.skip 1).fail .unfinishedSurrogate

/-- The character of a short escape. -/
def unescape? (c : Char) : Option Char :=
  match c with
  | '"' => some '"'
  | '\\' => some '\\'
  | '/' => some '/'
  | 'b' => some '\x08'
  | 'f' => some '\x0c'
  | 'n' => some '\n'
  | 'r' => some '\r'
  | 't' => some '\t'
  | _ => none

/-- An escape behind its backslash. -/
def readEscape : Reads Char := fun c => do
  match c.peek? with
  | none => c.fail .endInString
  | some 'u' =>
    let (n, c) ← readHex (c.skip 1)
    if 0xDC00 ≤ n ∧ n ≤ 0xDFFF then c.fail .loneSurrogate
    else if 0xD800 ≤ n ∧ n ≤ 0xDBFF then readLowSurrogate n c
    else return (Char.ofNat n, c)
  | some e =>
    match unescape? e with
    | some x => return (x, c.skip 1)
    | none => (c.skip 1).fail .invalidEscape

def isPlain (b : UInt8) : Bool := b ≠ 34 && b ≠ 92 && 32 ≤ b

/-- The pieces of a string up to its closing quote. The fuel is the number of bytes left. -/
def readPieces : Nat → Cursor → Except Fault (List Piece × Cursor)
  | 0, c => c.fail .endInString
  | n + 1, c => do
    let w := c.rest.takeWhile isPlain
    let d := c.skip w.length
    let behind := fun (ps : List Piece) => if w.isEmpty then ps else .raw c.index w :: ps
    match d.peek? with
    | none => d.fail .endInString
    | some '"' => return (behind [], d.skip 1)
    | some '\\' =>
      let (x, d) ← readEscape (d.skip 1)
      let (ps, d) ← readPieces n d
      return (behind (.char x :: ps), d)
    | some _ => (d.skip 1).fail .controlCharacter

/-- The text of pieces, if all their bytes are characters. -/
def pieceText : List Piece → Except Fault Text
  | [] => .ok []
  | .char c :: ps => (pieceText ps).map (c :: ·)
  | .raw start bs :: ps =>
    match Text.ofBytes bs with
    | (t, []) => (pieceText ps).map (t ++ ·)
    | (_, left) => .error ⟨.invalidCodePoint, start + (bs.length - left.length) + 1⟩

/-- A string behind its opening quote. -/
def readString : Reads Text := fun c => do
  let (ps, d) ← readPieces (c.rest.length + 1) c
  return (← pieceText ps, d)

/-- Passes over an escape whose character does not matter. -/
def skipEscape (c : Cursor) : Except Fault Cursor :=
  match c.peek? with
  | none => c.fail .endInString
  | some 'u' => (readHex (c.skip 1)).map (·.2)
  | some e => if (unescape? e).isSome then .ok (c.skip 1) else (c.skip 1).fail .invalidEscape

/-- Passes over a string behind its opening quote. The fuel is the number of bytes left. -/
def skipString : Nat → Cursor → Except Fault Cursor
  | 0, c => c.fail .endInString
  | n + 1, c =>
    let d := c.skip (c.rest.takeWhile isPlain).length
    match d.peek? with
    | none => d.fail .endInString
    | some '"' => .ok (d.skip 1)
    | some '\\' => (skipEscape (d.skip 1)).bind (skipString n)
    | some _ => d.fail .controlCharacter

end ServerSplit.Json
