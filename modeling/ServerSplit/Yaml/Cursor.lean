import ServerSplit.Yaml.Mark

/-! Going through a text of YAML, character by character and line by line. -/
namespace ServerSplit.Yaml

def isBreak (c : Char) : Bool :=
  c = '\r' || c = '\n' || c = '\u0085' || c = '\u2028' || c = '\u2029'

def isSpace (c : Char) : Bool := c = ' ' || c = '\t'

def isByteOrderMark (c : Char) : Bool := c = '\uFEFF'

/-- The characters of names. -/
def isWordChar (c : Char) : Bool := c.isAlphanum || c = '_' || c = '-'

/-- Whether a character may stand in a text. -/
def isReadable (c : Char) : Bool :=
  let n := c.toNat
  n = 0x9 || n = 0xA || n = 0xD || (0x20 ≤ n && n ≤ 0x7E) || n = 0x85 || (0xA0 ≤ n && n ≤ 0xFFFD) ||
    0x10000 ≤ n

/-- What is not read yet, and its place. -/
structure Cursor where
  rest : Text
  mark : Mark := {}
  deriving Repr

/-- Whether a line ends before what follows. -/
def endsLine (r : Text) : Bool := r.head?.all isBreak

/-- Whether a word ends before what follows. -/
def endsWord (r : Text) : Bool := r.head?.all fun c => isSpace c || isBreak c

namespace Cursor

def next? (c : Cursor) : Option Char := c.rest.head?

def is (c : Cursor) (a : Char) : Bool := c.next? = some a

/-- Whether a word ends `n` characters further on. -/
def endsWordAt (c : Cursor) (n : Nat) : Bool := endsWord (c.rest.drop n)

/-- Passes over characters of one line. -/
def skip (n : Nat) (c : Cursor) : Cursor :=
  { rest := c.rest.drop n
    mark := { c.mark with index := c.mark.index + n, column := c.mark.column + n } }

/-- The characters with a property that follow, all of one line. -/
def span (p : Char → Bool) (c : Cursor) : Text × Cursor :=
  let t : Text := c.rest.takeWhile p
  (t, c.skip t.length)

def skipWhile (p : Char → Bool) (c : Cursor) : Cursor := (c.span p).2

/-- Passes over the end of a line; also what stands for it in a value. -/
def lineEnd (c : Cursor) : Text × Cursor :=
  let move := fun n => { index := c.mark.index + n, line := c.mark.line + 1, column := 0 : Mark }
  match c.rest with
  | '\r' :: '\n' :: r => (['\n'], ⟨r, move 2⟩)
  | a :: r => (if a = '\u2028' ∨ a = '\u2029' then [a] else ['\n'], ⟨r, move 1⟩)
  | [] => ([], c)

def skipLine (c : Cursor) : Cursor := c.lineEnd.2

/-- Passes over blanks and a comment to the end of the line, if nothing else is there. -/
def skipComment? (c : Cursor) : Option Cursor :=
  let c := c.skipWhile isSpace
  let c := if c.is '#' then c.skipWhile (!isBreak ·) else c
  if endsLine c.rest then some (if c.rest.isEmpty then c else c.skipLine) else none

/-- Whether three equal characters and the end of a word follow at the start of a line. -/
def isIndicator (a : Char) (c : Cursor) : Bool :=
  c.mark.column = 0 && c.rest.take 3 = [a, a, a] && c.endsWordAt 3

/-- Whether a document starts or ends here by its indicator. -/
def isDocumentEdge (c : Cursor) : Bool := c.isIndicator '-' || c.isIndicator '.'

/-- A fault at the place that is reached. -/
def fail {α : Type} (c : Cursor) (problem : String) (context : Option (String × Mark)) :
    Except Fault α :=
  .error { problem, mark := c.mark, context }

end Cursor

/-- Reads something at the place. -/
abbrev Reads (α : Type) := Cursor → Except Fault (α × Cursor)

/-- The fault of a text with a character that may not stand in one. -/
def unreadable? (t : Text) : Option Fault := go t 0
where
  go : Text → Nat → Option Fault
    | [], _ => none
    | c :: r, n =>
      if isReadable c then go r (n + c.utf8Size)
      else some { problem := "control characters are not allowed", offset := n }

end ServerSplit.Yaml
