import ServerSplit.Js.Gap
import ServerSplit.Js.Lexeme
import ServerSplit.Js.Recast

/-! Reading a text step by step into trees. A reader holds what is not read yet and the trees built so
far; a step reads a token or a gap, or folds trees into a node. -/
namespace ServerSplit.Js

/-- What may stand in a gap between tokens. -/
structure Gap where
  /-- The gap ends where a semicolon is inserted. -/
  semicolon : Bool := false
  /-- An operator may follow. -/
  operator : Bool := false
  deriving Repr, DecidableEq

/-- The gap between the pieces of a string or pattern. As before an operator, no comment in the manner
of HTML stands there. -/
def Gap.inLiteral : Gap := ⟨false, true⟩

structure Reader where
  rest : Text
  /-- The byte at which `rest` starts. -/
  offset : Nat := 0
  /-- The blanks read since the last token or comment. -/
  blank : Text := []
  /-- Whether the gap before the next token has been read. -/
  settled : Bool := false
  /-- Whether the last token closed a block behind which no semicolon was inserted. -/
  closed : Bool := false
  /-- The trees of the innermost open node, last first. -/
  items : List Tree := []
  /-- The trees of the nodes around it, innermost first. -/
  outer : List (List Tree) := []

namespace Reader

def ofText (t : Text) : Reader := { rest := t }

/-- Takes the token `text` from the head of the rest; `rest` follows it. -/
def push (s : Reader) (kind : Leaf) (text rest : Text) : Reader :=
  { s with
    rest, offset := s.offset + text.size, blank := [], settled := false
    items := .leaf ⟨kind, s.blank, text, s.offset⟩ :: s.items }

def skipBlanks (s : Reader) : Reader :=
  let b : Text := s.rest.takeWhile isGap
  { s with rest := s.rest.dropWhile isGap, offset := s.offset + b.size, blank := s.blank ++ b }

/-- The blanks read since the last token or comment, but for a mark of byte order that opens the text. -/
def visibleBlank (s : Reader) : Text :=
  match s.blank with
  | c :: b => if c = '\uFEFF' && s.offset = s.blank.size then b else c :: b
  | [] => []

/-- Comments in the manner of HTML stand where neither a semicolon nor an operator may follow, and
after plain blanks. -/
def allowsMarkup (g : Gap) (s : Reader) : Bool :=
  !g.semicolon && !g.operator && !s.closed &&
    s.visibleBlank.all fun c => isPlainBlank c || isLineSeparator c

def isInserted (g : Gap) (s : Reader) : Bool := g.semicolon && Semicolon.isInserted g.operator s.rest

/-- The comment at the head of the rest. -/
def comment? (g : Gap) (s : Reader) : Option (Leaf × Text × Text) :=
  match Comment.read? s.rest with
  | some p => some (.comment, p)
  | none => if allowsMarkup g s then (Comment.readMarkup? s.rest).map (.markupComment, ·) else none

/-- Reads a comment. Fails where a semicolon is inserted. -/
def comment (g : Gap) (s : Reader) : Option Reader :=
  if isInserted g s then none
  else
    let s := skipBlanks s
    (comment? g s).map fun (kind, text, rest) => s.push kind text rest

/-- Reads the mark of a choice, before which only plain blanks stand, or what is passed over where a
semicolon may be inserted. -/
def question (semicolon : Bool) (s : Reader) : Option Reader :=
  let t := s.blank ++ s.rest
  let (passed, rest) :=
    if semicolon then Semicolon.beforeQuestion t
    else (t.takeWhile isPlainBlank, t.dropWhile isPlainBlank)
  (Lexeme.question rest).map fun (w, r) =>
    let s := { s with blank := passed, offset := s.offset - s.blank.size + passed.size }
    { s.push .mark w r with closed := false }

/-- Reads the gap before the next token. Fails where a semicolon is inserted. -/
def settle (g : Gap) (s : Reader) : Option Reader :=
  if s.settled then some s else go ('\n' :: s.rest) s
where
  /-- The text is longer than the number of comments. -/
  go : Text → Reader → Option Reader
    | [], _ => none
    | _ :: n, s =>
      if isInserted g s then none
      else
        let s := skipBlanks s
        match comment? g s with
        | some (kind, text, rest) => go n (s.push kind text rest)
        | none => some { s with settled := true }

/-- Takes a token at the head of the rest. -/
def take (kind : Leaf) (reads : Reads) (s : Reader) : Option Reader :=
  (reads s.rest).map fun p => { s.push kind p.1 p.2 with closed := false }

/-- Reads comments until a semicolon is inserted. -/
def insertion (operator : Bool) (s : Reader) : Option Reader :=
  if s.settled then none else go ('\n' :: s.rest) s
where
  /-- The text is longer than the number of comments. -/
  go : Text → Reader → Option Reader
    | [], _ => none
    | _ :: n, s =>
      if Semicolon.isInserted operator s.rest then some { s with closed := false }
      else
        let s := skipBlanks s
        (Comment.read? s.rest).bind fun p => go n (s.push .comment p.1 p.2)

/-- Splits off the last `n` trees that are no comments, with the comments among and after them. -/
def splitLast : Nat → List Tree → Option (List Tree × List Tree)
  | 0, ts => some ([], ts)
  | _ + 1, [] => none
  | n + 1, t :: ts =>
    (splitLast (if t.isComment then n + 1 else n) ts).map fun p => (t :: p.1, p.2)

/-- Recasts the last tree that is no comment. -/
def recastLast (r : Recast) : List Tree → Option (List Tree)
  | [] => none
  | t :: ts => if t.isComment then (recastLast r ts).map (t :: ·) else (r.apply t).map (· :: ts)

/-- The last tree that is no comment. -/
def last? (s : Reader) : Option Tree := s.items.find? (!·.isComment)

end Reader

end ServerSplit.Js
