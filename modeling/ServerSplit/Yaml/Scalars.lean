import ServerSplit.Text.Digits
import ServerSplit.Yaml.Cursor
import ServerSplit.Yaml.Token

/-! Scalars in all their styles. Each reader starts at the first character of the scalar. -/
namespace ServerSplit.Yaml

/-! ### Blanks inside a scalar -/

/-- The blanks between two words: those of one line, or the line ends if there are any. -/
structure Fold where
  blanks : Text := []
  /-- Whether a line ends in between. -/
  broken : Bool := false
  lineEnd : Text := []
  furtherEnds : Text := []
  deriving Repr

/-- What blanks stand for: a single line end is a blank. -/
def Fold.text (f : Fold) : Text :=
  if !f.broken then f.blanks
  else if f.lineEnd.head? ≠ some '\n' then f.lineEnd ++ f.furtherEnds
  else if f.furtherEnds.isEmpty then [' ']
  else f.furtherEnds

/-- Reads blanks and line ends; fails at a tab left of column `indent` on a further line. The fuel is
the number of characters left. -/
def readFold (context : Option (String × Mark)) (indent : Nat) : Nat → Fold → Reads Fold
  | 0, f, c => .ok (f, c)
  | n + 1, f, c =>
    match c.next? with
    | none => .ok (f, c)
    | some a =>
      if isSpace a then
        if f.broken then
          if a = '\t' ∧ c.mark.column < indent then
            c.fail "found a tab character that violates indentation" context
          else readFold context indent n f (c.skip 1)
        else readFold context indent n { f with blanks := f.blanks ++ [a] } (c.skip 1)
      else if isBreak a then
        let (e, d) := c.lineEnd
        if f.broken then readFold context indent n { f with furtherEnds := f.furtherEnds ++ e } d
        else readFold context indent n { f with broken := true, lineEnd := e } d
      else .ok (f, c)

/-! ### Quoted scalars -/

/-- What the character behind a backslash stands for. -/
def escape? (c : Char) : Option Char :=
  ("0abt\tnvfre \"/\\N_LP".toList.zip
    "\x00\x07\x08\t\t\n\x0b\x0c\r\x1b \"/\\\u0085\u00a0\u2028\u2029".toList).lookup c

/-- The number of digits behind a letter that starts a code. -/
def codeLength? (c : Char) : Option Nat := [('x', 2), ('u', 4), ('U', 8)].lookup c

/-- An escape sequence, at its backslash. -/
def readEscape (context : Option (String × Mark)) : Reads Char := fun c =>
  match c.rest.drop 1 with
  | [] => c.fail "found unknown escape character" context
  | a :: digits =>
    match escape? a, codeLength? a with
    | some b, _ => .ok (b, c.skip 2)
    | none, some n =>
      if (digits.take n).length < n then
        (c.skip 2).fail "did not find expected hexdecimal number" context
      else match Text.toNat? 16 (digits.take n) with
        | some v =>
          if v.isValidChar then .ok (Char.ofNat v, c.skip (2 + n))
          else (c.skip 2).fail "found invalid Unicode character escape code" context
        | none => (c.skip 2).fail "did not find expected hexdecimal number" context
    | none, none => c.fail "found unknown escape character" context

/-- A word of a quoted scalar behind the characters in `t`, and whether it ends in an escaped line
end. The fuel exceeds the number of characters left. -/
def readQuotedWord (context : Option (String × Mark)) (single : Bool) :
    Nat → Text → Reads (Text × Bool)
  | 0, t, c => .ok ((t, false), c)
  | n + 1, t, c =>
    match c.rest with
    | [] => .ok ((t, false), c)
    | a :: r =>
      if isSpace a || isBreak a then .ok ((t, false), c)
      else if single && a = '\'' then
        if r.head? = some '\'' then readQuotedWord context single n (t ++ ['\'']) (c.skip 2)
        else .ok ((t, false), c)
      else if !single && a = '"' then .ok ((t, false), c)
      else if !single && a = '\\' then
        if r.head?.any isBreak then .ok ((t, true), (c.skip 1).skipLine)
        else do
          let (b, c) ← readEscape context c
          readQuotedWord context single n (t ++ [b]) c
      else readQuotedWord context single n (t ++ [a]) (c.skip 1)

/-- A quoted scalar behind the text `t`, up to its closing quote. The fuel exceeds the number of
characters left. -/
def readQuotedRest (start : Mark) (single : Bool) : Nat → Text → Reads Text
  | 0, t, c => .ok (t, c)
  | n + 1, t, c => do
    let scanning := some ("while scanning a quoted scalar", start)
    let parsing := some ("while parsing a quoted scalar", start)
    if c.isDocumentEdge then c.fail "found unexpected document indicator" scanning
    else if c.rest.isEmpty then c.fail "found unexpected end of stream" scanning
    else
      let ((word, joined), c) ← readQuotedWord parsing single (c.rest.length + 1) [] c
      if c.is (if single then '\'' else '"') then return (t ++ word, c.skip 1)
      else
        let (f, c) ← readFold none 0 c.rest.length { broken := joined } c
        readQuotedRest start single n (t ++ word ++ f.text) c

def readQuoted (single : Bool) : Reads Token := fun c => do
  let (t, c) ← readQuotedRest c.mark single (c.rest.length + 1) [] (c.skip 1)
  return (.scalar (if single then .singleQuoted else .doubleQuoted) t, c)

/-! ### Plain scalars -/

/-- Whether a plain scalar ends before what follows, which is in a flow collection if `flow`. -/
def endsPlain (flow : Bool) (r : Text) : Bool :=
  match r with
  | ':' :: r => endsWord r
  | a :: _ => flow && ",[]\x7b\x7d".toList.contains a
  | [] => true

/-- A word of a plain scalar behind the characters in `t`. -/
def readPlainWord (context : Option (String × Mark)) (flow : Bool) : Nat → Text → Reads Text
  | 0, t, c => .ok (t, c)
  | n + 1, t, c =>
    match c.rest with
    | [] => .ok (t, c)
    | a :: r =>
      if isSpace a || isBreak a then .ok (t, c)
      else if flow && a = ':' && r.head?.any ",?[]\x7b\x7d".toList.contains then
        c.fail "found unexpected ':'" context
      else if endsPlain flow c.rest then .ok (t, c)
      else readPlainWord context flow n (t ++ [a]) (c.skip 1)

/-- A plain scalar in its making: its text and the blanks behind that. -/
structure Plain where
  text : Text := []
  fold : Fold := {}

/-- Reads words of a plain scalar as long as they stand in column `indent` or further right. The fuel
exceeds the number of characters left. -/
def readPlainRest (context : Option (String × Mark)) (flow : Bool) (indent : Nat) :
    Nat → Plain → Reads Plain
  | 0, p, c => .ok (p, c)
  | n + 1, p, c => do
    if c.isDocumentEdge || c.is '#' then return (p, c)
    else
      let (word, c) ← readPlainWord context flow (c.rest.length + 1) [] c
      let p := if word.isEmpty then p else ⟨p.text ++ p.fold.text ++ word, {}⟩
      if !c.next?.any fun a => isSpace a || isBreak a then return (p, c)
      else
        let (fold, c) ← readFold context indent c.rest.length {} c
        let p := { p with fold }
        if !flow && c.mark.column < indent then return (p, c)
        else readPlainRest context flow indent n p c

def readPlain (flow : Bool) (indent : Nat) : Reads Plain := fun c =>
  readPlainRest (some ("while scanning a plain scalar", c.mark)) flow indent (c.rest.length + 1) {} c

/-! ### Block scalars -/

/-- What is done with the line ends behind a block scalar. -/
inductive Chomping
  | strip
  | clip
  | keep
  deriving Repr, DecidableEq

/-- What the first line of a block scalar says. -/
structure BlockHeader where
  chomping : Chomping := .clip
  increment : Option Nat := none
  deriving Repr

def readChomping (h : BlockHeader) (c : Cursor) : BlockHeader × Cursor :=
  if c.is '+' then ({ h with chomping := .keep }, c.skip 1)
  else if c.is '-' then ({ h with chomping := .strip }, c.skip 1)
  else (h, c)

def readIncrement (context : Option (String × Mark)) (h : BlockHeader) : Reads BlockHeader := fun c =>
  match c.next? with
  | some a =>
    if a = '0' then c.fail "found an indentation indicator equal to 0" context
    else if a.isDigit then .ok ({ h with increment := some (a.toNat - 48) }, c.skip 1)
    else .ok (h, c)
  | none => .ok (h, c)

/-- The first line of a block scalar, behind its sign. -/
def readBlockHeader (context : Option (String × Mark)) : Reads BlockHeader := fun c => do
  let (h, d) := readChomping {} c
  let (h, d) ←
    if h.chomping ≠ .clip then readIncrement context h d
    else do
      let (h, d) ← readIncrement context h c
      pure (if h.increment.isSome then readChomping h d else (h, d))
  match d.skipComment? with
  | some e => return (h, e)
  | none =>
    (d.skipWhile isSpace).fail "did not find expected comment or line break" context

/-- Empty lines before a line of a block scalar. -/
structure Breaks where
  ends : Text := []
  /-- The rightmost column reached by blanks. -/
  widest : Nat := 0

/-- Passes over blanks up to column `indent`, if that is known, and over empty lines. The fuel exceeds
the number of characters left. -/
def readBreaks (context : Option (String × Mark)) (indent : Option Nat) : Nat → Breaks → Reads Breaks
  | 0, b, c => .ok (b, c)
  | n + 1, b, c =>
    let width := (c.rest.takeWhile (· = ' ')).length
    let c := c.skip (match indent with
      | some i => min width (i - c.mark.column)
      | none => width)
    let b := { b with widest := max b.widest c.mark.column }
    if c.is '\t' && indent.all (c.mark.column < ·) then
      c.fail "found a tab character where an indentation space is expected" context
    else if c.next?.any isBreak then
      let (e, c) := c.lineEnd
      readBreaks context indent n { b with ends := b.ends ++ e } c
    else .ok (b, c)

/-- The lines of a block scalar in their making. -/
structure Block where
  text : Text := []
  /-- The end of the last line. -/
  lineEnd : Text := []
  breaks : Breaks
  /-- Whether the last line starts with a blank. -/
  blank : Bool := false

/-- The text before the next line of a block scalar. -/
def Block.joined (literal blank : Bool) (b : Block) : Text :=
  let folded := !literal && b.lineEnd.head? = some '\n' && !b.blank && !blank
  b.text ++
    (if !folded then b.lineEnd else if b.breaks.ends.isEmpty then [' '] else []) ++ b.breaks.ends

/-- Reads lines that start in column `indent`. The fuel exceeds the number of characters left. -/
def readBlockLines (context : Option (String × Mark)) (literal : Bool) (indent : Nat) :
    Nat → Block → Reads Block
  | 0, b, c => .ok (b, c)
  | n + 1, b, c => do
    if c.mark.column = indent ∧ !c.rest.isEmpty then
      let blank := c.next?.any isSpace
      let (line, c) := c.span (!isBreak ·)
      let text := b.joined literal blank ++ line
      let (lineEnd, c) := c.lineEnd
      let (breaks, c) ← readBreaks context (some indent) (c.rest.length + 1) {} c
      readBlockLines context literal indent n { text, lineEnd, breaks, blank } c
    else return (b, c)

/-- A block scalar inside a collection in column `outer`, if there is one. -/
def readBlock (literal : Bool) (outer : Option Nat) : Reads Token := fun c => do
  let context := some ("while scanning a block scalar", c.mark)
  let (h, c) ← readBlockHeader context (c.skip 1)
  let indent := h.increment.map (outer.getD 0 + ·)
  let (breaks, c) ← readBreaks context indent (c.rest.length + 1) {} c
  let least := max 1 (match outer with
    | some i => i + 1
    | none => 0)
  let indent := indent.getD (max breaks.widest least)
  let (b, c) ← readBlockLines context literal indent (c.rest.length + 1) { breaks } c
  let text := b.text ++
    (if h.chomping = .strip then [] else b.lineEnd) ++
    (if h.chomping = .keep then b.breaks.ends else [])
  return (.scalar (if literal then .literal else .folded) text, c)

end ServerSplit.Yaml
