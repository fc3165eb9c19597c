import ServerSplit.Js.Repair.Automaton
import ServerSplit.Js.Repair.Spot

/-! The next token at a position: the one that reads most among those expected there, and where none of
them fits, the next token of any kind. What is no token at all is an error up to the next one. -/
namespace ServerSplit.Js.Repair

/-- How a kind of token is read. -/
structure Reading where
  reads : Reads
  /-- Nothing may stand before the token. -/
  glued : Bool := false
  /-- A reading of higher rank is taken, whatever the others read. -/
  rank : Int := 0
  /-- Which of two readings of the same text is taken. -/
  preference : Nat := 0

def Terminal.isWord : Terminal → Bool
  | .literal s => s.toList.all Char.isAlpha
  | _ => false

/-- Keywords are read as names, and the tokens that depend on more than their text have no reading. -/
def Terminal.reading (t : Terminal) : Option Reading :=
  match t with
  | .literal s => if t.isWord then none else some { reads := Lexeme.exactly s.toList, preference := 2 }
  | .name => some { reads := Lexeme.name }
  | .privateName => some { reads := Lexeme.privateName }
  | .number => some { reads := Lexeme.number }
  | .comment => some { reads := Comment.read? }
  | .hashBang => some { reads := Lexeme.hashBang }
  | .entity => some { reads := Lexeme.entity }
  | .markupName => some { reads := Lexeme.hyphenName }
  | .staticGet => some { reads := Lexeme.staticGet }
  | .attributeText q =>
    some { reads := Lexeme.attributeFragment q, glued := true, rank := 1, preference := 1 }
  | .stringText q =>
    some { reads := Lexeme.stringFragment q, glued := true, rank := 1, preference := 1 }
  | .escape => some { reads := Lexeme.escapeSequence, glued := true, preference := 1 }
  | .regexSlash =>
    some { reads := Lexeme.exactly ['/'], glued := true, rank := 1, preference := 3 }
  | .regexPattern =>
    some { reads := Lexeme.regexPattern, glued := true, rank := -1, preference := 1 }
  | .regexFlags => some { reads := Lexeme.regexFlags, glued := true, preference := 1 }
  | .ending | .insertedSemicolon | .templateText | .question | .markupComment | .markupText => none

def readings : Array (Option Reading) := (terminals.map Terminal.reading).toArray

/-- The keywords with their numbers. -/
def keywords : List (Text × Nat) :=
  terminals.zipIdx.filterMap fun (t, i) =>
    match t with
    | .literal s => if t.isWord then some (s.toList, i) else none
    | _ => none

private def nameIndex : Nat := Terminal.index .name
private def endingIndex : Nat := Terminal.index .ending
private def orIndex : Nat := Terminal.index (.literal "||")
private def semicolonIndex : Nat := Terminal.index .insertedSemicolon
private def templateIndex : Nat := Terminal.index .templateText
private def questionIndex : Nat := Terminal.index .question
private def markupTextIndex : Nat := Terminal.index .markupText
private def markupCommentIndex : Nat := Terminal.index .markupComment
private def escapeIndex : Nat := Terminal.index .escape
private def patternIndex : Nat := Terminal.index .regexPattern

def Row.at (r : Row) (token : Nat) : List Action := r.actions.getD token []

def Row.expects (r : Row) (token : Nat) : Bool := !(r.at token).isEmpty

/-- A token that was read, or nothing that is a token. -/
structure Lookahead where
  token : Option Nat
  /-- Where the blanks before the token start. -/
  before : Spot
  start : Spot
  stop : Spot
  /-- Whether the token is a keyword, which may be a name as well. -/
  isWord : Bool := false
  deriving Inhabited

namespace Lookahead

/-- A token that was read behind some blanks. -/
structure Found where
  token : Nat
  start : Spot
  stop : Spot
  rank : Int := 0
  preference : Nat := 0

def Found.beats (a b : Found) : Bool :=
  if a.rank ≠ b.rank then a.rank > b.rank
  else if a.stop.offset ≠ b.stop.offset then a.stop.offset > b.stop.offset
  else a.preference > b.preference

/-- The best reading of the tokens that a row expects. -/
def readPlain (r : Row) (s : Spot) : Option Found :=
  let behind := s.dropWhile isGap
  let anyWord := keywords.any fun k => r.expects k.2
  let best := (List.range readings.size).foldl (fun best i =>
    if r.expects i || (anyWord && i = nameIndex) then
      match readings.getD i none with
      | none => best
      | some reading =>
        let start := if reading.glued then s else behind
        match reading.reads start.rest with
        | none => best
        | some (word, rest) =>
          let found : Found := ⟨i, start, start.behind word rest, reading.rank, reading.preference⟩
          match best with
          | none => some found
          | some b => if found.beats b then some found else best
    else best) none
  match best with
  | some f => some f
  | none =>
    if behind.rest.isEmpty && r.expects endingIndex then
      some { token := endingIndex, start := behind, stop := behind }
    else none

/-- A token with the given number at `s`, read by `reads`. -/
def found? (token : Nat) (reads : Reads) (s start : Spot) : Option Found :=
  (reads s.rest).map fun (word, rest) => { token, start, stop := s.behind word rest }

/-- The mark of a choice, behind what is passed over before it. -/
def readQuestion (insertion : Bool) (s : Spot) : Option Found :=
  let s :=
    if insertion then
      let (passed, rest) := Semicolon.beforeQuestion s.rest
      s.behind passed rest
    else s.dropWhile isPlainBlank
  found? questionIndex Lexeme.question s s

def readMarkupComment (s start : Spot) : Option Found :=
  found? markupCommentIndex Comment.readMarkup? s start

/-- The tokens that depend on more than their text. -/
def readDependent (r : Row) (s : Spot) : Option Found :=
  let operator := r.expects orIndex
  let comments := r.expects markupCommentIndex && !operator && !r.expects escapeIndex &&
    !r.expects patternIndex
  if r.expects templateIndex then
    if r.expects semicolonIndex then none else found? templateIndex Lexeme.templateText s s
  else if r.expects semicolonIndex then
    if Semicolon.isInserted operator s.rest then
      some { token := semicolonIndex, start := s, stop := s }
    else if r.expects questionIndex then readQuestion true s
    else none
  else if r.expects questionIndex then readQuestion false s
  else if comments then
    if r.expects markupTextIndex then
      (found? markupTextIndex Lexeme.markupText s s).or
        (readMarkupComment (s.dropWhile isPlainBlank) s)
    else
      let behind := s.dropWhile fun c => isPlainBlank c || isLineSeparator c
      readMarkupComment behind behind
  else none

/-- How many characters may be read of a text that starts with no token. An escape sequence is `glued`
to what is before it. -/
def broken (glued : Bool) : Text → Nat
  | '?' :: _ => 1
  | '#' :: r => 1 + escape r
  | '\\' :: 'x' :: r => if glued then 2 + hex 2 r else 1
  | t => escape t
where
  hex (n : Nat) (t : Text) : Nat := ((t.take n).takeWhile Lexeme.isHexDigit).length
  escape : Text → Nat
    | '\\' :: 'u' :: '\x7b' :: r => 3 + hex r.length r
    | '\\' :: 'u' :: r => 2 + hex 4 r
    | '\\' :: _ => 1
    | _ => 0

/-- The next token of any kind, or the text up to it, if that is no token. The text is longer than the
number of steps. -/
def readAny (errors : Row) (before : Spot) : Text → Option (Spot × Spot) → Spot → Lookahead
  | [], _, s => ⟨none, before, s, s, false⟩
  | _ :: fuel, skipped, s =>
    match readPlain errors s, skipped with
    | some f, none => ⟨some f.token, before, f.start, f.stop, false⟩
    | some _, some (start, stop) => ⟨none, before, start, stop, false⟩
    | none, _ =>
      let here := s.dropWhile isGap
      let (start, stop) := skipped.getD (here, here)
      let far := here.drop (broken (here.offset = s.offset) here.rest)
      let far := if far.offset = stop.offset then far.drop 1 else far
      readAny errors before fuel (some (start, far)) far

/-- A mark of byte order at the start of a text is passed over. -/
def skipMark (s : Spot) : Spot :=
  if s.offset = 0 && s.rest.head? = some '\uFEFF' then s.drop 1 else s

/-- A keyword is one where it is expected, and else a name. -/
def asKeyword (r : Row) (l : Lookahead) : Lookahead :=
  if l.token = some nameIndex then
    let word := Text.slice 0 (l.stop.offset - l.start.offset) l.start.rest
    match keywords.find? (·.1 = word) with
    | some (_, i) =>
      if r.expects i then { l with token := some i, isWord := true } else { l with isWord := true }
    | none => l
  else l

/-- The next token for a state with row `r`; one that reads nothing is taken only where `allowsEmpty`
says so. -/
def read (r errors : Row) (allowsEmpty : Nat → Bool) (s : Spot) : Lookahead :=
  let base := skipMark s
  let expected := match readDependent r base with
    | some f => if f.stop.offset ≤ base.offset && !allowsEmpty f.token then readPlain r base else some f
    | none => readPlain r base
  asKeyword r <| match expected with
    | some f => ⟨some f.token, s, f.start, f.stop, false⟩
    | none => readAny errors s ('\n' :: s.rest) none base

end Lookahead

end ServerSplit.Js.Repair
