import ServerSplit.Text.Basic

/-! What may stand between two tokens of JavaScript: blanks, comments, and the semicolons that are
inserted where a line ends. -/
namespace ServerSplit.Js

/-- The blanks of JavaScript between tokens. -/
def gapRanges : List (Nat × Nat) :=
  [(0x9, 0xD), (0x20, 0x20), (0xA0, 0xA0), (0x1680, 0x1680), (0x2000, 0x200B), (0x2028, 0x2029),
   (0x202F, 0x202F), (0x205F, 0x2060), (0x3000, 0x3000), (0xFEFF, 0xFEFF)]

def isGap (c : Char) : Bool := gapRanges.any fun r => r.1 ≤ c.toNat && c.toNat ≤ r.2

/-- The blanks that are looked through for the end of a line. -/
def isPlainBlank (c : Char) : Bool := c = ' ' || ('\t' ≤ c && c ≤ '\r')

def isLineSeparator (c : Char) : Bool := c = '\u2028' || c = '\u2029'

/-- A line ends at a line feed or a separator; a lone carriage return ends none. -/
def isLineEnd (c : Char) : Bool := c = '\n' || isLineSeparator c

/-- The zero character, at which every open-ended token ends. -/
def isNul (c : Char) : Bool := c = '\x00'

namespace Comment

def endsLine (c : Char) : Bool := c = '\r' || isLineEnd c || isNul c

/-- The rest of a block comment and what follows it. -/
def blockBody : Text → Option (Text × Text)
  | [] => none
  | ['*'] => none
  | '*' :: '/' :: r => some (['*', '/'], r)
  | c :: r => if isNul c then none else (blockBody r).map fun p => (c :: p.1, p.2)

/-- A comment at the head of the text and what follows it. -/
def read? : Text → Option (Text × Text)
  | '/' :: '/' :: r =>
    some ('/' :: '/' :: r.takeWhile (fun c => !endsLine c), r.dropWhile fun c => !endsLine c)
  | '/' :: '*' :: r => (blockBody r).map fun p => ('/' :: '*' :: p.1, p.2)
  | _ => none

/-- A comment in the manner of HTML, which runs to the end of its line. -/
def readMarkup? (t : Text) : Option (Text × Text) :=
  let stops := fun c => isLineEnd c || isNul c
  match t with
  | '<' :: '!' :: '-' :: '-' :: r =>
    some ('<' :: '!' :: '-' :: '-' :: r.takeWhile (fun c => !stops c), r.dropWhile fun c => !stops c)
  | '-' :: '-' :: '>' :: r =>
    some ('-' :: '-' :: '>' :: r.takeWhile (fun c => !stops c), r.dropWhile fun c => !stops c)
  | _ => none

/-- Such a comment with the blanks before it, which belong to it between the tags of an element. -/
def readContent? (t : Text) : Option (Text × Text) :=
  (readMarkup? (t.dropWhile isPlainBlank)).map fun p => (t.takeWhile isPlainBlank ++ p.1, p.2)

end Comment

namespace Semicolon

/-- How a look through blanks and comments came out: at code, behind a comment of the same line, or
at a slash that opens no comment. -/
inductive Look
  | code (rest : Text)
  | sameLine (rest : Text)
  | slash
  deriving Repr

/-- Reads to the end of a block comment and notes whether a line ended in it. A comment that is not
closed runs to the end of the text. -/
def skipBlock : Text → Bool → Bool × Bool × Text
  | [], ended => (ended, false, [])
  | '*' :: '/' :: r, ended => (ended, true, r)
  | c :: r, ended => if isNul c then (ended, false, c :: r) else skipBlock r (ended || isLineEnd c)

/-- Looks through blanks and comments: through all of them with `through`, else up to the end of the
first block comment with no slash behind it. -/
def look (through : Bool) (t : Text) : Look := go t t false
where
  /-- The first text bounds the number of comments. -/
  go : Text → Text → Bool → Look
    | [], t, _ => .code t
    | _ :: n, t, ended =>
      match t.dropWhile isPlainBlank with
      | '/' :: '/' :: r => go n (r.dropWhile fun c => !(isLineEnd c || isNul c)) ended
      | '/' :: '*' :: r =>
        let (ended, closed, rest) := skipBlock r ended
        if closed && rest.head? != some '/' && !through then
          if ended then .code rest else .sameLine rest
        else go n rest ended
      | '/' :: _ => .slash
      | rest => .code rest

/-- Whether `in` or `instanceof` stands here, read after its first letter. -/
def isOperatorWord : Text → Bool
  | 'n' :: r =>
    match r.head? with
    | none => true
    | some c =>
      !c.isAlpha ||
        match Text.after "stanceof".toList r with
        | some rest => !(rest.head?.any Char.isAlpha)
        | none => false
  | _ => false

/-- Whether a text after a line end starts a statement of its own, and does not go on with the one
before it. -/
def startsStatement : Text → Bool
  | [] => true
  | '.' :: r => r.head?.any Char.isDigit
  | '+' :: r => r.head? == some '+'
  | '-' :: r => r.head? == some '-'
  | '!' :: r => r.head? != some '='
  | 'i' :: r => !isOperatorWord r
  | c :: _ => !"`,:;*%><=[(?^|&/".toList.contains c

/-- Whether a semicolon is inserted before the text. Where no `operator` can stand, a comment is as
good as a line end. -/
def isInserted (operator : Bool) (t : Text) : Bool := go t t
where
  /-- The first text bounds the number of blanks and comments. -/
  go : Text → Text → Bool
    | _, [] => true
    | [], _ => false
    | _ :: n, c :: r =>
      if isNul c then true
      else if c = '/' then
        match look false (c :: r) with
        | .slash => false
        | .sameLine rest => within (fun t => go n t) rest
        | .code rest =>
          (!operator && rest.head? != some ',' && rest.head? != some '=') ||
            within (fun t => go n t) rest
      else within (fun t => go n t) (c :: r)
  /-- Decides at a text without a comment at its head; `further` decides behind a blank. -/
  within (further : Text → Bool) : Text → Bool
    | [] => false
    | c :: r =>
      if c = '}' then true
      else if isLineEnd c then
        match look true r with
        | .code rest => startsStatement rest
        | _ => false
      else isPlainBlank c && further r

/-- What is passed over before the mark of a choice where a semicolon may be inserted, and what follows
it: blanks with one line end among them, and then as much of an operator as the look for the end of the
statement goes into. -/
def beforeQuestion (t : Text) : Text × Text :=
  let inLine : Char → Bool := fun c => isPlainBlank c && c != '\n'
  let b := t.takeWhile inLine
  match t.dropWhile inLine with
  | '/' :: r => (b ++ ['/'], r)
  | c :: r =>
    if isLineEnd c then
      let (w, rest) := splitOperator (r.dropWhile isPlainBlank)
      (b ++ c :: r.takeWhile isPlainBlank ++ w, rest)
    else (b, c :: r)
  | [] => (b, [])
where
  splitOperator : Text → Text × Text
    | '/' :: r => (['/'], r)
    | '.' :: r => (['.'], r)
    | '+' :: r => (['+'], r)
    | '-' :: r => (['-'], r)
    | t =>
      let after := fun s : String => (Text.after s.toList t).map (s.toList, ·)
      (after "instanceof" <|> after "in").getD ([], t)

end Semicolon

end ServerSplit.Js
