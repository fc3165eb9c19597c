import ServerSplit.Js.Gap

/-! The tokens of JavaScript as parts of a text: each reader gives the token at the head of the text
and what follows it. -/
namespace ServerSplit.Js

/-- A reader of one token: its text and what follows. -/
abbrev Reads := Text → Option (Text × Text)

namespace Lexeme

/-- The longest head of the text whose characters all satisfy `p`, if it is not empty. -/
def run (p : Char → Bool) : Reads := fun t =>
  match t.takeWhile p with
  | [] => none
  | w => some (w, t.dropWhile p)

/-- Reads with `f` and then, on what follows, with `g`. -/
def andThen (f g : Reads) : Reads := fun t => do
  let (a, r) ← f t
  let (b, r) ← g r
  return (a ++ b, r)

/-- Reads with `f` if it can. -/
def orNothing (f : Reads) : Reads := fun t => f t <|> some ([], t)

def exactly (s : Text) : Reads := fun t => (Text.after s t).map (s, ·)

def oneOf (s : List Char) : Reads
  | c :: r => if s.contains c then some ([c], r) else none
  | [] => none

def isHexDigit (c : Char) : Bool :=
  c.isDigit || ('a' ≤ c && c ≤ 'f') || ('A' ≤ c && c ≤ 'F')

def isOctalDigit (c : Char) : Bool := '0' ≤ c && c ≤ '7'

/-- Exactly `n` characters that satisfy `p`. -/
def count (n : Nat) (p : Char → Bool) : Reads := fun t =>
  let w := t.take n
  if w.length = n && w.all p then some (w, t.drop n) else none

/-! ### Names -/

/-- The characters that end a name. -/
def namePunctuation : List Char := ":;`\"'@#.,|^&<=>+-*/\\%?!~()[]\x7b\x7d".toList

def isNameChar (c : Char) : Bool :=
  c.toNat > 0x1F && !isGap c && !namePunctuation.contains c

/-- A character of a name written by its code point, after the backslash. -/
def unicodeEscape : Reads := fun t =>
  andThen (exactly ['u']) (count 4 isHexDigit) t <|>
  andThen (exactly ['u', '\x7b']) (andThen (run isHexDigit) (exactly ['\x7d'])) t

/-- One character of a name; the first may not be a digit. -/
def nameChar (first : Bool) : Reads
  | '\\' :: r => (unicodeEscape r).map fun p => ('\\' :: p.1, p.2)
  | c :: r => if isNameChar c && !(first && c.isDigit) then some ([c], r) else none
  | [] => none

/-- The characters of a name after its first; the first text bounds their number. -/
def nameRest : Text → Text → Text × Text
  | [], t => ([], t)
  | _ :: n, t =>
    match nameChar false t with
    | none => ([], t)
    | some (a, r) => let (b, r) := nameRest n r; (a ++ b, r)

/-- A name or keyword. -/
def name : Reads := fun t => do
  let (a, r) ← nameChar true t
  let (b, r) := nameRest r r
  return (a ++ b, r)

/-- A name or keyword that is none of the given words. -/
def nameExcept (words : List String) : Reads := fun t => do
  let (w, r) ← name t
  if words.any (·.toList = w) then none else return (w, r)

/-- The given word, with no character of a name behind it. -/
def word (s : String) : Reads := fun t => do
  let (w, r) ← name t
  if w = s.toList then return (w, r) else none

/-- A private name. -/
def privateName : Reads := andThen (exactly ['#']) name

/-- A name with a hyphen in it, as markup allows. -/
def hyphenName : Reads := fun t => do
  let first := fun c : Char => c.isAlpha || c = '_' || c = '$'
  let inner := fun c : Char => c.isAlphanum || c = '_' || c = '$'
  let (a, r) ← (match t with
    | c :: r => if first c then some ([c], r) else none
    | [] => none)
  let (b, r) ← orNothing (run inner) r
  let (h, r) ← exactly ['-'] r
  let (d, r) ← orNothing (run fun c => inner c || c = '-') r
  return (a ++ b ++ h ++ d, r)

/-- The longer of a plain and a hyphenated name. -/
def markupName : Reads := fun t =>
  match hyphenName t, name t with
  | some (a, r), some (b, s) => if a.length > b.length then some (a, r) else some (b, s)
  | some p, none => some p
  | none, p => p

/-! ### Numbers -/

/-- Digits that satisfy `p`, with single underscores between them. -/
def digits (p : Char → Bool) : Reads
  | c :: r => if p c then (go r).map fun q => (c :: q.1, q.2) else none
  | [] => none
where
  go : Text → Option (Text × Text)
    | '_' :: c :: r => if p c then (go r).map fun q => ('_' :: c :: q.1, q.2) else some ([], '_' :: c :: r)
    | c :: r => if p c then (go r).map fun q => (c :: q.1, q.2) else some ([], c :: r)
    | [] => some ([], [])

def exponent : Reads :=
  andThen (oneOf ['e', 'E']) (andThen (orNothing (oneOf ['+', '-'])) (digits Char.isDigit))

/-- Whether digits may be followed by a fraction or an exponent: they have no zero before them that
is not alone or followed by another digit than zero. -/
def isDecimalInteger : Text → Bool
  | ['0'] => true
  | '0' :: c :: _ => c.isDigit && c != '0'
  | _ => true

/-- A number with a prefix for its base. -/
def basedNumber (letters : List Char) (p : Char → Bool) : Reads :=
  andThen (exactly ['0']) (andThen (oneOf letters) (andThen (digits p) (orNothing (exactly ['n']))))

def decimalNumber : Reads := fun t =>
  match digits Char.isDigit t with
  | none => andThen (exactly ['.']) (andThen (digits Char.isDigit) (orNothing exponent)) t
  | some (d, r) =>
    if r.head? = some 'n' then some (d ++ ['n'], r.drop 1)
    else if isDecimalInteger d then
      let tail := match r with
        | '.' :: r' =>
          andThen (exactly ['.']) (andThen (orNothing (digits Char.isDigit)) (orNothing exponent))
            ('.' :: r')
        | _ => orNothing exponent r
      tail.map fun q => (d ++ q.1, q.2)
    else some (d, r)

def number : Reads := fun t =>
  basedNumber ['x', 'X'] isHexDigit t <|> basedNumber ['o', 'O'] isOctalDigit t <|>
  basedNumber ['b', 'B'] (fun c => c = '0' || c = '1') t <|> decimalNumber t

/-! ### Strings, templates, regular expressions -/

/-- The part of a string up to its quote, an escape or a line end. -/
def stringFragment (quote : Char) : Reads :=
  run fun c => c != quote && c != '\\' && c != '\r' && c != '\n' && !isNul c

/-- An escape sequence, from its backslash on. -/
def escapeSequence : Reads
  | '\\' :: r => (body r).map fun p => ('\\' :: p.1, p.2)
  | _ => none
where
  body : Reads
    | [] => none
    | 'x' :: r => (count 2 isHexDigit r).map fun p => ('x' :: p.1, p.2)
    | 'u' :: r => unicodeEscape ('u' :: r)
    | c :: r =>
      if isNul c then none
      else if isOctalDigit c then
        let w := (r.take 2).takeWhile isOctalDigit
        some (c :: w, r.drop w.length)
      else if c = '\r' || c = '?' then
        match r with
        | d :: r' => if isLineEnd d then some ([c, d], r') else some ([c], r)
        | [] => some ([c], [])
      else some ([c], r)

/-- The text of a template up to its end, an escape or a substitution. It must be closed. -/
def templateText : Reads := fun t => do
  let (w, r) ← go t
  if w.isEmpty then none else return (w, r)
where
  go : Text → Option (Text × Text)
    | [] => none
    | '$' :: '\x7b' :: r => some ([], '$' :: '\x7b' :: r)
    | c :: r =>
      if c = '`' || c = '\\' then some ([], c :: r)
      else if isNul c then none
      else (go r).map fun p => (c :: p.1, p.2)

def isRegexChar (c : Char) : Bool := c != '\n' && !isNul c

/-- The pattern of a regular expression up to its slash. A class in brackets may hold slashes; the
pattern ends before a class that is not closed. -/
def regexPattern : Reads := fun t =>
  match go t t with
  | ([], _) => none
  | p => some p
where
  /-- The first text bounds the number of pieces. -/
  go : Text → Text → Text × Text
    | [], t => ([], t)
    | _ :: n, t =>
      match piece t with
      | none => ([], t)
      | some (a, r) => let (b, r) := go n r; (a ++ b, r)
  piece : Reads
    | '\\' :: c :: r => if isRegexChar c then some (['\\', c], r) else none
    | '[' :: r => (classBody r).map fun p => ('[' :: p.1, p.2)
    | c :: r => if isRegexChar c && c != '/' && c != '\\' then some ([c], r) else none
    | [] => none
  classBody : Text → Option (Text × Text)
    | '\\' :: c :: r =>
      if isRegexChar c then (classBody r).map fun p => ('\\' :: c :: p.1, p.2) else none
    | c :: r =>
      if c = ']' then some ([c], r)
      else if isRegexChar c && c != '\\' then (classBody r).map fun p => (c :: p.1, p.2)
      else none
    | [] => none

def regexFlags : Reads := run fun c => 'a' ≤ c && c ≤ 'z'

/-! ### Markup -/

/-- Text between tags: not only line ends with the blanks around them. -/
def markupText : Reads := fun t =>
  let inText := fun c : Char => !"<>\x7b\x7d&".toList.contains c && !isNul c
  let w := t.takeWhile inText
  if saysSomething w false then some (w, t.dropWhile inText) else none
where
  /-- Whether a character other than a blank after a line end stands in the text. -/
  saysSomething : Text → Bool → Bool
    | [], _ => false
    | c :: r, afterLine =>
      if c = '\n' then saysSomething r true
      else if afterLine && isPlainBlank c then saysSomething r true
      else true

/-- A character reference, as `&amp;`. -/
def entity : Reads := fun t =>
  let upTo := fun (n : Nat) (p : Char → Bool) (t : Text) =>
    let w := (t.take n).takeWhile p
    if w.isEmpty then none else some (w, t.drop w.length)
  let named := andThen (upTo 30 Char.isAlpha) (exactly [';'])
  let decimal := andThen (upTo 5 Char.isDigit) (exactly [';'])
  let hex := andThen (oneOf ['x', 'X']) (andThen (upTo 6 isHexDigit) (exactly [';']))
  match t with
  | '&' :: '#' :: r => (hex r <|> decimal r).map fun p => ('&' :: '#' :: p.1, p.2)
  | '&' :: r => (named r).map fun p => ('&' :: p.1, p.2)
  | _ => none

/-- The part of a quoted attribute up to its quote or a character reference. -/
def attributeFragment (quote : Char) : Reads := fun t =>
  match go t with
  | ([], _) => none
  | p => some p
where
  go : Text → Text × Text
    | '&' :: c :: r =>
      if c = '#' || c.isAlpha || isNul c then ([], '&' :: c :: r)
      else let (b, r) := go r; ('&' :: c :: b, r)
    | c :: r =>
      if c = quote || c = '&' || isNul c then ([], c :: r)
      else let (b, r) := go r; (c :: b, r)
    | [] => ([], [])

/-! ### Operators -/

/-- The operators, a longer one before those it begins with. -/
def operators : List Text :=
  [">>>=", "===", "!==", "**=", "<<=", ">>=", ">>>", "&&=", "||=", "??=", "=>", "==", "!=", "<=", ">=",
   "&&", "||", "??", "++", "--", "+=", "-=", "*=", "/=", "%=", "&=", "|=", "^=", "<<", ">>", "**",
   "=", "<", ">", "&", "|", "+", "-", "*", "/", "%", "^", "!", "~"].map String.toList

/-- The given operator, where it is no part of a longer one. -/
def operator (s : Text) : Reads := fun t => do
  let w ← operators.find? fun w => (Text.after w t).isSome
  if w = s then exactly s t else none

/-- The mark of a choice: a question mark that is neither doubled nor part of an optional chain. -/
def question : Reads
  | '?' :: '?' :: _ => none
  | '?' :: '.' :: c :: r => if c.isDigit then some (['?'], '.' :: c :: r) else none
  | '?' :: '.' :: [] => none
  | '?' :: r => some (['?'], r)
  | _ => none

/-- The mark of an optional chain. -/
def chain : Reads
  | '?' :: '.' :: r => if r.head?.any Char.isDigit then none else some (['?', '.'], r)
  | _ => none

/-! ### The first line, accessors -/

/-- The line that names an interpreter. -/
def hashBang : Reads := fun t => do
  let r ← Text.after ['#', '!'] t
  let p := fun c : Char => c != '\n' && !isNul c
  return ('#' :: '!' :: r.takeWhile p, r.dropWhile p)

/-- `static` and `get` as one token, when the line ends behind them. -/
def staticGet : Reads := fun t => do
  let r ← Text.after "static".toList t
  let gap := r.takeWhile isPlainBlank
  if gap.isEmpty then none
  let r' ← Text.after "get".toList (r.drop gap.length)
  let blanks := r'.takeWhile isPlainBlank
  let kept := (blanks.reverse.dropWhile (· != '\n')).reverse
  if kept.isEmpty then none
  return ("static".toList ++ gap ++ "get".toList ++ kept, r'.drop kept.length)

end Lexeme

end ServerSplit.Js
