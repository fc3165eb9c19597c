import ServerSplit.Yaml.Properties
import ServerSplit.Yaml.Scalars

/-! The tokens of a text of YAML. A colon makes a key of what stands before it, so tokens wait in a queue
as long as one of them may turn out to start a key. -/
namespace ServerSplit.Yaml

/-- The start of what a colon would make a key. -/
structure PossibleKey where
  /-- Whether nothing else can stand there. -/
  required : Bool
  /-- The number of tokens before it. -/
  number : Nat
  mark : Mark
  deriving Repr

structure Scanner where
  cursor : Cursor
  /-- The tokens that have been read and not been taken. -/
  queue : List Placed := []
  /-- The number of tokens that have been taken. -/
  taken : Nat := 0
  /-- Whether a key may start here. -/
  keyAllowed : Bool := true
  /-- The possible key in the innermost flow collection. -/
  key : Option PossibleKey := none
  /-- The possible keys around it, one for each flow collection. -/
  outerKeys : List (Option PossibleKey) := []
  /-- The columns of the block collections, innermost first. -/
  indents : List Nat := []

namespace Scanner

def ofText (t : Text) : Scanner := { cursor := { rest := t } }

def inFlow (s : Scanner) : Bool := !s.outerKeys.isEmpty

def mark (s : Scanner) : Mark := s.cursor.mark

def enqueue (s : Scanner) (t : Token) : Scanner := { s with queue := s.queue ++ [⟨t, s.mark⟩] }

/-- Puts a token before the one with the given number. -/
def insert (s : Scanner) (number : Nat) (t : Placed) : Scanner :=
  { s with queue := s.queue.insertIdx (number - s.taken) t }

/-! ### Keys -/

def keyMissing {α : Type} (s : Scanner) (k : PossibleKey) : Except Fault α :=
  s.cursor.fail "could not find expected ':'" (some ("while scanning a simple key", k.mark))

/-- Whether a key that starts at `k` would be longer than a line or 1024 characters. -/
def isStale (s : Scanner) (k : PossibleKey) : Bool :=
  decide (k.mark.line < s.mark.line) || decide (k.mark.index + 1024 < s.mark.index)

/-- Drops a key that has become too long. -/
def dropStale (s : Scanner) : Option PossibleKey → Except Fault (Option PossibleKey)
  | none => .ok none
  | some k =>
    if !s.isStale k then .ok (some k) else if k.required then s.keyMissing k else .ok none

def dropStaleKeys (s : Scanner) : Except Fault Scanner := do
  let outerKeys ← s.outerKeys.reverse.mapM s.dropStale
  let key ← s.dropStale s.key
  return { s with key, outerKeys := outerKeys.reverse }

/-- Drops the key of the innermost collection. -/
def dropKey (s : Scanner) : Except Fault Scanner :=
  match s.key with
  | none => .ok s
  | some k => if k.required then s.keyMissing k else .ok { s with key := none }

/-- Notes that a key may start with the next token. -/
def saveKey (s : Scanner) : Except Fault Scanner := do
  if s.keyAllowed then
    let required := !s.inFlow && s.indents.head? = some s.mark.column
    let k := { required, number := s.taken + s.queue.length, mark := s.mark }
    return { (← s.dropKey) with key := some k }
  else return s

/-! ### Block collections -/

/-- Whether a block collection in a column would be inside the one around it. -/
def isInside (s : Scanner) (column : Nat) : Bool := s.indents.head?.all (· < column)

/-- Opens a block collection here, if its column is further in. -/
def openBlock (s : Scanner) (t : Token) : Scanner :=
  if !s.inFlow && s.isInside s.mark.column then
    { s.enqueue t with indents := s.mark.column :: s.indents }
  else s

/-- Opens a block mapping before a key, if its column is further in. -/
def openBefore (s : Scanner) (k : PossibleKey) : Scanner :=
  if !s.inFlow && s.isInside k.mark.column then
    { s.insert k.number ⟨.blockMappingStart, k.mark⟩ with indents := k.mark.column :: s.indents }
  else s

/-- Closes the block collections further in than a column, or all of them. -/
def closeBlocks (s : Scanner) (column : Option Nat) : Scanner :=
  if s.inFlow then s
  else
    let closed := s.indents.takeWhile fun i => column.all (· < i)
    { s with
      queue := s.queue ++ closed.map fun _ => ⟨.blockEnd, s.mark⟩
      indents := s.indents.drop closed.length }

/-! ### Tokens -/

/-- Reads a token and puts it into the queue. -/
def read (s : Scanner) (reads : Reads Token) : Except Fault Scanner := do
  let (t, cursor) ← reads s.cursor
  return { s.enqueue t with cursor }

/-- Puts a token of `n` characters into the queue. -/
def take (s : Scanner) (n : Nat) (t : Token) : Scanner :=
  { s.enqueue t with cursor := s.cursor.skip n }

def readEnd (s : Scanner) : Except Fault Scanner := do
  let m := s.mark
  let m := if m.column = 0 then m else { m with line := m.line + 1, column := 0 }
  let s := { s with cursor := { s.cursor with mark := m } }.closeBlocks none
  return { (← s.dropKey) with keyAllowed := false }.enqueue .streamEnd

/-- Reads a token that ends all collections. -/
def readTopLevel (s : Scanner) (reads : Reads Token) : Except Fault Scanner := do
  read { (← (s.closeBlocks none).dropKey) with keyAllowed := false } reads

def openFlow (s : Scanner) (t : Token) : Except Fault Scanner := do
  let s ← s.saveKey
  return { s with keyAllowed := true, key := none, outerKeys := s.key :: s.outerKeys }.take 1 t

def closeFlow (s : Scanner) (t : Token) : Except Fault Scanner := do
  let s ← s.dropKey
  let s := match s.outerKeys with
    | [] => s
    | key :: outerKeys => { s with key, outerKeys }
  return { s with keyAllowed := false }.take 1 t

def readFlowEntry (s : Scanner) : Except Fault Scanner := do
  return { (← s.dropKey) with keyAllowed := true }.take 1 .flowEntry

def readBlockEntry (s : Scanner) : Except Fault Scanner := do
  if !s.inFlow && !s.keyAllowed then
    s.cursor.fail "block sequence entries are not allowed in this context" none
  else
    let s ← (s.openBlock .blockSequenceStart).dropKey
    return { s with keyAllowed := true }.take 1 .blockEntry

def readKey (s : Scanner) : Except Fault Scanner := do
  if !s.inFlow && !s.keyAllowed then
    s.cursor.fail "mapping keys are not allowed in this context" none
  else
    let s ← (s.openBlock .blockMappingStart).dropKey
    return { s with keyAllowed := !s.inFlow }.take 1 .key

def readValue (s : Scanner) : Except Fault Scanner := do
  match s.key with
  | some k =>
    let s := (s.insert k.number ⟨.key, k.mark⟩).openBefore k
    return { s with key := none, keyAllowed := false }.take 1 .value
  | none =>
    if !s.inFlow && !s.keyAllowed then
      s.cursor.fail "mapping values are not allowed in this context" none
    else
      let s := s.openBlock .blockMappingStart
      return { s with keyAllowed := !s.inFlow }.take 1 .value

/-- Reads a token with which a key may start. -/
def readKeyStart (s : Scanner) (reads : Reads Token) : Except Fault Scanner := do
  read { (← s.saveKey) with keyAllowed := false } reads

def readBlockScalar (s : Scanner) (literal : Bool) : Except Fault Scanner := do
  let s ← s.dropKey
  read { s with keyAllowed := true } (readBlock literal s.indents.head?)

def readPlainScalar (s : Scanner) : Except Fault Scanner := do
  let s := { (← s.saveKey) with keyAllowed := false }
  let indent := match s.indents with
    | [] => 0
    | i :: _ => i + 1
  let (p, cursor) ← readPlain s.inFlow indent s.cursor
  return { s.enqueue (.scalar .plain p.text) with cursor, keyAllowed := p.fold.broken }

/-- Passes over blanks, comments and line ends. The fuel exceeds the number of characters left. -/
def skipGap : Nat → Scanner → Scanner
  | 0, s => s
  | n + 1, s =>
    let c := s.cursor
    let c := if c.mark.column = 0 && c.next?.any isByteOrderMark then c.skip 1 else c
    let c := c.skipWhile fun a => a = ' ' || (s.inFlow || !s.keyAllowed) && a = '\t'
    let c := if c.is '#' then c.skipWhile (!isBreak ·) else c
    if c.next?.any isBreak then
      skipGap n { s with cursor := c.skipLine, keyAllowed := s.keyAllowed || !s.inFlow }
    else { s with cursor := c }

/-- Whether a plain scalar starts with `a` before `r`. -/
def startsPlain (flow : Bool) (a : Char) (r : Text) : Bool :=
  if a = '-' then !r.head?.any isSpace
  else if a = '?' ∨ a = ':' then !flow && !endsWord r
  else !(isSpace a || isBreak a || ",[]\x7b\x7d#&*!|>'\"%@`".toList.contains a)

/-- Reads the token that starts with `a`, which no indicator in the first column does. -/
def readAt (s : Scanner) (a : Char) (r : Text) : Except Fault Scanner :=
  let blank := endsWord r
  if a = '[' then s.openFlow .flowSequenceStart
  else if a = '\x7b' then s.openFlow .flowMappingStart
  else if a = ']' then s.closeFlow .flowSequenceEnd
  else if a = '\x7d' then s.closeFlow .flowMappingEnd
  else if a = ',' then s.readFlowEntry
  else if a = '-' ∧ blank then s.readBlockEntry
  else if a = '?' ∧ (s.inFlow ∨ blank) then s.readKey
  else if a = ':' ∧ (s.inFlow ∨ blank) then s.readValue
  else if a = '*' then s.readKeyStart readAlias
  else if a = '&' then s.readKeyStart readAnchor
  else if a = '!' then s.readKeyStart (readTag s.inFlow)
  else if a = '|' ∧ !s.inFlow then s.readBlockScalar true
  else if a = '>' ∧ !s.inFlow then s.readBlockScalar false
  else if a = '\'' then s.readKeyStart (readQuoted true)
  else if a = '"' then s.readKeyStart (readQuoted false)
  else if startsPlain s.inFlow a r then s.readPlainScalar
  else
    s.cursor.fail "found character that cannot start any token"
      (some ("while scanning for the next token", s.mark))

/-- Reads the next token. -/
def advance (s : Scanner) : Except Fault Scanner := do
  let s ← (skipGap (s.cursor.rest.length + 1) s).dropStaleKeys
  let s := s.closeBlocks (some s.mark.column)
  match s.cursor.rest with
  | [] => s.readEnd
  | a :: r =>
    if s.mark.column = 0 ∧ a = '%' then s.readTopLevel readDirective
    else if s.cursor.isIndicator '-' then s.readTopLevel fun c => .ok (.documentStart, c.skip 3)
    else if s.cursor.isIndicator '.' then s.readTopLevel fun c => .ok (.documentEnd, c.skip 3)
    else s.readAt a r

/-- Whether a key may start with the next token of the queue. -/
def awaitsKey (s : Scanner) : Bool :=
  (s.key :: s.outerKeys).any fun k => k.any (·.number = s.taken)

/-- Reads tokens until the next one is certain. The fuel exceeds the number of characters left. -/
def fill : Nat → Scanner → Except Fault Scanner
  | 0, s => .ok s
  | n + 1, s => do
    if s.queue.isEmpty then fill n (← s.advance)
    else
      let s ← s.dropStaleKeys
      if s.awaitsKey then fill n (← s.advance) else return s

/-- The next token, which stays in the queue. -/
def peek (s : Scanner) : Except Fault (Placed × Scanner) := do
  let s ← s.fill (s.cursor.rest.length + 2)
  return (s.queue.headD ⟨.streamEnd, s.mark⟩, s)

/-- Takes the next token from the queue. -/
def drop (s : Scanner) : Scanner := { s with queue := s.queue.drop 1, taken := s.taken + 1 }

end Scanner

end ServerSplit.Yaml
