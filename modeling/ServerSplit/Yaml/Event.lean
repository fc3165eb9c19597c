import ServerSplit.Yaml.Scanner

/-! The events of a text of YAML: documents, collections and scalars in the order in which they start and
end. -/
namespace ServerSplit.Yaml

/-- A scalar with its tag, if it has one. -/
structure Scalar where
  text : Text
  style : Style := .plain
  tag : Option Text := none
  deriving Repr, DecidableEq

inductive Event
  | documentStart
  | documentEnd
  | streamEnd
  | alias (name : Text)
  | scalar (s : Scalar) (anchor : Option Text)
  | sequenceStart (tag anchor : Option Text)
  | sequenceEnd
  | mappingStart (tag anchor : Option Text)
  | mappingEnd
  deriving Repr, DecidableEq

/-- What is expected next. -/
inductive State
  | firstDocument
  | document
  | documentContent
  | documentEnd
  | blockNode
  | blockEntry
  /-- An entry of a sequence that is a value of a mapping in the same column. -/
  | indentlessEntry
  | blockKey
  | blockValue
  /-- An entry of a sequence in brackets. -/
  | flowEntry (first : Bool)
  | pairKey
  | pairValue
  | pairEnd
  | flowKey (first : Bool)
  | flowValue
  | flowValueMissing
  | finished
  deriving Repr, DecidableEq

structure Parser where
  scanner : Scanner
  state : State := .firstDocument
  /-- What is expected behind the open nodes, innermost first. -/
  states : List State := []
  /-- Where the open collections start, innermost first. -/
  marks : List Mark := []
  /-- What the handles of tags stand for. -/
  handles : List (Text × Text) := []

/-- A step of the parser. -/
abbrev Parses (α : Type) := StateT Parser (Except Fault) α

/-- An event and the place where it starts. -/
abbrev Happening := Event × Mark

namespace Parser

def ofText (t : Text) : Parser := { scanner := .ofText t }

def fail {α : Type} (problem : String) (mark : Mark) (context : Option (String × Mark) := none) :
    Parses α :=
  throw { problem, mark, context }

def peek : Parses Placed := do
  let p ← get
  let (t, scanner) ← p.scanner.peek
  set { p with scanner }
  return t

def drop : Parses Unit := modify fun p => { p with scanner := p.scanner.drop }

/-- Takes the next token and looks at the one behind it. -/
def dropPeek : Parses Placed := do
  drop
  peek

def goto (state : State) : Parses Unit := modify fun p => { p with state }

/-- Notes what is expected behind a node. -/
def push (state : State) : Parses Unit := modify fun p => { p with states := state :: p.states }

def pop : Parses Unit :=
  modify fun p => { p with state := p.states.headD .finished, states := p.states.drop 1 }

def openMark (m : Mark) : Parses Unit := modify fun p => { p with marks := m :: p.marks }

def closeMark : Parses Mark := do
  let p ← get
  set { p with marks := p.marks.drop 1 }
  return p.marks.headD {}

/-- A scalar without text. -/
def empty (m : Mark) : Parses Happening := return (.scalar { text := [] } none, m)

/-! ### Nodes -/

/-- The tag that a handle and the rest of a tag stand for. -/
def expand (start tagMark : Mark) (handle suffix : Text) : Parses Text := do
  if handle.isEmpty then return suffix
  else match (← get).handles.lookup handle with
    | some stem => return stem ++ suffix
    | none => fail "found undefined tag handle" tagMark (some ("while parsing a node", start))

/-- The anchor and the tag of a node, in any order. -/
def properties (start : Mark) : Parses (Option Text × Option Text) := do
  let t ← peek
  match t.token with
  | .anchor name =>
    let u ← dropPeek
    match u.token with
    | .tag handle suffix =>
      let _ ← dropPeek
      return (some name, some (← expand start u.mark handle suffix))
    | _ => return (some name, none)
  | .tag handle suffix =>
    let u ← dropPeek
    match u.token with
    | .anchor name =>
      let _ ← dropPeek
      return (some name, some (← expand start t.mark handle suffix))
    | _ => return (none, some (← expand start t.mark handle suffix))
  | _ => return (none, none)

/-- Opens a collection, of which the first entry is expected. -/
def openWith (state : State) (e : Event) (start : Mark) : Parses Happening := do
  let t ← peek
  openMark t.mark
  drop
  goto state
  return (e, start)

/-- A node; `block` tells whether block collections may stand here, and `indentless` whether a
sequence may stand in the column of the mapping around it. -/
def node (block indentless : Bool) : Parses Happening := do
  let t ← peek
  let start := t.mark
  match t.token with
  | .alias name =>
    pop
    drop
    return (.alias name, start)
  | _ =>
    let (anchor, tag) ← properties start
    let t ← peek
    match t.token, block with
    | .scalar style text, _ =>
      pop
      drop
      return (.scalar { text, style, tag := if tag = some ['!'] then none else tag } anchor, start)
    | .flowSequenceStart, _ => openWith (.flowEntry true) (.sequenceStart tag anchor) start
    | .flowMappingStart, _ => openWith (.flowKey true) (.mappingStart tag anchor) start
    | .blockSequenceStart, true => openWith .blockEntry (.sequenceStart tag anchor) start
    | .blockMappingStart, true => openWith .blockKey (.mappingStart tag anchor) start
    | token, _ =>
      if indentless ∧ token = .blockEntry then
        goto .indentlessEntry
        return (.sequenceStart tag anchor, start)
      else if anchor.isSome ∨ tag.isSome then
        pop
        return (.scalar { text := [], tag } anchor, start)
      else
        fail "did not find expected node content" t.mark
          (some (if block then "while parsing a block node" else "while parsing a flow node", start))

/-- A node, behind which `state` is expected, or an empty scalar if a token follows that ends it. -/
def nodeUnless (ends : Token → Bool) (state : State) (block indentless : Bool) (m : Mark) :
    Parses Happening := do
  let t ← peek
  if ends t.token then
    goto state
    empty m
  else
    push state
    node block indentless

/-- Ends a collection with its last token. -/
def close (e : Event) (m : Mark) : Parses Happening := do
  let _ ← closeMark
  pop
  drop
  return (e, m)

/-! ### Documents -/

def defaultHandles : List (Text × Text) := [(['!'], ['!']), (['!', '!'], "tag:yaml.org,2002:".toList)]

/-- The directives before a document. The fuel exceeds their number. -/
def directives : Nat → Bool → Parses Unit
  | 0, _ => pure ()
  | n + 1, versioned => do
    let t ← peek
    match t.token with
    | .version major minor =>
      if versioned then fail "found duplicate %YAML directive" t.mark
      else if major ≠ 1 ∨ (minor ≠ 1 ∧ minor ≠ 2) then fail "found incompatible YAML document" t.mark
      else
        drop
        directives n true
    | .tagPrefix handle stem =>
      if ((← get).handles.lookup handle).isSome then fail "found duplicate %TAG directive" t.mark
      else
        modify fun p => { p with handles := p.handles ++ [(handle, stem)] }
        drop
        directives n versioned
    | _ => modify fun p => { p with handles := p.handles ++ defaultHandles }

def allDirectives : Parses Unit := do directives ((← get).scanner.cursor.rest.length + 2) false

/-- Passes over ends of documents. The fuel exceeds their number. -/
def skipEnds : Nat → Parses Unit
  | 0 => pure ()
  | n + 1 => do
    if (← peek).token = .documentEnd then
      drop
      skipEnds n

/-- The start of a document that says so, or the end of all. -/
def explicitDocument : Parses Happening := do
  let t ← peek
  if t.token = .streamEnd then
    goto .finished
    drop
    return (.streamEnd, t.mark)
  else
    allDirectives
    let u ← peek
    if u.token ≠ .documentStart then fail "did not find expected <document start>" u.mark
    else
      push .documentEnd
      goto .documentContent
      drop
      return (.documentStart, t.mark)

def firstDocument : Parses Happening := do
  let t ← peek
  match t.token with
  | .version .. | .tagPrefix .. | .documentStart | .streamEnd => explicitDocument
  | _ =>
    allDirectives
    push .documentEnd
    goto .blockNode
    return (.documentStart, t.mark)

def document : Parses Happening := do
  skipEnds ((← get).scanner.cursor.rest.length + 2)
  explicitDocument

def documentContent : Parses Happening := do
  let t ← peek
  match t.token with
  | .version .. | .tagPrefix .. | .documentStart | .documentEnd | .streamEnd =>
    pop
    empty t.mark
  | _ => node true false

def documentEnd : Parses Happening := do
  let t ← peek
  if t.token = .documentEnd then drop
  modify fun p => { p with handles := [], state := .document }
  return (.documentEnd, t.mark)

/-! ### Block collections -/

def blockEntry : Parses Happening := do
  let t ← peek
  match t.token with
  | .blockEntry =>
    drop
    nodeUnless (fun u => u = .blockEntry || u = .blockEnd) .blockEntry true false t.behind
  | .blockEnd => close .sequenceEnd t.mark
  | _ =>
    fail "did not find expected '-' indicator" t.mark
      (some ("while parsing a block collection", ← closeMark))

def indentlessEntry : Parses Happening := do
  let t ← peek
  if t.token = .blockEntry then
    drop
    nodeUnless (fun u => u = .blockEntry || u = .key || u = .value || u = .blockEnd) .indentlessEntry
      true false t.behind
  else
    pop
    return (.sequenceEnd, t.mark)

def endsPair (t : Token) : Bool := t = .key || t = .value || t = .blockEnd

def blockKey : Parses Happening := do
  let t ← peek
  match t.token with
  | .key =>
    drop
    nodeUnless endsPair .blockValue true true t.behind
  | .blockEnd => close .mappingEnd t.mark
  | _ =>
    fail "did not find expected key" t.mark (some ("while parsing a block mapping", ← closeMark))

def blockValue : Parses Happening := do
  let t ← peek
  if t.token = .value then
    drop
    nodeUnless endsPair .blockKey true true t.behind
  else
    goto .blockKey
    empty t.mark

/-! ### Flow collections -/

/-- The comma before every entry but the first, if the collection does not end here. -/
def comma (first : Bool) (last : Token) (problem doing : String) : Parses Unit := do
  let t ← peek
  if t.token ≠ last ∧ !first then
    if t.token = .flowEntry then drop
    else fail problem t.mark (some (doing, ← closeMark))

def flowEntry (first : Bool) : Parses Happening := do
  comma first .flowSequenceEnd "did not find expected ',' or ']'" "while parsing a flow sequence"
  let t ← peek
  match t.token with
  | .flowSequenceEnd => close .sequenceEnd t.mark
  | .key =>
    goto .pairKey
    drop
    return (.mappingStart none none, t.mark)
  | _ =>
    push (.flowEntry false)
    node false false

def endsEntry (t : Token) : Bool := t = .flowEntry || t = .flowSequenceEnd

def pairKey : Parses Happening := do
  let t ← peek
  if t.token = .value ∨ endsEntry t.token then
    drop
    goto .pairValue
    empty t.behind
  else
    push .pairValue
    node false false

def pairValue : Parses Happening := do
  if (← peek).token = .value then
    let t ← dropPeek
    nodeUnless endsEntry .pairEnd false false t.mark
  else
    goto .pairEnd
    empty (← peek).mark

def pairEnd : Parses Happening := do
  goto (.flowEntry false)
  return (.mappingEnd, (← peek).mark)

def endsMember (t : Token) : Bool := t = .flowEntry || t = .flowMappingEnd

def flowKey (first : Bool) : Parses Happening := do
  comma first .flowMappingEnd "did not find expected ',' or '\x7d'" "while parsing a flow mapping"
  let t ← peek
  match t.token with
  | .flowMappingEnd => close .mappingEnd t.mark
  | .key =>
    let u ← dropPeek
    nodeUnless (fun v => v = .value || endsMember v) .flowValue false false u.mark
  | _ =>
    push .flowValueMissing
    node false false

def flowValue : Parses Happening := do
  if (← peek).token = .value then
    let t ← dropPeek
    nodeUnless endsMember (.flowKey false) false false t.mark
  else
    goto (.flowKey false)
    empty (← peek).mark

/-- The next event. -/
def step : Parses Happening := do
  match (← get).state with
  | .firstDocument => firstDocument
  | .document => document
  | .documentContent => documentContent
  | .documentEnd => documentEnd
  | .blockNode => node true false
  | .blockEntry => blockEntry
  | .indentlessEntry => indentlessEntry
  | .blockKey => blockKey
  | .blockValue => blockValue
  | .flowEntry first => flowEntry first
  | .pairKey => pairKey
  | .pairValue => pairValue
  | .pairEnd => pairEnd
  | .flowKey first => flowKey first
  | .flowValue => flowValue
  | .flowValueMissing =>
    goto (.flowKey false)
    empty (← peek).mark
  | .finished => return (.streamEnd, (← get).scanner.mark)

end Parser

end ServerSplit.Yaml
