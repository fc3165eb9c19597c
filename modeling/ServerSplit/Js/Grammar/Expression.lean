import ServerSplit.Js.Grammar.Basic

/-! Expressions: operands, and what may go on with them. -/
namespace ServerSplit.Js.Grammar

open Rule

/-- The parts of an expression that stand for themselves. -/
def isPrimary : Tree → Bool
  | .leaf t => [Leaf.name, .constant, .number].contains t.kind
  | .node (.function _) _ => true
  | .node k _ =>
    [Kind.subscript, .member, .parenthesized, .string, .templateString, .regex, .object, .array,
      .classExpression, .metaProperty, .call].contains k

def isConstructor (t : Tree) : Bool := isPrimary t || t.isKind .newExpression

/-- What an operator with an assignment may change. -/
def isPlace : Tree → Bool
  | .leaf t => t.kind = .name
  | .node k _ => [Kind.member, .subscript, .parenthesized].contains k

/-- What may be assigned to. -/
def isAssignable : Tree → Bool
  | .leaf t => Recast.isTargetWord t
  | .node k _ => [Kind.member, .subscript, .parenthesized, .object, .array].contains k

/-- An array that is read as a pattern besides, with the gaps of a pattern. -/
def isFilledArray (t : Tree) : Bool :=
  t.isKind .array && 2 < (t.children.filter (!·.isComment)).length

/-- The level of the operator `in`, at which the start of a loop ends before it. -/
def headLevel : Nat := 8

/-- The binary operators with the levels of the operators themselves and of what stands behind them. -/
def binaryLevels : List (Nat × Nat × List String) :=
  [(1, 2, ["??"]), (2, 3, ["||"]), (3, 4, ["&&"]), (4, 5, ["|"]), (5, 6, ["^"]), (6, 7, ["&"]),
   (7, 8, ["==", "===", "!=", "!=="]), (8, 9, ["<", "<=", ">", ">="]), (9, 10, ["<<", ">>", ">>>"]),
   (10, 11, ["+", "-"]), (11, 12, ["*", "/", "%"]), (12, 12, ["**"])]

def assignmentOperators : List String :=
  ["+=", "-=", "*=", "/=", "%=", "^=", "&=", "|=", ">>=", ">>>=", "<<=", "**=", "&&=", "||=", "??="]

/-- The level of what may stand behind `new`: no operator but access. -/
def constructorLevel : Nat := 17

/-- More than the level of any operand. -/
def closedLevel : Nat := 18

/-- The level of the operand that ends an expression. What binds as tightly as that belongs to the
operand, and not to the whole. -/
def endLevel : Tree → Nat
  | .leaf _ => closedLevel
  | .node k ts =>
    let ts := ts.filter (!·.isComment)
    let ends := fun (p : Tree → Bool) (n : Nat) => if ts.getLast?.any p then closedLevel else n
    match k with
    | .assignment | .augmentedAssignment => 0
    | .function .arrow => ends (·.isKind .statementBlock) 0
    | .yieldExpression => ends (·.isLeaf .mark) 0
    | .ternary => 1
    | .binary =>
      let ofOperator := fun (l : Nat × Nat × List String) => l.2.2.any fun op => ts.any (·.isMark op.toList)
      ((binaryLevels.find? ofOperator).map (·.2.1)).getD (headLevel + 1)
    | .unary | .awaitExpression => 13
    | .update => ends (·.isLeaf .mark) 15
    | .newExpression => ends (fun t => t.isKind .arguments || t.isKind .newExpression) constructorLevel
    | _ => closedLevel

def memberAccess (dot : R) : R := wrap .member 1 (dot ++ (privateName <|> anyName))

def index : R := mark "[" ++ enclosed ++ mark "]"

def optionalChain : R := read .optionalChain Lexeme.chain

/-- What follows a value and takes a part of it or calls it. -/
def access (c : Ctx) : List R :=
  let whole := if c.noCall then last (!·.isKind .newExpression) else empty
  [whole ++ memberAccess (mark "."),
   whole ++ wrap .subscript 1 index,
   present optionalChain ++ anyOf [
     whole ++ memberAccess optionalChain,
     whole ++ wrap .subscript 1 (optionalChain ++ index),
     last isPrimary ++ wrap .call 1 (optionalChain ++ part .arguments)],
   last isConstructor ++ wrap .call 1 (part .template)] ++
  if c.noCall then [] else [wrap .call 1 (part .arguments)]

/-- What goes on with the whole of an expression whose end binds more tightly than `level`. -/
def behind (level : Nat) (a : R) : R := last (level < endLevel ·) ++ a

def assignment (c : Ctx) : R :=
  last isAssignable ++ recast .assigned ++ wrap .assignment 1 (operator "=" ++ expression c)

def assignments (c : Ctx) : List R :=
  [present (operator "=") ++ assignment c,
   last isPlace ++
     wrap .augmentedAssignment 1 (anyOf (assignmentOperators.map operator) ++ expression c)]

def binary (c : Ctx) (level : Nat) : List R :=
  let word := fun s => wrap .binary 1 (keyword s ++ part (.expression c (headLevel + 1)))
  let words := [behind headLevel (word "instanceof"),
    if c.inHead then
      if level = headLevel then absent empty else behind (headLevel - 1) (word "in")
    else behind headLevel (word "in")]
  (binaryLevels.filter (level ≤ ·.1)).map (fun (here, next, ops) =>
    behind here (wrap .binary 1 (anyOf (ops.map operator) ++ part (.expression c next)))) ++
  if level ≤ headLevel then words else []

def ternary (c : Ctx) : R :=
  wrap .ternary 1
    (step (.question c.semicolon) ++ expression {} ++ mark ":" ++ part (.expression c 1))

/-- What goes on with an expression. -/
def continuation (c : Ctx) (level : Nat) : R :=
  let pattern := last isFilledArray ++ gap {} ++ present (operator "=")
  (pattern ++ assignment c) <|>
  (absent pattern ++ gap c.gap ++ anyOf (
    behind constructorLevel (anyOf (access c)) ::
    (if level < constructorLevel then assignments c else []) ++
    (if level ≤ 14 then [behind 14 (wrap .update 1 (operator "++" <|> operator "--"))] else []) ++
    (if level ≤ 1 then [behind 1 (ternary c)] else []) ++
    binary c level))

def expressionFrom (c : Ctx) (level : Nat) : R :=
  part (.operand c) ++ many (part (.continuation c level))

/-- What makes an expression the first of several. -/
def sequenceTail (c : Ctx) : R :=
  opt (gap c.gap ++
    wrap .sequence 1 (comma ++ expression c ++ many (gap c.gap ++ comma ++ expression c)))

def expressions (c : Ctx) : R := expression c ++ sequenceTail c

/-! ### Operands -/

/-- The arrow behind parameters. Where what is before it is an operand as well, the gap is one before an
operator. -/
def arrow (g : Gap) : R := gap g ++ operator "=>"

/-- The rest of an arrow function behind its parameters. -/
def arrowEnd (c : Ctx) (g : Gap) : R := arrow g ++ part (.arrowBody { c with noCall := false })

/-- The rest of an arrow function whose parameters may be an operand, and are none if the gap before the
arrow is read otherwise. -/
def arrowTail (c : Ctx) (n : Nat) : R :=
  let tail := fun g => present (arrow g) ++ recast .parameters ++ wrap (.function .arrow) n (arrowEnd c g)
  tail c.gap <|> (absent (arrow c.gap) ++ tail {})

/-- A parenthesized expression, or the parameters of an arrow function. -/
def parenthesizedOrArrow (c : Ctx) : R :=
  node .cover (mark "(" ++ separated comma (spread <|> expression {}) ++ mark ")") ++
    (arrowTail c 1 <|> recast .parenthesized)

/-- What makes a name the only parameter of an arrow function. -/
def nameTail (c : Ctx) : R :=
  opt (present (arrow c.gap) ++ wrap .parameters 1 empty ++
    wrap (.function .arrow) 1 (arrowEnd c c.gap))

/-- What starts with the word `async`. -/
def asyncOperand (c : Ctx) : R :=
  let async := read .name (Lexeme.word "async")
  anyOf [
    present (keyword "async" ++ gap c.gap ++ keyword "function") ++ part (.functionForm .operand),
    node (.function .arrow)
      (keyword "async" ++ gap c.gap ++ read .name (Lexeme.nameExcept ["in", "instanceof"]) ++
        arrowEnd c {}),
    async ++ present (gap c.gap ++ mark "(") ++ gap c.gap ++
      part .arguments ++ (arrowTail c 2 <|> wrap .call 2 empty),
    async ++ absent (gap c.gap ++ mark "(") ++ nameTail c]

def newOperand (c : Ctx) : R :=
  let inner := { c with noCall := true }
  node .metaProperty (keyword "new" ++ mark "." ++ keyword "target") <|>
  node .newExpression
    (keyword "new" ++ part (.expression inner constructorLevel) ++ last isConstructor ++
      opt (gap c.gap ++ part .arguments))

def importOperand : R :=
  node .metaProperty (keyword "import" ++ mark "." ++ keyword "meta") <|>
  (constant "import" ++
    ((present (mark "(") ++ wrap .call 1 (part .arguments)) <|>
      (present optionalChain ++ memberAccess optionalChain)))

/-- What starts an operand rather than goes on with what is before it. -/
def operandStart (c : Ctx) : R :=
  anyOf (["(", "[", "\x7b", "`", "\"", "'", "@", "#", "/"].map mark ++
    ["*", "+", "-", "++", "--", "!", "~", "<"].map operator ++
    [number, read .name (Lexeme.nameExcept
      (["in", "instanceof"] ++ if c.inHead then ["of"] else []))])

def yieldOperand (c : Ctx) : R :=
  let start := gap c.gap ++ operandStart c
  node .yieldExpression
    (keyword "yield" ++
      ((present start ++ gap c.gap ++ opt (operator "*") ++ expression c) <|> absent start))

/-- A regular expression. Comments may stand before each of its pieces; before its pattern, a comment
behind blanks is one, and before its end, none starts with the slash that ends it. -/
def regex (c : Ctx) : R :=
  let slash : R := glued .mark (Lexeme.exactly ['/'])
  let comments : Gap → R := fun g => many (step (.comment g))
  node .regex
    (mark "/" ++ comments .inLiteral ++ glued .regexPattern Lexeme.regexPattern ++
      many (absent slash ++ step (.comment {})) ++ slash ++
      opt (comments c.gap ++ glued .regexFlags Lexeme.regexFlags))

def unaryOperators : List R :=
  ["!", "~", "-", "+"].map operator ++ ["typeof", "void", "delete"].map keyword

def nameOperand (c : Ctx) : R :=
  read .name (Lexeme.nameExcept ("async" :: reservedWords)) ++ nameTail c

def operand (c : Ctx) : R :=
  let tight := { c with noCall := false }
  gap {} ++ anyOf [
    nameOperand c,
    anyOf (["this", "super", "true", "false", "null", "undefined"].map constant),
    part .string,
    number,
    parenthesizedOrArrow c,
    part .object,
    part .array,
    part .template,
    regex c,
    present (keyword "async") ++ asyncOperand c,
    present (keyword "function") ++ part (.functionForm .operand),
    present (keyword "class" <|> mark "@") ++ part (.classForm .operand),
    present (keyword "new") ++ newOperand tight,
    present (keyword "import") ++ importOperand,
    node .unary (anyOf unaryOperators ++ part (.expression tight 13)),
    node .update ((operator "++" <|> operator "--") ++ part (.expression tight 15)),
    node .awaitExpression (keyword "await" ++ part (.expression tight 13)),
    yieldOperand tight,
    present (mark "<") ++ part .element,
    privateName ++ wrap .binary 1 (keyword "in" ++ part (.expression tight 9))]

/-! ### Literals -/

def object : R :=
  node .object (mark "\x7b" ++ separated comma (part .objectMember) ++ mark "\x7d")

/-- The rest of a method behind its name, which is the tree before. -/
def method : R := wrap (.function .method) 1 (parameters ++ body false)

def pair : R := wrap .pair 1 (mark ":" ++ (spread <|> expression {}))

def staticGet : R := read .mark Lexeme.staticGet

/-- The words before the name of a method of an object. -/
def methodHead : R :=
  anyOf [
    staticGet ++ opt (methodModifiers false),
    absent staticGet ++ modifier false "static" ++ opt (methodModifiers false),
    methodModifiers false]

/-- A method of an object with more than a name before its parameters. -/
def markedMethod : R :=
  node (.function .method)
    (many (part .decorator) ++ opt methodHead ++ memberName ++ parameters ++ body false)

def objectMember : R :=
  anyOf [
    spread,
    present (mark "@" <|> methodHead) ++ markedMethod,
    memberName ++ anyOf [
      present (mark "(") ++ method,
      present (mark ":") ++ pair,
      last (·.isLeaf .name) ++
        opt (wrap .coverInitializer 1 (mark "=" ++ expression {}))],
    (part .array <|> part .object) ++ recast .pattern ++
      wrap .coverInitializer 1 (mark "=" ++ expression {})]

def array : R :=
  node .array (mark "[" ++ separated comma (spread <|> expression {}) ++ mark "]")

def arguments : R :=
  node .arguments (mark "(" ++ separated comma (spread <|> expression {}) ++ mark ")")

def template : R :=
  node .templateString
    (mark "`" ++
      many (anyOf [
        glued .stringFragment Lexeme.templateText,
        glued .escapeSequence Lexeme.escapeSequence,
        present (glued .mark (Lexeme.exactly ['$', '\x7b'])) ++
          node .templateSubstitution (mark "$\x7b" ++ enclosed ++ mark "\x7d")]) ++
      glued .mark (Lexeme.exactly ['`']))

def string : R :=
  let quoted : Char → R := fun q =>
    let quote := Lexeme.exactly [q]
    node .string
      (read .mark quote ++
        many (anyOf [
          glued .stringFragment (Lexeme.stringFragment q),
          glued .escapeSequence Lexeme.escapeSequence,
          step (.comment .inLiteral)]) ++
        gap .inLiteral ++ read .mark quote)
  quoted '"' <|> quoted '\''

def parenthesized : R := node .parenthesized (mark "(" ++ enclosed ++ mark ")")

end ServerSplit.Js.Grammar
