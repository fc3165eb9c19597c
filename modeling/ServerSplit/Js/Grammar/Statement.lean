import ServerSplit.Js.Grammar.Expression

/-! Statements. A brace at the start of a statement opens a block or an object; the first thing behind
it and the way the text goes on decide which. -/
namespace ServerSplit.Js.Grammar

open Rule

/-- What follows the first operand of an expression statement, and the statement with it. -/
def statementTail : R :=
  wrap .expressionStatement 1
    (many (part (.continuation .ending 0)) ++ sequenceTail .ending ++ semicolon true)

/-- Operators that go on with an expression and start no statement. -/
def operatorOnly : R :=
  gap ⟨true, true⟩ ++ anyOf
    ([mark "." ++ absent (glued .number (Lexeme.run Char.isDigit)), optionalChain,
      step (.question true), comma, keyword "in", keyword "instanceof"] ++
      ["*", "%", "&", "|", "^", "&&", "||", "??", "==", "===", "!=", "!==", ">", ">=", "<=", "<<", ">>",
        ">>>", "**"].map operator)

/-- A declaration that was just read: a statement of its own, unless an operator follows. -/
def declarationEnd (tail : R) : R :=
  absent operatorOnly <|> (recast .expression ++ tail)

def isDeclaration (t : Tree) : Bool :=
  t.isKind (.function .declaration) || t.isKind (.function .generatorDeclaration) ||
    t.isKind .classDeclaration

/-- A function or class at the start of a statement; `tail` follows it where it is an expression. -/
def declarationOr (form tail : R) : R :=
  form ++ ((last isDeclaration ++ declarationEnd tail) <|> (last (!isDeclaration ·) ++ tail))

/-! ### Braces -/

/-- The rest of an object behind its first member. -/
def objectRest : R :=
  many (comma ++ opt (part .objectMember)) ++ mark "\x7d" ++ step (.finish .object)

/-- The rest of a block. -/
def blockRest (operator : Bool) : R :=
  many (part (.statement false)) ++ closingBrace operator ++ step (.finish .statementBlock)

/-- A name that opens a brace and is followed by parentheses. -/
def callStart : R :=
  mark "\x7b" ++ leadingName false ++ gap ⟨true, true⟩ ++ mark "("

/-- Braces that start with a name and parentheses: an object, if these are the head of a method, and
else a block. -/
def callFirst (operator : Bool) : R :=
  let method :=
    present (mark "\x7b") ++ wrap .cover 2 (body false) ++ recast .method ++ objectRest
  gap {} ++ step .opening ++ mark "\x7b" ++ leadingName false ++ part .arguments ++
    anyOf [gap ⟨true, true⟩ ++ method, wrap .call 2 empty ++ statementTail ++ blockRest operator,
      absent (gap ⟨true, true⟩) ++ method]

/-- A name that opens a brace and is assigned to. -/
def assignmentStart : R :=
  mark "\x7b" ++ leadingName false ++ gap ⟨true, true⟩ ++ operator "="

/-- What makes an object a pattern. -/
def patternEnd : R := present (gap ⟨true, true⟩ ++ operator "=")

/-- Braces that start with an assignment: a pattern with a default, if others follow and the pattern
itself is assigned to, and else a block. -/
def assignmentFirst (operator : Bool) : R :=
  gap {} ++ step .opening ++ mark "\x7b" ++ leadingName false ++ step (.adopt 1) ++
    gap ⟨true, true⟩ ++ mark "=" ++ expression .ending ++
    ((step (.finish .assignment) ++ statementTail ++ blockRest operator ++ absent patternEnd) <|>
      (present comma ++ step (.finish .coverInitializer) ++ objectRest ++ patternEnd))

def isMember : Tree → Bool
  | .leaf _ => false
  | .node k _ => k ≠ .coverInitializer

/-- Braces that can only be an object. What may be a statement is one, if a semicolon is inserted behind
it or what follows would be a comment behind a key. -/
def objectFirst : R :=
  let operandEnd :=
    step (.insertion true) <|> (gap ⟨true, true⟩ ++ (mark "<!--" <|> mark "-->"))
  let startsBlock :=
    (anyOf [anyName, part .string, number] ++ operandEnd) <|> (absent (leadingName false) ++ anyName)
  gap {} ++ step .opening ++ mark "\x7b" ++
    ((present (anyOf [comma, mark "...", mark "*"]) ++ opt (part .objectMember)) <|>
      (absent startsBlock ++ part .objectMember ++
        (last isMember <|> (last (·.isKind .coverInitializer) ++ present comma)))) ++
    objectRest ++ (last (!·.children.any (·.isKind .coverInitializer)) <|> patternEnd)

def block (operator : Bool) : R :=
  gap {} ++ step .opening ++ mark "\x7b" ++ blockRest operator

/-- Empty braces before an operator. -/
def emptyObject : R :=
  mark "\x7b" ++ mark "\x7d" ++ (operatorOnly <|> (gap ⟨true, true⟩ ++ operator "="))

/-- Braces around one name, behind which no semicolon is inserted. -/
def shorthandObject : R :=
  mark "\x7b" ++ leadingName false ++ gap ⟨true, true⟩ ++ mark "\x7d"

/-- `tail` behind an object, and nothing behind a block. -/
def decided (tail : R) : R :=
  (last (·.isKind .object) ++ tail) <|> last (·.isKind .statementBlock)

def bracesStatement : R :=
  anyOf [
    present callStart ++ callFirst false ++ decided statementTail,
    present assignmentStart ++ assignmentFirst false ++ decided statementTail,
    absent (callStart <|> assignmentStart) ++ anyOf [
      objectFirst ++ statementTail,
      present emptyObject ++ part .object ++ statementTail,
      absent emptyObject ++ anyOf [
        present shorthandObject ++ part .object ++ statementTail,
        present (mark "\x7b" ++ mark "\x7d") ++ body true,
        body false]]]

def arrowBody (c : Ctx) : R :=
  let goesOn := many (part (.continuation c 0))
  anyOf [
    present callStart ++ callFirst true ++ decided goesOn,
    present assignmentStart ++ assignmentFirst true ++ decided goesOn,
    present (mark "\x7b") ++ absent (callStart <|> assignmentStart) ++ anyOf [
      objectFirst ++ goesOn,
      present ((mark "\x7b" ++ mark "\x7d" ++ operator "=") <|> shorthandObject) ++ part .object ++
        goesOn,
      body true],
    absent (mark "\x7b") ++ expression c]

/-! ### Declarations of variables -/

def hasInitializer (t : Tree) : Bool := t.children.any (·.isMark ['='])

/-- The declared variables and the end of their declaration. -/
def declarators : R :=
  let ending := fun operator =>
    (gap ⟨true, operator⟩ ++ comma ++ part .declarators) <|> semicolon operator
  node .variableDeclarator
      (target ++ opt (gap ⟨true, false⟩ ++ mark "=" ++ expression .ending)) ++
    ((last hasInitializer ++ ending true) <|> (last (!hasInitializer ·) ++ ending false))

/-- The start of a declaration of variables. The word `let` starts one if no other name than the given
follows, behind a gap as given. -/
def startsVariables (g : Gap) (notNames : List String) : R :=
  anyOf [keyword "var", keyword "const",
    keyword "let" ++ gap g ++
      anyOf [read .name (Lexeme.nameExcept notNames), mark "[", mark "\x7b"]]

/-- A declaration of variables, where a value may stand as well. -/
def startsVariablesNotValue : R := startsVariables ⟨true, true⟩ ["in", "instanceof"]

def declaredVariables : R :=
  anyOf [
    node .variableDeclaration (keyword "var" ++ part .declarators),
    node .lexicalDeclaration ((keyword "const" <|> keyword "let") ++ part .declarators)]

/-! ### Loops -/

def loopBody : R := part (.statement false)

def empties : R := unit .emptyStatement ";"

/-- The head of a loop over the members of a value. -/
def forInHead : R :=
  let start : Bool → Nat → R → R := fun inserted level words =>
    part (.expression { semicolon := inserted, inHead := true } level) ++ gap ⟨inserted, true⟩ ++
      present words
  let ofVar : Bool → R := fun inserted =>
    keyword "var" ++ target ++
      ((gap ⟨inserted, false⟩ ++ mark "=" ++
          (start inserted headLevel (keyword "in" <|> keyword "of") <|>
            start inserted 0 (keyword "of"))) <|>
        gap ⟨inserted, false⟩)
  let letBound :=
    keyword "let" ++ gap ⟨false, true⟩ ++
      (read .name (Lexeme.nameExcept ["in", "of", "instanceof"]) <|>
        ((part .object <|> part .array) ++ recast .pattern))
  let others :=
    anyOf [
      (keyword "const" ++ target <|> letBound) ++ optionalSemicolon,
      absent (keyword "var" <|> keyword "const") ++ part (.expression {} 14) ++ last isAssignable ++
        ((last isFilledArray ++ recast .assigned ++ gap {}) <|>
          (recast .assigned ++ gap ⟨false, true⟩))]
  ((keyword "await" ++ mark "(" ++ (ofVar false <|> others)) <|>
      (mark "(" ++ (ofVar true <|> others))) ++
    (keyword "in" <|> keyword "of") ++ enclosed ++ mark ")"

/-- The head of a loop with a start, a condition and a step. -/
def forHead : R :=
  mark "(" ++
    anyOf [present (startsVariables ⟨false, true⟩ ["in", "instanceof", "of"]) ++ declaredVariables,
      absent (keyword "var" <|> keyword "const") ++ enclosed ++ mark ";", empties] ++
    ((enclosed ++ mark ";") <|> empties) ++ opt enclosed ++ mark ")"

def forStatement : R :=
  gap {} ++ step .opening ++ keyword "for" ++
    ((forInHead ++ loopBody ++ step (.finish .forInStatement)) <|>
      (forHead ++ loopBody ++ step (.finish .forStatement)))

/-! ### Statements with a keyword -/

def ifStatement : R :=
  node .ifStatement
    (keyword "if" ++ part .parenthesized ++ loopBody ++
      optThen (keyword "else") (part (.statement false)))

def switchStatement : R :=
  let statements := many (part (.statement true))
  let case := node .switchCase (keyword "case" ++ enclosed ++ mark ":" ++ statements)
  let default := node .switchDefault (keyword "default" ++ mark ":" ++ statements)
  node .switchStatement
    (keyword "switch" ++ part .parenthesized ++
      node .switchBody (mark "\x7b" ++ many (case <|> default) ++ mark "\x7d"))

def doStatement : R :=
  node .doStatement
    (keyword "do" ++ loopBody ++ keyword "while" ++ part .parenthesized ++
      (semicolon false <|> step (.closing false)))

def tryStatement : R :=
  let parameter := mark "(" ++ target ++ mark ")"
  node .tryStatement
    (keyword "try" ++ body false ++
      optThen (keyword "catch") (opt parameter ++ body false) ++
      optThen (keyword "finally") (body false))

/-- A statement that leaves, perhaps to a label. -/
def jump (k : Kind) (s : String) : R :=
  node k (keyword s ++ (semicolon false <|> (gap ⟨true, false⟩ ++ anyName ++ semicolon false)))

def returnStatement : R :=
  node .returnStatement
    (keyword "return" ++
      (semicolon false <|>
        (gap ⟨true, false⟩ ++ part (.expressions .ending) ++ semicolon true)))

def throwStatement : R :=
  node .throwStatement (keyword "throw" ++ part (.expressions .ending) ++ semicolon true)

/-- The statements with the words that start them. -/
def keywordStatements : List (String × R) :=
  [("if", ifStatement), ("for", forStatement), ("return", returnStatement),
   ("switch", switchStatement), ("do", doStatement), ("try", tryStatement), ("throw", throwStatement),
   ("while", node .whileStatement (keyword "while" ++ part .parenthesized ++ loopBody)),
   ("with", node .withStatement (keyword "with" ++ part .parenthesized ++ loopBody)),
   ("break", jump .breakStatement "break"), ("continue", jump .continueStatement "continue"),
   ("debugger", node .debuggerStatement (keyword "debugger" ++ semicolon false))]

/-! ### Other statements -/

def expressionStatement : R :=
  node .expressionStatement (part (.expressions .ending) ++ semicolon true)

def labeledStatement (inCase : Bool) : R :=
  node .labeledStatement
    (leadingName inCase ++ gap ⟨true, true⟩ ++ mark ":" ++ part (.statement false))

/-- A function, perhaps asynchronous; the gap behind `async` is as given. -/
def startsFunction (g : Gap) : R :=
  keyword "function" <|> (keyword "async" ++ gap g ++ keyword "function")

end ServerSplit.Js.Grammar
