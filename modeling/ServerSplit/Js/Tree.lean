import ServerSplit.Text.Basic

/-! Concrete syntax trees of JavaScript. A tree keeps every token and comment of its source with the
blanks before it, so the text of a tree is the text that was read. -/
namespace ServerSplit.Js

/-- The ways to write a function. -/
inductive FunctionKind
  | declaration
  | generatorDeclaration
  | expression
  | generator
  | arrow
  | method
  deriving Repr, DecidableEq

/-- The name of a kind of function in messages and listings. -/
def FunctionKind.label : FunctionKind → String
  | .declaration => "function_declaration"
  | .generatorDeclaration => "generator_function_declaration"
  | .expression => "function_expression"
  | .generator => "generator_function"
  | .arrow => "arrow_function"
  | .method => "method_definition"

/-- The kinds of tokens. A `mark` is punctuation or a keyword, a `constant` one of the words that
stand for a value, as `this`. -/
inductive Leaf
  | mark
  | comment
  | markupComment
  | hashBang
  | name
  | privateName
  | constant
  | number
  | stringFragment
  | escapeSequence
  | regexPattern
  | regexFlags
  | markupText
  | entity
  | optionalChain
  deriving Repr, DecidableEq

/-- The kinds of inner nodes. `coverInitializer` is `name = value` inside braces that may still turn
out to be a pattern; `cover` is a parenthesized list that may still turn out to be parameters. -/
inductive Kind
  | program
  | exportStatement
  | namespaceExport
  | exportClause
  | exportSpecifier
  | importStatement
  | importClause
  | namespaceImport
  | namedImports
  | importSpecifier
  | importAttribute
  | expressionStatement
  | variableDeclaration
  | lexicalDeclaration
  | variableDeclarator
  | statementBlock
  | ifStatement
  | switchStatement
  | switchBody
  | switchCase
  | switchDefault
  | forStatement
  | forInStatement
  | whileStatement
  | doStatement
  | tryStatement
  | withStatement
  | breakStatement
  | continueStatement
  | debuggerStatement
  | returnStatement
  | throwStatement
  | emptyStatement
  | labeledStatement
  | parenthesized
  | sequence
  | yieldExpression
  | object
  | objectPattern
  | assignmentPattern
  | objectAssignmentPattern
  | array
  | arrayPattern
  | markupElement
  | markupOpening
  | markupClosing
  | markupSelfClosing
  | markupExpression
  | markupAttribute
  | markupNamespace
  | classExpression
  | classDeclaration
  | classHeritage
  | classBody
  | fieldDefinition
  | staticBlock
  | function (k : FunctionKind)
  | parameters
  | call
  | newExpression
  | awaitExpression
  | member
  | subscript
  | assignment
  | augmentedAssignment
  | spread
  | ternary
  | binary
  | unary
  | update
  | string
  | templateString
  | templateSubstitution
  | regex
  | metaProperty
  | arguments
  | decorator
  | restPattern
  | pair
  | pairPattern
  | computedName
  | coverInitializer
  | cover
  deriving Repr, DecidableEq

/-- A token with the blanks before it and the byte at which it starts. -/
structure Token where
  kind : Leaf
  before : Text
  text : Text
  start : Nat
  deriving Repr, DecidableEq

def Token.stop (t : Token) : Nat := t.start + t.text.size

/-- Punctuation and keywords have no name of their own. -/
def Token.isNamed (t : Token) : Bool := t.kind ≠ .mark

inductive Tree
  | leaf (token : Token)
  | node (kind : Kind) (children : List Tree)
  deriving Repr

namespace Tree

def children : Tree → List Tree
  | .leaf _ => []
  | .node _ ts => ts

def isNamed : Tree → Bool
  | .leaf t => t.isNamed
  | .node _ _ => true

def isKind (k : Kind) : Tree → Bool
  | .leaf _ => false
  | .node k' _ => k' = k

def isLeaf (l : Leaf) : Tree → Bool
  | .leaf t => t.kind = l
  | .node _ _ => false

/-- Whether the tree is the punctuation or keyword `s`. -/
def isMark (s : Text) : Tree → Bool
  | .leaf t => t.kind = .mark && t.text = s
  | .node _ _ => false

def isComment (t : Tree) : Bool := t.isLeaf .comment || t.isLeaf .markupComment

def functionKind? : Tree → Option FunctionKind
  | .node (.function k) _ => some k
  | _ => none

mutual

/-- The tokens of the tree in the order of the source, comments included. -/
def tokens : Tree → List Token
  | .leaf t => [t]
  | .node _ ts => tokensOf ts

def tokensOf : List Tree → List Token
  | [] => []
  | t :: ts => tokens t ++ tokensOf ts

end

mutual

/-- The byte at which the first token of the tree starts. -/
def start : Tree → Nat
  | .leaf t => t.start
  | .node _ ts => startOf ts

def startOf : List Tree → Nat
  | [] => 0
  | t :: _ => start t

end

mutual

/-- The byte after the last token of the tree. -/
def stop : Tree → Nat
  | .leaf t => t.stop
  | .node _ ts => stopOf ts

def stopOf : List Tree → Nat
  | [] => 0
  | [t] => stop t
  | _ :: u :: ts => stopOf (u :: ts)

end

/-- The text of the tree from its first token to its last. -/
def text (t : Tree) : Text :=
  match tokens t with
  | [] => []
  | u :: us => u.text ++ (us.flatMap fun v => v.before ++ v.text)

mutual

/-- All subtrees with the given property, an outer one before those inside it. -/
def collect (p : Tree → Bool) : Tree → List Tree
  | .leaf t => if p (.leaf t) then [.leaf t] else []
  | .node k ts => if p (.node k ts) then .node k ts :: collectOf p ts else collectOf p ts

def collectOf (p : Tree → Bool) : List Tree → List Tree
  | [] => []
  | t :: ts => collect p t ++ collectOf p ts

end

end Tree

end ServerSplit.Js
