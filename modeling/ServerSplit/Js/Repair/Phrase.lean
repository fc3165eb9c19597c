import ServerSplit.Js.Lexeme

/-! The grammar of JavaScript as productions need it: phrases of tokens and of categories of phrases,
with no order among the alternatives. -/
namespace ServerSplit.Js.Repair

inductive Terminal
  /-- The end of the text. -/
  | ending
  /-- A mark of punctuation or a keyword. -/
  | literal (s : String)
  | name
  | privateName
  | number
  | comment
  | hashBang
  | entity
  | markupName
  | attributeText (quote : Char)
  | stringText (quote : Char)
  | escape
  | regexSlash
  | regexPattern
  | regexFlags
  | staticGet
  | insertedSemicolon
  | templateText
  | question
  | markupComment
  | markupText
  deriving Repr, DecidableEq

/-- The categories of phrases. -/
inductive Category
  | program
  | exportStatement | namespaceExport | exportClause | exportSpecifier | exportedName
  | declaration
  | importWord | importStatement | importClause | fromClause | namespaceImport | namedImports
  | importSpecifier | importAttribute
  | statement | expressionStatement | variableDeclaration | lexicalDeclaration | variableDeclarator
  | statementBlock | elseClause | ifStatement | switchStatement | forStatement | forInStatement
  | forHeader | whileStatement | doStatement | tryStatement | withStatement | breakStatement
  | continueStatement | debuggerStatement | returnStatement | throwStatement | emptyStatement
  | labeledStatement | switchBody | switchCase | switchDefault | catchClause | finallyClause
  | parenthesized | expressions | expression | primary | yieldExpression
  | object | objectPattern | assignmentPattern | objectAssignmentPattern | array | arrayPattern
  | markup | markupElement | markupChild | markupExpression | markupOpening | tagName | nestedName
  | markupNamespace | elementName | markupClosing | markupSelfClosing | attributeOrExpression
  | attributeName | markupAttribute | markupString | attributeValue
  | classExpression | classDeclaration | classHeritage
  | functionExpression | functionDeclaration | generator | generatorDeclaration | arrowFunction
  | callSignature | parameter
  | call | newExpression | awaitExpression | member | subscript | place | assignment
  | augmentedPlace | augmentedAssignment | initializer | destructuring | spread | ternary | binary
  | unary | update | sequence
  | string | template | templateSubstitution | regex | value | metaProperty | arguments
  | decorator | decoratorMember | decoratorCall
  | classBody | fieldDefinition | parameters | staticBlock | pattern | restPattern | method
  | pair | pairPattern | propertyName | computedName | reservedName | semicolon
  deriving Repr, DecidableEq

/-- How tightly a production binds. -/
inductive Level
  | member | templateCall | call | construction | unary | power | times | plus | shift | relation
  | equality | bitAnd | bitXor | bitOr | and | or | ternary | assignment | declaration | literal | object
  deriving Repr, DecidableEq, Hashable

/-- What a row of equal operators groups by. -/
inductive Side
  | left
  | right
  deriving Repr, DecidableEq, Hashable

/-- What a part is in its phrase. A role is only given where phrases read alike up to some point would
otherwise be taken for one. -/
inductive Role
  | declaration | value | source | condition | step | name | parameters | chain | member
  deriving Repr, DecidableEq, Hashable

inductive Phrase
  | empty
  | token (t : Terminal)
  | part (c : Category)
  | seq (a b : Phrase)
  | alt (a b : Phrase)
  /-- One or more in a row. -/
  | row (a : Phrase)
  /-- The parts of `a` appear in trees under a name of their own. -/
  | shown (name : String) (a : Phrase)
  /-- The parts of `a` have a role. -/
  | role (r : Role) (a : Phrase)
  | bound (level : Option Level) (side : Option Side) (a : Phrase)
  /-- Among readings of the same tokens, one with more `weight` is better. -/
  | weighted (weight : Int) (a : Phrase)
  deriving Repr, DecidableEq

namespace Phrase

instance : Append Phrase := ⟨seq⟩

instance : OrElse Phrase := ⟨fun a b => alt a (b ())⟩

instance : Coe String Phrase := ⟨fun s => token (.literal s)⟩

def opt (a : Phrase) : Phrase := alt a empty

def many (a : Phrase) : Phrase := opt (row a)

def anyOf : List Phrase → Phrase
  | [] => empty
  | [a] => a
  | a :: as => alt a (anyOf as)

/-- Parts with commas between them, at least one. -/
def commaSeparated (a : Phrase) : Phrase := a ++ many ("," ++ a)

end Phrase

end ServerSplit.Js.Repair
