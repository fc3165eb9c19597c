import ServerSplit.Js.Repair.Phrase

/-! What each category of phrases consists of, and which reading wins where the grammar allows
several. -/
namespace ServerSplit.Js.Repair

open Phrase

private def name : Phrase := token .name

private def reserved (shownAs : String) : Phrase := shown shownAs (part .reservedName <|> name)

private def nameOr (shownAs : String) : Phrase := shown shownAs (name <|> part .reservedName)

private def named : Phrase := role .name name

private def parts (cs : List Category) : Phrase := anyOf (cs.map part)

private def target : Phrase := name <|> part .destructuring

private def left (l : Level) (a : Phrase) : Phrase := bound (some l) (some .left) a

private def right (l : Level) (a : Phrase) : Phrase := bound (some l) (some .right) a

private def tight (l : Level) (a : Phrase) : Phrase := bound (some l) none a

private def greedy (a : Phrase) : Phrase := bound none (some .right) a

private def ending : Phrase := part .semicolon

private def decorators : Phrase := many (part .decorator)

private def signature : Phrase := part .callSignature ++ part .statementBlock

private def inserted : Phrase := opt (token .insertedSemicolon)

/-- Text between quotes, with what else may stand there. -/
private def quoted (mark : String) (text : Terminal) (other : Phrase) : Phrase :=
  mark ++ many (shown "string_fragment" (token text) <|> other) ++ mark

private def binaryOperators : List (String × Level) :=
  [("&&", .and), ("||", .or), (">>", .shift), (">>>", .shift), ("<<", .shift), ("&", .bitAnd),
   ("^", .bitXor), ("|", .bitOr), ("+", .plus), ("-", .plus), ("*", .times), ("/", .times),
   ("%", .times), ("**", .power), ("<", .relation), ("<=", .relation), ("==", .equality),
   ("===", .equality), ("!=", .equality), ("!==", .equality), (">=", .relation), (">", .relation),
   ("??", .ternary), ("instanceof", .relation), ("in", .relation)]

private def binary : String × Level → Phrase := fun (op, level) =>
  let first := if op = "in" then part .expression <|> token .privateName else part .expression
  bound (some level) (some (if op = "**" then .right else .left)) (first ++ op ++ part .expression)

private def literals (ss : List String) : Phrase := anyOf (ss.map fun s => token (.literal s))

private def forHeader : Phrase :=
  let kinds := anyOf [
    part .place <|> part .parenthesized,
    "var" ++ target ++ opt (part .initializer),
    literals ["let", "const"] ++ target ++ inserted]
  "(" ++ kinds ++ literals ["in", "of"] ++ part .expressions ++ ")"

private def forStatement : Phrase :=
  let start := anyOf [
    part .lexicalDeclaration <|> part .variableDeclaration,
    part .expressions ++ ";",
    part .emptyStatement]
  let condition := (role .condition (part .expressions) ++ ";") <|>
    role .condition (part .emptyStatement)
  "for" ++ "(" ++ start ++ condition ++ role .step (opt (part .expressions)) ++ ")" ++
    part .statement

private def exportStatement : Phrase :=
  let listed := anyOf [
    "*" ++ part .fromClause,
    part .namespaceExport ++ part .fromClause,
    part .exportClause ++ part .fromClause,
    part .exportClause]
  let declaration := role .declaration (part .declaration)
  let declared := declaration <|>
    ("default" ++ (declaration <|> (role .value (part .expression) ++ ending)))
  ("export" ++ listed ++ ending) <|> (decorators ++ "export" ++ declared)

private def method : Phrase :=
  decorators ++ opt ("static" <|> shown "static get" (token .staticGet)) ++ opt "async" ++
    opt (literals ["get", "set", "*"]) ++ part .propertyName ++ part .parameters ++
    part .statementBlock

private def calls : Phrase :=
  anyOf [
    tight .call ((part .expression <|> part .importWord) ++ part .arguments),
    tight .templateCall ((part .primary <|> part .newExpression) ++ part .template),
    tight .member (part .primary ++ "?." ++ part .arguments)]

private def primaries : List Phrase :=
  [part .subscript, part .member, part .parenthesized, part .value,
   shown "identifier" (part .reservedName), "this", "super", token .number, part .string,
   part .template, part .regex, "true", "false", "null", part .object, part .array,
   part .functionExpression, part .arrowFunction, part .generator, part .classExpression,
   part .metaProperty, part .call]

private def statements : List Category :=
  [.exportStatement, .importStatement, .debuggerStatement, .expressionStatement, .declaration,
   .statementBlock, .ifStatement, .switchStatement, .forStatement, .forInStatement, .whileStatement,
   .doStatement, .tryStatement, .withStatement, .breakStatement, .continueStatement,
   .returnStatement, .throwStatement, .emptyStatement, .labeledStatement]

/-- What a category consists of. -/
def phrase : Category → Phrase
  | .program => opt (token .hashBang) ++ many (part .statement)
  | .exportStatement => exportStatement
  | .namespaceExport => "*" ++ "as" ++ part .exportedName
  | .exportClause => "\x7b" ++ opt (commaSeparated (part .exportSpecifier)) ++ opt "," ++ "\x7d"
  | .exportSpecifier => part .exportedName ++ opt ("as" ++ part .exportedName)
  | .exportedName => name <|> part .string
  | .declaration =>
    parts [.functionDeclaration, .generatorDeclaration, .classDeclaration, .lexicalDeclaration,
      .variableDeclaration]
  | .importWord => "import"
  | .importStatement =>
    "import" ++ ((part .importClause ++ part .fromClause) <|> role .source (part .string)) ++
      opt (part .importAttribute) ++ ending
  | .importClause =>
    let others := part .namespaceImport <|> part .namedImports
    anyOf [part .namespaceImport, part .namedImports, name ++ opt ("," ++ others)]
  | .fromClause => "from" ++ part .string
  | .namespaceImport => "*" ++ "as" ++ name
  | .namedImports => "\x7b" ++ opt (commaSeparated (part .importSpecifier)) ++ opt "," ++ "\x7d"
  | .importSpecifier =>
    name <|> ((part .exportedName <|> shown "identifier" "default") ++ "as" ++ name)
  | .importAttribute => "with" ++ part .object
  | .statement => parts statements
  | .expressionStatement => part .expressions ++ ending
  | .variableDeclaration => "var" ++ commaSeparated (part .variableDeclarator) ++ ending
  | .lexicalDeclaration =>
    literals ["let", "const"] ++ commaSeparated (part .variableDeclarator) ++ ending
  | .variableDeclarator => target ++ opt (part .initializer)
  | .statementBlock => greedy ("\x7b" ++ many (part .statement) ++ "\x7d" ++ inserted)
  | .elseClause => "else" ++ part .statement
  | .ifStatement =>
    greedy ("if" ++ part .parenthesized ++ part .statement ++ opt (part .elseClause))
  | .switchStatement => "switch" ++ part .parenthesized ++ part .switchBody
  | .forStatement => forStatement
  | .forInStatement => "for" ++ opt "await" ++ part .forHeader ++ part .statement
  | .forHeader => forHeader
  | .whileStatement => "while" ++ part .parenthesized ++ part .statement
  | .doStatement =>
    greedy ("do" ++ part .statement ++ "while" ++ part .parenthesized ++ opt ending)
  | .tryStatement =>
    "try" ++ part .statementBlock ++ opt (part .catchClause) ++ opt (part .finallyClause)
  | .withStatement => "with" ++ part .parenthesized ++ part .statement
  | .breakStatement => "break" ++ opt (shown "statement_identifier" name) ++ ending
  | .continueStatement => "continue" ++ opt (shown "statement_identifier" name) ++ ending
  | .debuggerStatement => "debugger" ++ ending
  | .returnStatement => "return" ++ opt (part .expressions) ++ ending
  | .throwStatement => "throw" ++ part .expressions ++ ending
  | .emptyStatement => ";"
  | .labeledStatement =>
    weighted (-1) (nameOr "statement_identifier" ++ ":" ++ part .statement)
  | .switchBody => "\x7b" ++ many (part .switchCase <|> part .switchDefault) ++ "\x7d"
  | .switchCase => "case" ++ part .expressions ++ ":" ++ many (part .statement)
  | .switchDefault => "default" ++ ":" ++ many (part .statement)
  | .catchClause => "catch" ++ opt ("(" ++ target ++ ")") ++ part .statementBlock
  | .finallyClause => "finally" ++ part .statementBlock
  | .parenthesized => "(" ++ part .expressions ++ ")"
  | .expressions => part .expression <|> part .sequence
  | .expression =>
    parts [.primary, .markup, .assignment, .augmentedAssignment, .awaitExpression, .unary, .binary,
      .ternary, .update, .newExpression, .yieldExpression]
  | .primary => anyOf primaries
  | .yieldExpression => greedy ("yield" ++ (("*" ++ part .expression) <|> opt (part .expression)))
  | .object =>
    let members := anyOf [part .pair, part .spread, part .method,
      nameOr "shorthand_property_identifier"]
    tight .object ("\x7b" ++ opt (commaSeparated (opt members)) ++ "\x7d")
  | .objectPattern =>
    let members := anyOf [part .pairPattern, part .restPattern, part .objectAssignmentPattern,
      nameOr "shorthand_property_identifier_pattern"]
    tight .object ("\x7b" ++ opt (commaSeparated (opt members)) ++ "\x7d")
  | .assignmentPattern => part .pattern ++ "=" ++ part .expression
  | .objectAssignmentPattern =>
    (reserved "shorthand_property_identifier_pattern" <|> part .destructuring) ++ "=" ++
      part .expression
  | .array => "[" ++ opt (commaSeparated (opt (part .expression <|> part .spread))) ++ "]"
  | .arrayPattern =>
    "[" ++ opt (commaSeparated (opt (part .pattern <|> part .assignmentPattern))) ++ "]"
  | .markup => part .markupElement <|> part .markupSelfClosing
  | .markupElement => part .markupOpening ++ many (part .markupChild) ++ part .markupClosing
  | .markupChild =>
    anyOf [token .markupText, token .entity, part .markup, part .markupExpression]
  | .markupExpression =>
    "\x7b" ++ opt (anyOf [part .expression, part .sequence, part .spread]) ++ "\x7d"
  | .markupOpening =>
    weighted (-1)
      ("<" ++ opt (part .elementName ++ many (part .attributeOrExpression)) ++ ">")
  | .tagName => shown "identifier" (token .markupName) <|> name
  | .nestedName =>
    tight .member
      ((name <|> shown "member_expression" (part .nestedName)) ++ "." ++
        shown "property_identifier" name)
  | .markupNamespace => part .tagName ++ ":" ++ part .tagName
  | .elementName =>
    anyOf [part .tagName, shown "member_expression" (part .nestedName), part .markupNamespace]
  | .markupClosing => "</" ++ opt (part .elementName) ++ ">"
  | .markupSelfClosing => "<" ++ part .elementName ++ many (part .attributeOrExpression) ++ "/>"
  | .attributeOrExpression => part .markupAttribute <|> part .markupExpression
  | .attributeName => shown "property_identifier" (part .tagName) <|> part .markupNamespace
  | .markupAttribute => part .attributeName ++ opt ("=" ++ part .attributeValue)
  | .markupString =>
    quoted "\"" (.attributeText '"') (token .entity) <|>
      quoted "'" (.attributeText '\'') (token .entity)
  | .attributeValue =>
    anyOf [shown "string" (part .markupString), part .markupExpression, part .markup]
  | .classExpression =>
    tight .literal
      (decorators ++ "class" ++ opt named ++ opt (part .classHeritage) ++ part .classBody)
  | .classDeclaration =>
    tight .declaration
      (decorators ++ "class" ++ named ++ opt (part .classHeritage) ++ part .classBody ++ inserted)
  | .classHeritage => "extends" ++ part .expression
  | .functionExpression => tight .literal (opt "async" ++ "function" ++ opt named ++ signature)
  | .functionDeclaration =>
    right .declaration (opt "async" ++ "function" ++ name ++ signature ++ inserted)
  | .generator => tight .literal (opt "async" ++ "function" ++ "*" ++ opt named ++ signature)
  | .generatorDeclaration =>
    right .declaration (opt "async" ++ "function" ++ "*" ++ name ++ signature ++ inserted)
  | .arrowFunction =>
    let left := (shown "identifier" (part .reservedName) <|> name) <|> part .callSignature
    opt "async" ++ left ++ "=>" ++ (part .expression <|> part .statementBlock)
  | .callSignature => role .parameters (part .parameters)
  | .parameter => part .pattern <|> part .assignmentPattern
  | .call => calls
  | .newExpression =>
    right .construction
      ("new" ++ (part .primary <|> part .newExpression) ++ opt (weighted 1 (part .arguments)))
  | .awaitExpression => tight .unary ("await" ++ part .expression)
  | .member =>
    tight .member
      (anyOf [part .expression, part .primary, part .importWord] ++ ("." <|> role .chain "?.") ++
        (token .privateName <|> shown "property_identifier" name))
  | .subscript =>
    right .member
      ((part .expression <|> part .primary) ++ opt "?." ++ "[" ++ part .expressions ++ "]")
  | .place =>
    anyOf [part .member, part .subscript, part .value, shown "identifier" (part .reservedName),
      part .destructuring]
  | .assignment =>
    right .assignment ((part .parenthesized <|> part .place) ++ "=" ++ part .expression)
  | .augmentedPlace =>
    anyOf [part .member, part .subscript, shown "identifier" (part .reservedName), name,
      part .parenthesized]
  | .augmentedAssignment =>
    let operators := ["+=", "-=", "*=", "/=", "%=", "^=", "&=", "|=", ">>=", ">>>=", "<<=", "**=",
      "&&=", "||=", "??="]
    right .assignment (part .augmentedPlace ++ literals operators ++ part .expression)
  | .initializer => "=" ++ part .expression
  | .destructuring => part .objectPattern <|> part .arrayPattern
  | .spread => "..." ++ part .expression
  | .ternary =>
    right .ternary
      (part .expression ++ shown "?" (token .question) ++ part .expression ++ ":" ++
        part .expression)
  | .binary => anyOf (binaryOperators.map binary)
  | .unary =>
    left .unary (literals ["!", "~", "-", "+", "typeof", "void", "delete"] ++ part .expression)
  | .update =>
    let operators := literals ["++", "--"]
    bound none (some .left) ((part .expression ++ operators) <|> (operators ++ part .expression))
  | .sequence => greedy (commaSeparated (part .expression))
  | .string =>
    quoted "\"" (.stringText '"') (token .escape) <|>
      quoted "'" (.stringText '\'') (token .escape)
  | .template =>
    let pieces := anyOf [shown "string_fragment" (token .templateText), token .escape,
      part .templateSubstitution]
    "`" ++ many pieces ++ "`"
  | .templateSubstitution => "$\x7b" ++ part .expressions ++ "\x7d"
  | .regex =>
    "/" ++ token .regexPattern ++ token .regexSlash ++ opt (token .regexFlags)
  | .value => "undefined" <|> name
  | .metaProperty =>
    let dotted := fun a b : String => (a : Phrase) ++ "." ++ b
    dotted "new" "target" <|> dotted "import" "meta"
  | .arguments => "(" ++ opt (commaSeparated (opt (part .expression <|> part .spread))) ++ ")"
  | .decorator =>
    "@" ++ anyOf [name, shown "member_expression" (part .decoratorMember),
      shown "call_expression" (part .decoratorCall)]
  | .decoratorMember =>
    tight .member
      ((name <|> shown "member_expression" (part .decoratorMember)) ++ "." ++
        shown "property_identifier" name)
  | .decoratorCall =>
    tight .call
      ((name <|> shown "member_expression" (part .decoratorMember)) ++ part .arguments)
  | .classBody =>
    let member := fun c => role .member (part c)
    let members := anyOf [member .method ++ opt ";", member .fieldDefinition ++ ending,
      member .staticBlock, ";"]
    "\x7b" ++ many members ++ "\x7d"
  | .fieldDefinition =>
    decorators ++ opt "static" ++ part .propertyName ++ opt (part .initializer)
  | .parameters => "(" ++ opt (commaSeparated (part .parameter) ++ opt ",") ++ ")"
  | .staticBlock => "static" ++ inserted ++ part .statementBlock
  | .pattern => weighted (-1) (part .place <|> part .restPattern)
  | .restPattern => greedy ("..." ++ part .place)
  | .method => method
  | .pair => part .propertyName ++ ":" ++ part .expression
  | .pairPattern => part .propertyName ++ ":" ++ (part .pattern <|> part .assignmentPattern)
  | .propertyName =>
    anyOf [nameOr "property_identifier", token .privateName, part .string, token .number,
      part .computedName]
  | .computedName => "[" ++ part .expression ++ "]"
  | .reservedName => literals ["get", "set", "async", "static", "export", "let"]
  | .semicolon => token .insertedSemicolon <|> ";"

/-- Whether a category stands for its alternatives wherever it occurs. -/
def isInlined : Category → Bool
  | .callSignature | .parameter | .expressions | .semicolon | .value | .reservedName
  | .attributeOrExpression | .elementName | .markupChild | .markup | .attributeName | .attributeValue
  | .tagName | .place => true
  | _ => false

/-- Whether a category has no node of its own in trees. -/
def isHidden (c : Category) : Bool :=
  match c with
  | .exportedName | .fromClause | .forHeader | .markupString | .augmentedPlace | .initializer
  | .destructuring | .propertyName | .statement | .declaration | .expression | .primary
  | .pattern => true
  | c => isInlined c

/-- What orders of precedence are between. -/
inductive Ranked
  | level (l : Level)
  | category (c : Category)
  deriving Repr, DecidableEq

/-- Lists of what binds tighter before what binds less. -/
def precedences : List (List Ranked) :=
  let levels : List Level → List Ranked := List.map .level
  let operators : List (List Ranked) := [
    levels [.member, .templateCall, .call],
    [.category .update],
    levels [.unary, .power, .times, .plus, .shift, .relation, .equality, .bitAnd, .bitXor, .bitOr, .and,
      .or, .ternary],
    [.category .sequence, .category .arrowFunction]]
  [operators.flatten,
   [.level .assignment, .category .primary],
   [.level .member, .level .templateCall, .level .construction, .level .call, .category .expression],
   levels [.declaration, .literal],
   [.category .primary, .category .statementBlock, .level .object],
   [.category .metaProperty, .category .importWord],
   [.category .importStatement, .category .importWord],
   [.category .exportStatement, .category .primary],
   [.category .lexicalDeclaration, .category .primary]]

/-- The tokens, in the order in which a missing one is looked for. -/
def terminals : List Terminal :=
  let groups : List (List Terminal) := [
    [.ending, .name, .hashBang],
    marks ["export", "*", "default", "as", "\x7b", ",", "\x7d", "import", "from", "with", "var", "let",
      "const", "else", "if", "switch", "for", "(", ";", ")", "await", "in", "of", "while", "do", "try",
      "break", "continue", "debugger", "return", "throw", ":", "case", "catch", "finally", "yield", "=",
      "[", "]"],
    [.entity], marks ["<", ">"], [.markupName], marks [".", "</", "/>", "\"", "'"],
    [.attributeText '"', .attributeText '\''],
    marks ["class", "extends", "async", "function", "=>", "?.", "new", "+=", "-=", "*=", "/=", "%=",
      "^=", "&=", "|=", ">>=", ">>>=", "<<=", "**=", "&&=", "||=", "??=", "...", "&&", "||", ">>", ">>>",
      "<<", "&", "^", "|", "+", "-", "/", "%", "**", "<=", "==", "===", "!=", "!==", ">=", "??",
      "instanceof", "!", "~", "typeof", "void", "delete", "++", "--"],
    [.stringText '"', .stringText '\'', .escape, .comment], marks ["`", "$\x7b"],
    [.regexSlash, .regexPattern, .regexFlags, .number, .privateName],
    marks ["target", "meta", "this", "super", "true", "false", "null", "undefined", "@", "static"],
    [.staticGet], marks ["get", "set"],
    [.insertedSemicolon, .templateText, .question, .markupComment, .markupText]]
  groups.flatten
where
  marks : List String → List Terminal := List.map .literal

end ServerSplit.Js.Repair
