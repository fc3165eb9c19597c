import ServerSplit.Js.Rule

/-! The parts of the grammar of JavaScript, and the rules that its areas share. The grammar takes the
first reading that fits, so parts that look alike at their start are read once and told apart by what
follows. -/
namespace ServerSplit.Js.Grammar

open Rule

/-- Where an expression stands. -/
structure Ctx where
  /-- Where the expression ends, a semicolon may be inserted. -/
  semicolon : Bool := false
  /-- The word `in` does not go on with the expression, and `of` is no name behind it. -/
  inHead : Bool := false
  /-- Parentheses behind the expression are not a call of it. -/
  noCall : Bool := false
  deriving Repr, DecidableEq

/-- The gap before whatever may go on with an expression. -/
def Ctx.gap (c : Ctx) : Gap := ⟨c.semicolon, true⟩

/-- An expression that ends a statement. -/
def Ctx.ending : Ctx := { semicolon := true }

/-- Where a function or class stands. Only in an expression it needs no name, and behind `export` no
operator goes on with it. -/
inductive Role
  | operand
  | statement
  | exported
  deriving Repr, DecidableEq

inductive Part
  /-- A statement; directly in a case of a `switch`, another case ends the list of statements. -/
  | statement (inCase : Bool)
  /-- A block; where an operator may follow, only a line end puts a semicolon behind it. -/
  | block (operator : Bool)
  | declarators
  | parenthesized
  | expressions (c : Ctx)
  /-- An expression whose operators bind at least as tightly as `level`. -/
  | expression (c : Ctx) (level : Nat)
  | operand (c : Ctx)
  | continuation (c : Ctx) (level : Nat)
  | arrowBody (c : Ctx)
  | object
  | objectMember
  | array
  | arguments
  | template
  | string
  | element
  | decorator
  | functionForm (r : Role)
  | classForm (r : Role)
  | classMember
  deriving Repr, DecidableEq

abbrev R := Rule Part

def part (p : Part) : R := .part p

def expression (c : Ctx) : R := part (.expression c 0)

/-- A list of expressions, or one, that stands in brackets of its own. -/
def enclosed : R := part (.expressions {})

def comma : R := mark ","

/-- The end of a statement: a semicolon, or where one is inserted. -/
def semicolon (operator : Bool) : R :=
  step (.insertion operator) <|> (gap ⟨true, operator⟩ ++ mark ";")

/-- A gap in which a semicolon may be inserted that has no meaning. -/
def optionalSemicolon : R := (step (.insertion false) ++ gap {}) <|> gap ⟨true, false⟩

/-- A node that consists of one token. -/
def unit (k : Kind) (s : String) : R := node k (mark s)

/-- Words that never name a value. -/
def reservedWords : List String :=
  ["function", "class", "new", "typeof", "void", "delete", "await", "yield", "import", "this", "super",
   "true", "false", "null", "undefined"]

/-- Words that start a statement. -/
def statementWords : List String :=
  ["if", "switch", "for", "while", "do", "try", "with", "break", "continue", "debugger", "return",
   "throw", "var", "const"]

def caseWords : List String := ["case", "default"]

/-- A name where an expression may stand. -/
def valueName : R := read .name (Lexeme.nameExcept reservedWords)

/-- A name at the start of a statement. -/
def leadingName (inCase : Bool) : R :=
  read .name (Lexeme.nameExcept (reservedWords ++ statementWords ++ if inCase then caseWords else []))

def constant (s : String) : R := read .constant (Lexeme.word s)

def number : R := read .number Lexeme.number

def privateName : R := read .privateName Lexeme.privateName

def spread : R := node .spread (mark "..." ++ expression {})

/-- A name or pattern that a declaration binds. -/
def target : R :=
  anyName <|> ((part .object <|> part .array) ++ recast .pattern)

/-- The parameters of a function. -/
def parameters : R := part .arguments ++ recast .parameters

def body (operator : Bool) : R := part (.block operator)

/-- The end of a block, with the semicolon that may be inserted behind it. -/
def closingBrace (operator : Bool) : R := mark "\x7d" ++ step (.closing operator)

/-- A name of a member. -/
def memberName : R :=
  anyOf [anyName, privateName, part .string, number,
    node .computedName (mark "[" ++ expression {} ++ mark "]")]

/-- The tokens behind a word that make the word itself a name. -/
def afterName : R := anyOf [mark "(", mark "=", mark ":", comma, mark "\x7d", mark ";"]

/-- A word that says what kind of member follows it. In a class a semicolon may be inserted behind it,
which makes it a name. -/
def modifier (inClass : Bool) (s : String) : R :=
  keyword s ++ gap ⟨inClass, false⟩ ++ absent afterName

/-- What makes a member a method before its name. -/
def methodModifiers (inClass : Bool) : R :=
  let kinds := fun inClass => anyOf [modifier inClass "get", modifier inClass "set", mark "*"]
  (modifier inClass "async" ++ opt (kinds false)) <|> kinds inClass

end ServerSplit.Js.Grammar
