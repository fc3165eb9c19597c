import ServerSplit.Js.Grammar.Statement

/-! What a module takes in and gives out. -/
namespace ServerSplit.Js.Grammar

open Rule

/-- A name of something that a module gives out. -/
def moduleName : R := anyName <|> part .string

def fromClause : R := keyword "from" ++ part .string

/-- A list in braces. -/
def braced (a : R) : R :=
  mark "\x7b" ++ opt (a ++ many (comma ++ a)) ++ opt comma ++ mark "\x7d"

/-! ### Export -/

def exportClause : R :=
  node .exportClause
    (braced (node .exportSpecifier (moduleName ++ optThen (keyword "as") moduleName)))

/-- What may stand behind the word `default`. -/
def exportedDefault : R :=
  let tail := many (part (.continuation .ending 0)) ++ semicolon true
  anyOf [
    present (startsFunction ⟨true, true⟩) ++ declarationOr (part (.functionForm .statement)) tail,
    present (keyword "class" <|> mark "@") ++ declarationOr (part (.classForm .statement)) tail,
    present startsVariablesNotValue ++ declaredVariables,
    absent (anyOf [startsFunction ⟨true, true⟩, keyword "class", mark "@", startsVariablesNotValue]) ++
      expression .ending ++ semicolon true]

/-- A declaration that is given out. -/
def exportedDeclaration : R :=
  anyOf [
    present (startsFunction {}) ++ part (.functionForm .exported) ++ last isDeclaration,
    present (keyword "class" <|> mark "@") ++ part (.classForm .exported) ++ last isDeclaration,
    present (startsVariables {} []) ++ declaredVariables]

def exportStatement : R :=
  let star := mark "*"
  let forms := anyOf [
    star ++ fromClause ++ semicolon false,
    node .namespaceExport (star ++ keyword "as" ++ moduleName) ++ fromClause ++ semicolon false,
    exportClause ++ opt (gap ⟨true, false⟩ ++ fromClause) ++ semicolon false]
  let declared := (keyword "default" ++ exportedDefault) <|> exportedDeclaration
  anyOf [
    node .exportStatement (keyword "export" ++ gap ⟨true, true⟩ ++ (declared <|> forms)),
    present (mark "@") ++
      node .exportStatement (many (part .decorator) ++ keyword "export" ++ declared)]

/-! ### Import -/

def namespaceImport : R := node .namespaceImport (mark "*" ++ keyword "as" ++ anyName)

def namedImports : R :=
  node .namedImports
    (braced (node .importSpecifier
      ((moduleName ++ keyword "as" ++ anyName) <|> read .name (Lexeme.nameExcept ["default"]))))

def importClause : R :=
  node .importClause
    (anyOf [namespaceImport, namedImports,
      anyName ++ opt (comma ++ (namespaceImport <|> namedImports))])

def importStatement : R :=
  let attributes := node .importAttribute (keyword "with" ++ part .object)
  node .importStatement
    (keyword "import" ++ ((importClause ++ fromClause) <|> part .string) ++
      opt (gap ⟨true, false⟩ ++ attributes) ++ semicolon false)

/-- An import that is part of an expression. -/
def importExpression : R := keyword "import" ++ anyOf [mark "(", mark ".", optionalChain]

end ServerSplit.Js.Grammar
