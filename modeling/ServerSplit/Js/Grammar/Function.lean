import ServerSplit.Js.Grammar.Expression

/-! Functions and classes. -/
namespace ServerSplit.Js.Grammar

open Rule

def functionForm (r : Role) : R :=
  let shape : FunctionKind → FunctionKind → R := fun named unnamed =>
    (anyName ++ parameters ++ body (r ≠ .exported) ++
        step (.finish (.function (if r = .operand then unnamed else named)))) <|>
      (parameters ++ body true ++ step (.finish (.function unnamed)))
  gap {} ++ step .opening ++ opt (keyword "async") ++ keyword "function" ++
    ((mark "*" ++ shape .generatorDeclaration .generator) <|> shape .declaration .expression)

def classForm (r : Role) : R :=
  let heritage := opt (node .classHeritage (keyword "extends" ++ expression {}))
  let rest :=
    heritage ++
      node .classBody (mark "\x7b" ++ many (part .classMember) ++ mark "\x7d")
  let name := read .name (Lexeme.nameExcept ["extends"])
  gap {} ++ step .opening ++ many (part .decorator) ++ keyword "class" ++
    ((name ++ rest ++
        if r = .operand then step (.finish .classExpression)
        else step (.closing (r ≠ .exported)) ++ step (.finish .classDeclaration)) <|>
      (rest ++ step (.finish .classExpression)))

def classMember : R :=
  let initializer := gap ⟨true, false⟩ ++ mark "=" ++ expression .ending
  let methodEnd := parameters ++ body false ++ step (.finish (.function .method)) ++ opt (mark ";")
  anyOf [
    mark ";",
    node .staticBlock (keyword "static" ++ optionalSemicolon ++ body false),
    gap {} ++ step .opening ++ many (part .decorator) ++ anyOf [
      staticGet ++ opt (methodModifiers false) ++ memberName ++ methodEnd,
      absent staticGet ++ opt (modifier true "static") ++ anyOf [
        methodModifiers true ++ memberName ++ methodEnd,
        memberName ++ anyOf [
          present (gap ⟨true, false⟩ ++ mark "(") ++ methodEnd,
          absent (gap ⟨true, false⟩ ++ mark "(") ++
            ((initializer ++ step (.finish .fieldDefinition) ++ semicolon true) <|>
              (step (.finish .fieldDefinition) ++ semicolon false))]]]]

/-- A mark with a name and perhaps arguments before a class or a member. -/
def decorator : R :=
  node .decorator
    (mark "@" ++ anyName ++ many (memberAccess (mark ".")) ++ opt (wrap .call 1 (part .arguments)))

end ServerSplit.Js.Grammar
