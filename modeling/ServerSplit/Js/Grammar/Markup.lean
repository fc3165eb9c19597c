import ServerSplit.Js.Grammar.Expression

/-! Elements of markup inside expressions. -/
namespace ServerSplit.Js.Grammar

open Rule

/-- A name without a hyphen. -/
def isPlainName (t : Tree) : Bool := t.isLeaf .name && !t.text.contains '-'

def markupName : R := read .name Lexeme.markupName

def namespacePart : R := wrap .markupNamespace 1 (mark ":" ++ markupName)

def elementName : R :=
  markupName ++
    opt (namespacePart <|> (last isPlainName ++ many (wrap .member 1 (mark "." ++ anyName))))

/-- An expression in braces. -/
def markupExpression : R :=
  node .markupExpression (mark "\x7b" ++ opt (spread <|> enclosed) ++ mark "\x7d")

def entity : R := read .entity Lexeme.entity

def attributeString : R :=
  let quoted : Char → R := fun q =>
    let quote := Lexeme.exactly [q]
    node .string
      (read .mark quote ++
        many (glued .stringFragment (Lexeme.attributeFragment q) <|> entity) ++
        read .mark quote)
  quoted '"' <|> quoted '\''

def markupAttribute : R :=
  markupExpression <|>
  node .markupAttribute
    (markupName ++ opt namespacePart ++
      opt (mark "=" ++ anyOf [attributeString, markupExpression, part .element]))

def element : R :=
  let child :=
    anyOf [glued .markupText Lexeme.markupText, glued .markupComment Comment.readContent?, entity,
      absent (mark "</") ++ part .element, markupExpression]
  let closing := node .markupClosing (mark "</" ++ opt elementName ++ mark ">")
  let content :=
    mark ">" ++ step (.finish .markupOpening) ++ wrap .markupElement 1 (many child ++ closing)
  gap {} ++ step .opening ++ mark "<" ++
    ((elementName ++ many markupAttribute ++
        ((mark "/>" ++ step (.finish .markupSelfClosing)) <|> content)) <|>
      content)

end ServerSplit.Js.Grammar
