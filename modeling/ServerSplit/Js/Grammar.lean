import ServerSplit.Js.Grammar.Function
import ServerSplit.Js.Grammar.Markup
import ServerSplit.Js.Grammar.Module

/-! The grammar of JavaScript, part by part. -/
namespace ServerSplit.Js.Grammar

open Rule

def statement (inCase : Bool) : R :=
  gap {} ++ anyOf
    ([empties, present (mark "\x7b") ++ bracesStatement] ++
      keywordStatements.map (fun p => present (keyword p.1) ++ p.2) ++
      [present startsVariablesNotValue ++ declaredVariables,
       present (startsFunction ⟨true, true⟩) ++ declarationOr (part (.functionForm .statement)) statementTail,
       exportStatement,
       present (keyword "class" <|> mark "@") ++
         declarationOr (part (.classForm .statement)) statementTail,
       present (keyword "import") ++ absent importExpression ++ importStatement,
       absent (anyOf
           ((statementWords ++ if inCase then caseWords else []).map keyword ++
             [mark "\x7b", keyword "class", mark "@", startsFunction ⟨true, true⟩,
               startsVariablesNotValue, keyword "export" ++ gap ⟨true, true⟩ ++ operator "*"])) ++
         (labeledStatement inCase <|> expressionStatement)])

/-- A whole source. -/
def program : R :=
  opt (read .hashBang Lexeme.hashBang) ++ many (part (.statement false)) ++ gap {}

end Grammar

open Grammar in
def grammar : Part → Rule Part
  | .statement inCase => statement inCase
  | .block operator => block operator
  | .declarators => declarators
  | .parenthesized => parenthesized
  | .expressions c => expressions c
  | .expression c level => expressionFrom c level
  | .operand c => operand c
  | .continuation c level => continuation c level
  | .arrowBody c => arrowBody c
  | .object => object
  | .objectMember => objectMember
  | .array => array
  | .arguments => arguments
  | .template => template
  | .string => string
  | .element => element
  | .decorator => decorator
  | .functionForm r => functionForm r
  | .classForm r => classForm r
  | .classMember => classMember

end ServerSplit.Js
