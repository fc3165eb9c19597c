import ServerSplit.Js.Tree
import ServerSplit.Text.Blank

/-! What is asked of statements and functions: whether a statement is a bare string, and the name and
the body of a function. -/
namespace ServerSplit.Js.Tree

/-- Comments and the first line of a script, which stand outside all statements. -/
def isTrivia (t : Tree) : Bool := t.isLeaf .comment || t.isLeaf .hashBang

/-- The literal of a statement that is nothing but a string. -/
def stringLiteral? : Tree → Option Tree
  | .node .expressionStatement ts =>
    (ts.find? fun t => t.isNamed && !t.isTrivia).filter (·.isKind .string)
  | _ => none

/-- What stands between the quotes of a string, escapes untouched. -/
def contents (literal : Tree) : Text := (literal.text.drop 1).dropLast

/-- The literals of the strings that lead a list of statements. -/
def prologue : List Tree → List Tree
  | [] => []
  | t :: ts =>
    if !t.isNamed || t.isTrivia then prologue ts
    else match t.stringLiteral? with
      | some l => l :: prologue ts
      | none => []

def isFunction (t : Tree) : Bool := t.functionKind?.isSome

/-- The name to which a function is bound. -/
def functionName? : Tree → Option Text
  | .node (.function k) ts =>
    if k = .arrow ∨ k = .method then none else (ts.find? (·.isLeaf .name)).map text
  | _ => none

/-- The statements of a function whose body is a block. -/
def functionBody (t : Tree) : List Tree :=
  match t.children.find? (·.isKind .statementBlock) with
  | some b => b.children
  | none => []

/-- The functions of a tree, an outer one before those inside it. -/
def functions (t : Tree) : List Tree := t.collect isFunction

/-- The blanks that open the line on which the tree starts. -/
def indent (source : Text) (t : Tree) : Text := Text.indentBefore source t.start

end ServerSplit.Js.Tree
