import ServerSplit.Js.Tree

/-! Trees that are read before it is known what they are. Braces, brackets and parentheses are read as
literals first and turn into patterns or parameters where the text after them asks for it. No change
touches a token. -/
namespace ServerSplit.Js

/-- What a tree turns into. -/
inductive Recast
  | pattern
  | assigned
  | parameters
  | parenthesized
  | expression
  | method
  deriving Repr, DecidableEq

namespace Recast

/-- A word that can be assigned to. -/
def isTargetWord (t : Token) : Bool :=
  t.kind = .name || (t.kind = .constant && t.text = "undefined".toList)

/-- Whether a pattern is complete as it stands: a part of an object, or a pattern already. -/
def isTarget : Tree → Bool
  | .leaf t => isTargetWord t
  | .node k _ => [Kind.member, .subscript, .objectPattern, .arrayPattern].contains k

mutual

/-- The pattern that a tree can be. -/
def asPattern : Tree → Option Tree
  | .leaf t => if isTargetWord t then some (.leaf t) else none
  | .node .object ts => (asMembers ts).map (.node .objectPattern)
  | .node .array ts => (asElements ts).map (.node .arrayPattern)
  | .node k ts => if isTarget (.node k ts) then some (.node k ts) else none

/-- The element of a list of patterns that a tree can be: a pattern, its default behind it, or all
that is left of the list. -/
def asElement : Tree → Option Tree
  | .leaf t =>
    if t.kind = .mark || (Tree.leaf t).isComment || isTargetWord t then some (.leaf t) else none
  | .node .object ts => (asMembers ts).map (.node .objectPattern)
  | .node .array ts => (asElements ts).map (.node .arrayPattern)
  | .node .assignment (l :: ts) => if isTarget l then some (.node .assignmentPattern (l :: ts)) else none
  | .node .spread (d :: ts) => (asPatterns ts).map fun us => .node .restPattern (d :: us)
  | .node k ts => if isTarget (.node k ts) then some (.node k ts) else none

def asElements : List Tree → Option (List Tree)
  | [] => some []
  | t :: ts => do return (← asElement t) :: (← asElements ts)

/-- The member of an object pattern that a tree can be. -/
def asMember : Tree → Option Tree
  | .leaf t => some (.leaf t)
  | .node .pair ts => (asValue ts).map (.node .pairPattern)
  | .node .coverInitializer ts => some (.node .objectAssignmentPattern ts)
  | .node .spread (d :: ts) => (asPatterns ts).map fun us => .node .restPattern (d :: us)
  | .node _ _ => none

def asMembers : List Tree → Option (List Tree)
  | [] => some []
  | t :: ts => do return (← asMember t) :: (← asMembers ts)

/-- Patterns and the comments between them. -/
def asPatterns : List Tree → Option (List Tree)
  | [] => some []
  | t :: ts => do
    let u ← if t.isComment then some t else asPattern t
    return u :: (← asPatterns ts)

/-- The parts of a pair, with a pattern after the colon. -/
def asValue : List Tree → Option (List Tree)
  | [] => some []
  | t :: ts =>
    if t.isMark [':'] then (asElements ts).map (t :: ·) else (asValue ts).map (t :: ·)

end

/-- Whether commas only stand behind trees. -/
def hasNoGaps : List Tree → Bool
  | [] => true
  | t :: ts => !t.isMark [','] && go ts
where
  /-- Inside the list, behind a tree. -/
  go : List Tree → Bool
    | [] => true
    | t :: ts => if t.isMark [','] then hasNoGaps ts else go ts

/-- What stands between the first tree of a list and its last. -/
def inner (ts : List Tree) : List Tree := (ts.drop 1).dropLast

def asParameters : Tree → Option Tree
  | .node k ts => do
    guard (k = .cover || k = .arguments)
    guard (hasNoGaps ((inner ts).filter (!·.isComment)))
    return .node .parameters (← asElements ts)
  | .leaf _ => none

/-- The trees with those from the first to the last that is no comment in one sequence. -/
def groupSequence (ts : List Tree) : List Tree :=
  let before := ts.takeWhile Tree.isComment
  let rest := ts.dropWhile Tree.isComment
  let after := (rest.reverse.takeWhile Tree.isComment).reverse
  before ++ .node .sequence (rest.reverse.dropWhile Tree.isComment).reverse :: after

def asParenthesized : Tree → Option Tree
  | .node .cover ts => do
    let mid := inner ts
    let kept := mid.filter (!·.isComment)
    guard (!kept.isEmpty && hasNoGaps (kept ++ [.node .cover []]))
    guard (!kept.any (·.isKind .spread))
    guard (!(kept.getLast?.any (·.isMark [','])))
    match kept with
    | [_] => return .node .parenthesized ts
    | _ => return .node .parenthesized (ts.take 1 ++ groupSequence mid ++ ts.drop (mid.length + 1))
  | _ => none

/-- A declaration that is part of an expression after all. -/
def asExpression : Tree → Option Tree
  | .node (.function .declaration) ts => some (.node (.function .expression) ts)
  | .node (.function .generatorDeclaration) ts => some (.node (.function .generator) ts)
  | .node .classDeclaration ts => some (.node .classExpression ts)
  | _ => none

/-- A call with a block behind it, which is a method. -/
def asMethod : Tree → Option Tree
  | .node .cover ts =>
    (ts.mapM fun t : Tree => if t.isKind .arguments then asParameters t else some t).map
      (.node (.function .method))
  | _ => none

def apply : Recast → Tree → Option Tree
  | .pattern, t => asPattern t
  | .assigned, t => if t.isKind .parenthesized then some t else asPattern t
  | .parameters, t => asParameters t
  | .parenthesized, t => asParenthesized t
  | .expression, t => asExpression t
  | .method, t => asMethod t

end Recast

end ServerSplit.Js
