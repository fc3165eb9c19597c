import ServerSplit.Js.Repair.Phrases

/-! From phrases to productions: each way to read a category, step by step. A row of phrases becomes a
category of its own, and an inlined category is replaced by its alternatives. -/
namespace ServerSplit.Js.Repair

/-- A token by its place among the terminals, or a category by its number; the rows of phrases are
numbered behind the categories. -/
inductive Symbol
  | terminal (i : Nat)
  | part (i : Nat)
  deriving Repr, DecidableEq, Hashable, Inhabited

/-- How a part stands in its phrase: the name under which trees show it, if that is not its own, and
its role. -/
structure Guise where
  shown : Option String := none
  role : Option Role := none
  deriving Repr, DecidableEq, Hashable, Inhabited

/-- The guise of a part whose own is `h`, in a phrase that stands under `g`. -/
def Guise.over (g h : Guise) : Guise := ⟨g.shown <|> h.shown, g.role <|> h.role⟩

structure Step where
  symbol : Symbol
  guise : Guise := {}
  deriving Repr, DecidableEq, Hashable, Inhabited

def Step.disguise (g : Guise) (s : Step) : Step := { s with guise := g.over s.guise }

structure Production where
  steps : List Step
  level : Option Level := none
  side : Option Side := none
  weight : Int := 0
  deriving Repr, DecidableEq, Inhabited

namespace Production

def empty : Production := ⟨[], none, none, 0⟩

/-- The weight that says more. -/
def heavier (a b : Int) : Int := if a.natAbs < b.natAbs then b else a

def append (p q : Production) : Production :=
  ⟨p.steps ++ q.steps, p.level <|> q.level, p.side <|> q.side, heavier p.weight q.weight⟩

end Production

def Terminal.index (t : Terminal) : Nat := terminals.idxOf t

/-- The rows met so far with their alternatives. -/
abbrev Rows := Array (Phrase × List Production)

def rowCategory (i : Nat) : Nat := Category.semicolon.ctorIdx + 1 + i

/-- The ways to read a phrase. -/
def Phrase.productions : Phrase → StateM Rows (List Production)
  | .empty => return [.empty]
  | .token t => return [{ steps := [{ symbol := .terminal t.index }] }]
  | .part c => return [{ steps := [{ symbol := .part c.ctorIdx }] }]
  | .seq a b => do
    let ps ← a.productions
    let qs ← b.productions
    return ps.flatMap fun p => qs.map p.append
  | .alt a b => return (← a.productions) ++ (← b.productions)
  | .row a => do
    let one := fun i => [{ steps := [{ symbol := .part (rowCategory i) }] }]
    match (← get).findIdx? (·.1 = a) with
    | some i => return one i
    | none =>
      let ps ← a.productions
      let i := (← get).size
      modify (·.push (a, ps))
      return one i
  | .shown name a => return (← a.productions).map fun p =>
      { p with steps := p.steps.map (·.disguise { shown := some name }) }
  | .role r a => return (← a.productions).map fun p =>
      { p with steps := p.steps.map (·.disguise { role := some r }) }
  | .bound level side a => return (← a.productions).map fun p =>
      { p with level := level <|> p.level, side := side <|> p.side }
  | .weighted weight a => return (← a.productions).map fun p =>
      { p with weight := Production.heavier p.weight weight }

/-- The sequences of steps with each step replaced by one of its choices. -/
def Step.choose (choices : Step → List (List Step)) : List Step → List (List Step)
  | [] => [[]]
  | s :: ss => (choices s).flatMap fun a => (Step.choose choices ss).map (a ++ ·)

/-- The alternatives of a step whose category is inlined; the fuel bounds how deep such categories
stand in one another. -/
def Step.alternatives (inlined : Nat → Option (List Production)) : Nat → Step → List (List Step)
  | 0, s => [[s]]
  | fuel + 1, s =>
    match s.symbol with
    | .terminal _ => [[s]]
    | .part i =>
      match inlined i with
      | none => [[s]]
      | some ps => ps.flatMap fun p =>
          Step.choose (fun t => Step.alternatives inlined fuel (t.disguise s.guise)) p.steps

/-- The categories in the order of their numbers. -/
def categories : List Category :=
  [.program, .exportStatement, .namespaceExport, .exportClause, .exportSpecifier, .exportedName,
   .declaration, .importWord, .importStatement, .importClause, .fromClause, .namespaceImport,
   .namedImports, .importSpecifier, .importAttribute, .statement, .expressionStatement,
   .variableDeclaration, .lexicalDeclaration, .variableDeclarator, .statementBlock, .elseClause,
   .ifStatement, .switchStatement, .forStatement, .forInStatement, .forHeader, .whileStatement,
   .doStatement, .tryStatement, .withStatement, .breakStatement, .continueStatement,
   .debuggerStatement, .returnStatement, .throwStatement, .emptyStatement, .labeledStatement,
   .switchBody, .switchCase, .switchDefault, .catchClause, .finallyClause, .parenthesized,
   .expressions, .expression, .primary, .yieldExpression, .object, .objectPattern,
   .assignmentPattern, .objectAssignmentPattern, .array, .arrayPattern, .markup, .markupElement,
   .markupChild, .markupExpression, .markupOpening, .tagName, .nestedName, .markupNamespace,
   .elementName, .markupClosing, .markupSelfClosing, .attributeOrExpression, .attributeName,
   .markupAttribute, .markupString, .attributeValue, .classExpression, .classDeclaration,
   .classHeritage, .functionExpression, .functionDeclaration, .generator, .generatorDeclaration,
   .arrowFunction, .callSignature, .parameter, .call, .newExpression, .awaitExpression, .member,
   .subscript, .place, .assignment, .augmentedPlace, .augmentedAssignment, .initializer,
   .destructuring, .spread, .ternary, .binary, .unary, .update, .sequence, .string, .template,
   .templateSubstitution, .regex, .value, .metaProperty, .arguments, .decorator,
   .decoratorMember, .decoratorCall, .classBody, .fieldDefinition, .parameters, .staticBlock,
   .pattern, .restPattern, .method, .pair, .pairPattern, .propertyName, .computedName,
   .reservedName, .semicolon]

theorem categories_ctorIdx (c : Category) : categories[c.ctorIdx]? = some c := by
  cases c <;> rfl

/-- Productions by the number of their category or row. -/
abbrev Grammar := Array (List Production)

/-- The productions of all categories and rows, with no inlined category left in them. -/
def Grammar.ofPhrases : Grammar :=
  let (plain, rows) := (categories.mapM fun c => (phrase c).productions).run #[]
  let plain := plain.toArray
  let hidden := fun i => (categories[i]?).any isInlined
  let inlined := fun i => if hidden i then some (plain.getD i []) else none
  let rowProductions := rows.mapIdx fun i r =>
    let self : Step := { symbol := .part (rowCategory i) }
    { steps := [self, self] } :: r.2
  (plain ++ rowProductions).mapIdx fun i ps =>
    if hidden i then []
    else
      (ps.flatMap fun p =>
        (Step.choose (Step.alternatives inlined 4) p.steps).map fun steps => { p with steps }).eraseDups

end ServerSplit.Js.Repair
