import ServerSplit.Js.Grammar

/-! From a text to its tree. -/
namespace ServerSplit.Js

/-- Whether a tree stands for something that it could not be told from when it was read. -/
def Tree.isUndecided (t : Tree) : Bool :=
  t.isKind .coverInitializer || t.isKind .cover ||
    (t.isKind .pair && t.children.any (·.isKind .spread))

/-- The tree of a source that has no error of syntax. -/
def parse (t : Text) : Option Tree :=
  match Rule.run grammar (1024 * (t.length + 1)) Grammar.program (Reader.ofText t) with
  | some s =>
    let tree := Tree.node .program s.items.reverse
    if s.rest.isEmpty && s.outer.isEmpty && (tree.collect Tree.isUndecided).isEmpty then some tree
    else none
  | none => none

end ServerSplit.Js
