import ServerSplit.Js.Reader

/-! Grammars as data, and one reader for all of them. A rule takes the first of its alternatives that
fits and goes as far as it can. -/
namespace ServerSplit.Js

/-- One step of a reader. -/
inductive Step
  /-- A token, behind whatever stands in the gap before it. -/
  | token (kind : Leaf) (reads : Reads)
  /-- A token with nothing before it. -/
  | glued (kind : Leaf) (reads : Reads)
  | comment (g : Gap)
  | gap (g : Gap)
  /-- The mark of a choice. -/
  | question (semicolon : Bool)
  /-- A semicolon is inserted here. -/
  | insertion (operator : Bool)
  /-- A block is closed, and a semicolon may be inserted. -/
  | closing (operator : Bool)
  /-- A node starts with the next token. -/
  | opening
  /-- A node starts with the last `n` trees. -/
  | adopt (n : Nat)
  /-- The innermost node ends and is of the given kind. -/
  | finish (k : Kind)
  | recast (r : Recast)
  /-- The last tree is as given. -/
  | last (p : Tree → Bool)

def Step.run : Step → Reader → Option Reader
  | .token kind reads, s => do (← s.settle {}).take kind reads
  | .glued kind reads, s => if s.blank.isEmpty then s.take kind reads else none
  | .comment g, s => s.comment g
  | .gap g, s => s.settle g
  | .question semicolon, s => s.question semicolon
  | .insertion operator, s => s.insertion operator
  | .closing operator, s => s.insertion operator <|> some { s with closed := true }
  | .opening, s => some { s with items := [], outer := s.items :: s.outer }
  | .adopt n, s => do
    let (ts, us) ← Reader.splitLast n s.items
    return { s with items := ts, outer := us :: s.outer }
  | .finish k, s =>
    match s.outer with
    | [] => none
    | ts :: us => some { s with items := .node k s.items.reverse :: ts, outer := us }
  | .recast r, s => (Reader.recastLast r s.items).map fun ts => { s with items := ts }
  | .last p, s => if s.last?.any p then some s else none

/-- A rule over parts of a grammar. -/
inductive Rule (σ : Type)
  | empty
  | step (s : Step)
  | part (p : σ)
  | seq (a b : Rule σ)
  | alt (a b : Rule σ)
  /-- As many in a row as there are. -/
  | many (a : Rule σ)
  /-- What follows fits, and is not read. -/
  | present (a : Rule σ)
  /-- What follows does not fit, and is not read. -/
  | absent (a : Rule σ)

namespace Rule

variable {σ : Type}

instance : Append (Rule σ) := ⟨seq⟩

instance : OrElse (Rule σ) := ⟨fun a b => alt a (b ())⟩

/-- Reads by a rule; the fuel bounds the depth of the rules in one another. -/
def run (grammar : σ → Rule σ) : Nat → Rule σ → Reader → Option Reader
  | 0, _, _ => none
  | n + 1, rule, s =>
    match rule with
    | .empty => some s
    | .step a => a.run s
    | .part p => run grammar n (grammar p) s
    | .seq a b =>
      match run grammar n a s with
      | some s => run grammar n b s
      | none => none
    | .alt a b =>
      match run grammar n a s with
      | some s => some s
      | none => run grammar n b s
    | .many a =>
      match run grammar n a s with
      | some s' => if s.offset < s'.offset then run grammar n (.many a) s' else some s'
      | none => some s
    | .present a => if (run grammar n a s).isSome then some s else none
    | .absent a => if (run grammar n a s).isSome then none else some s

/-! ### Tokens -/

def read (kind : Leaf) (reads : Reads) : Rule σ := step (.token kind reads)

def glued (kind : Leaf) (reads : Reads) : Rule σ := step (.glued kind reads)

/-- The given punctuation. -/
def mark (s : String) : Rule σ := read .mark (Lexeme.exactly s.toList)

/-- The given keyword. -/
def keyword (s : String) : Rule σ := read .mark (Lexeme.word s)

/-- The given operator, where it is no part of a longer one. -/
def operator (s : String) : Rule σ := read .mark (Lexeme.operator s.toList)

/-- Any name. -/
def anyName : Rule σ := read .name Lexeme.name

/-! ### Parts in a row -/

def opt (a : Rule σ) : Rule σ := alt a empty

/-- `a` and what follows it, or nothing where `a` does not stand. -/
def optThen (a b : Rule σ) : Rule σ := (present a ++ a ++ b) <|> absent a

/-- The first of the rules that fits. -/
def anyOf : List (Rule σ) → Rule σ
  | [] => absent empty
  | [a] => a
  | a :: as => alt a (anyOf as)

/-- What stands between separators, each possibly absent. -/
def separated (sep a : Rule σ) : Rule σ := opt a ++ many (sep ++ opt a)

/-! ### Nodes -/

def gap (g : Gap) : Rule σ := step (.gap g)

/-- A node of its own, behind the comments before it. -/
def node (k : Kind) (a : Rule σ) : Rule σ := gap {} ++ step .opening ++ a ++ step (.finish k)

/-- A node that starts with the last `n` trees. -/
def wrap (k : Kind) (n : Nat) (a : Rule σ) : Rule σ := step (.adopt n) ++ a ++ step (.finish k)

def recast (r : Recast) : Rule σ := step (.recast r)

def last (p : Tree → Bool) : Rule σ := step (.last p)

end Rule

end ServerSplit.Js
