import ServerSplit.Js.Repair.Production
import Std.Data.HashMap

/-! Items: productions read up to some step. Items that differ only in what was read, and not in its
guise, are one and the same. -/
namespace ServerSplit.Js.Repair

/-- Sets of terminals as the bits of a number. -/
abbrev Tokens := Nat

namespace Tokens

def single (i : Nat) : Tokens := 1 <<< i

def contains (s : Tokens) (i : Nat) : Bool := s.testBit i

def union (s t : Tokens) : Tokens := s ||| t

def toList (s : Tokens) : List Nat := (List.range terminals.length).filter s.contains

end Tokens

structure Item where
  part : Nat
  /-- The guises of the steps read, last first. -/
  read : List Guise
  rest : List Step
  level : Option Level
  side : Option Side
  weight : Int
  deriving DecidableEq, Hashable, Inhabited

namespace Item

def ofProduction (part : Nat) (p : Production) : Item := ⟨part, [], p.steps, p.level, p.side, p.weight⟩

/-- The items of a production from its first step to its end. -/
def progress (i : Item) : List Item := go i.read i.rest
where
  go (read : List Guise) : List Step → List Item
    | [] => [{ i with read, rest := [] }]
    | s :: ss => { i with read, rest := s :: ss } :: go (s.guise :: read) ss

end Item

/-- An item with what its automaton asks of it. -/
structure Entry where
  part : Nat
  read : List Guise
  next : Option Symbol
  /-- The tokens that may start what stands behind the next step, if anything does. -/
  behind : Option Tokens
  /-- The item behind the next step. -/
  advanced : Nat
  level : Option Level
  side : Option Side
  weight : Int
  deriving Inhabited

/-- The items that may stand at the start of a category: with the tokens behind them, and whether what
follows the category may follow them too. -/
structure Opening where
  item : Nat
  follow : Tokens
  atEnd : Bool

structure Table where
  entries : Array Entry
  openings : Array (Array Opening)
  /-- The tokens that may start each category. -/
  first : Array Tokens

/-- The number of the category of a whole text. -/
def Table.whole (t : Table) : Nat := t.openings.size

/-- Whether a category is a row of phrases. -/
def Table.isRow (t : Table) (part : Nat) : Bool := rowCategory 0 ≤ part && part < t.whole

def firstOf (first : Array Tokens) : Symbol → Tokens
  | .terminal i => .single i
  | .part i => first.getD i 0

namespace Grammar

/-- One round of adding to each set the tokens that may start its productions. -/
def growFirst (g : Grammar) (first : Array Tokens) : Array Tokens :=
  g.mapIdx fun i ps =>
    ps.foldl (fun s p => match p.steps with
      | [] => s
      | a :: _ => s.union (firstOf first a.symbol)) (first.getD i 0)

/-- The tokens that may start each category; the chains of categories at the start of one another are
shorter than the number of rounds. -/
def first (g : Grammar) : Array Tokens :=
  (List.range g.size).foldl (fun first _ => growFirst g first) (g.map fun _ => 0)

/-- Follows the first steps of productions until nothing is added: what a category may start with, the
tokens behind that, and whether it may be all of the category. -/
def reach (g : Grammar) (first : Array Tokens) :
    Nat → List (Nat × Tokens × Bool) → Array (Option (Tokens × Bool)) →
      Array (Option (Tokens × Bool))
  | 0, _, found => found
  | _, [], found => found
  | fuel + 1, (part, tokens, atEnd) :: todo, found =>
    let old := found.getD part none
    let (oldTokens, oldEnd) := old.getD (0, false)
    let now := (oldTokens.union tokens, oldEnd || atEnd)
    if old = some now then g.reach first fuel todo found
    else
      let more := (g.getD part []).filterMap fun p =>
        match p.steps with
        | [⟨.part i, _⟩] => some (i, now)
        | ⟨.part i, _⟩ :: s :: _ => some (i, firstOf first s.symbol, false)
        | _ => none
      g.reach first fuel (more ++ todo) (found.setIfInBounds part (some now))

/-- All items of the productions, with that of a whole text at the head. -/
def items (g : Grammar) : List Item :=
  (Item.ofProduction g.size { steps := [{ symbol := .part Category.program.ctorIdx }] }).progress ++
    (g.toList.zipIdx.flatMap fun (ps, i) => ps.flatMap fun p => (Item.ofProduction i p).progress)

/-- Numbers the items of a list, equal ones alike. -/
def number (items : List Item) : Array Item × Std.HashMap Item Nat :=
  items.foldl (fun (seen, ids) item =>
    if ids.contains item then (seen, ids) else (seen.push item, ids.insert item seen.size)) (#[], ∅)

/-- More than the number of changes to a reach. -/
def reachFuel : Nat := 100000

def table (g : Grammar) : Table :=
  let (items, ids) := number g.items
  let first := g.first
  let entries := items.map fun i =>
    let advanced := match i.rest with
      | [] => i
      | s :: ss => { i with read := s.guise :: i.read, rest := ss }
    { part := i.part, read := i.read, next := i.rest.head?.map (·.symbol)
      behind := i.rest[1]?.map fun s => firstOf first s.symbol
      advanced := ids.getD advanced 0
      level := i.level, side := i.side, weight := i.weight : Entry }
  let openings := g.mapIdx fun i _ =>
    let found := g.reach first reachFuel [(i, 0, true)] (g.map fun _ => none)
    (found.toList.zipIdx.flatMap fun (r, part) =>
      match r with
      | none => []
      | some (follow, atEnd) => (g.getD part []).map fun p =>
          { item := ids.getD (.ofProduction part p) 0, follow, atEnd : Opening }).toArray
  { entries, openings, first }

end Grammar

end ServerSplit.Js.Repair
