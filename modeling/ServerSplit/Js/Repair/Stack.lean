import ServerSplit.Js.Repair.Piece

/-! Stacks that share what they have in common. Each version of the reading so far is a path through
linked nodes; where versions meet in a state at the same place, they become one. -/
namespace ServerSplit.Js.Repair

structure Link where
  node : Nat
  /-- The piece on the way to the node, or none behind an error. -/
  piece : Option Piece
  deriving Inhabited

structure Node where
  state : Nat
  links : Array Link := #[]
  spot : Spot
  cost : Nat := 0
  /-- The number of pieces of trees on the way to the first node. -/
  size : Nat := 0
  weight : Int := 0
  deriving Inhabited

inductive Status
  | active
  /-- Has met an error and waits. -/
  | paused
  | halted
  deriving Repr, DecidableEq, Inhabited

/-- A state to return to, so many pieces deep in the stack. -/
structure Landing where
  spot : Spot
  depth : Nat
  state : Nat
  deriving Inhabited

structure Version where
  node : Nat
  status : Status := .active
  /-- The size of the node at which the last error was met. -/
  sizeAtError : Nat := 0
  landings : List Landing := []
  /-- The token at which the version is paused. -/
  token : Option Piece := none
  deriving Inhabited

structure Session where
  automaton : Automaton
  nodes : Array Node
  versions : Array Version
  /-- The best reading of the whole text. -/
  finished : Option Piece := none
  accepted : Nat := 0

/-- A step of a session. -/
abbrev Session.Act := StateM Session

/-! ### Limits -/

def maxVersions : Nat := 6

def maxSurplus : Nat := 4

def maxLinks : Nat := 8

def maxWalkers : Nat := 64

namespace Session

def node (i : Nat) : Act Node := return (← get).nodes.getD i default

def version (v : Nat) : Act Version := return (← get).versions.getD v default

def versionCount : Act Nat := return (← get).versions.size

def nodeOf (v : Nat) : Act Node := do node (← version v).node

def stateOf (v : Nat) : Act Nat := return (← nodeOf v).state

def addNode (n : Node) : Act Nat :=
  modifyGet fun s => (s.nodes.size, { s with nodes := s.nodes.push n })

def modifyNode (i : Nat) (f : Node → Node) : Act Unit :=
  modify fun s => { s with nodes := s.nodes.modify i f }

def modifyVersion (v : Nat) (f : Version → Version) : Act Unit :=
  modify fun s => { s with versions := s.versions.modify v f }

def setStatus (v : Nat) (status : Status) : Act Unit := modifyVersion v ({ · with status })

def addVersion (n : Version) : Act Nat :=
  modifyGet fun s => (s.versions.size, { s with versions := s.versions.push n })

def removeVersion (v : Nat) : Act Unit :=
  modify fun s => { s with versions := s.versions.eraseIdxIfInBounds v }

/-- The row of a state. -/
def row (state : Nat) : Act Row :=
  modifyGet fun s =>
    let (r, a) := s.automaton.row state
    (r, { s with automaton := a })

def actionsAt (state token : Nat) : Act (List Action) := return (← row state).at token

/-- The state behind a token, zero if there is none. -/
def afterToken (state token : Nat) : Act Nat := do
  match (← actionsAt state token).getLast? with
  | some (.shift next _) => return next
  | some .extra => return state
  | _ => return 0

/-- Pushes a piece, or the mark of an error. -/
def push (v : Nat) (piece : Option Piece) (state : Nat) : Act Unit := do
  let below := (← version v).node
  let n ← node below
  let link : Link := ⟨below, piece⟩
  let i ← addNode (match piece with
    | none => { n with state, links := #[link] }
    | some p =>
      { state, links := #[link], spot := if n.spot.offset < p.stop.offset then p.stop else n.spot
        cost := n.cost + p.cost, size := n.size + p.size, weight := n.weight + p.weight })
  modifyVersion v fun x =>
    { x with node := i, sizeAtError := if piece.isNone then n.size else x.sizeAtError }

/-- Gives version `v` the stack of version `w`, which is gone then. -/
def replace (v w : Nat) : Act Unit := do
  if v ≠ w then
    let old ← version v
    let new ← version w
    let landings := if new.landings.isEmpty then old.landings else new.landings
    modifyVersion v fun _ => { new with landings }
    removeVersion w

def copyVersion (v : Nat) : Act Nat := do
  addVersion { (← version v) with landings := [] }

/-! ### Merging -/

/-- Whether two links read the same. -/
def sameReading : Option Piece → Option Piece → Bool
  | none, none => true
  | some a, some b =>
    a.label = b.label &&
      ((0 < a.cost && 0 < b.cost) ||
        (a.start.offset - a.before.offset = b.start.offset - b.before.offset &&
          a.stop.offset - a.start.offset = b.stop.offset - b.start.offset &&
          a.children.length = b.children.length && a.isExtra = b.isExtra))
  | _, _ => false

/-- Adds a link to a node, unless it has one that reads the same; the fuel bounds how deep nodes are
merged in turn. -/
def addLink : Nat → Nat → Link → Act Unit
  | 0, _, _ => return
  | fuel + 1, i, link => do
    if link.node = i then return
    let n ← node i
    let below ← node link.node
    let weight := below.weight + (link.piece.map Piece.weight).getD 0
    for (old, k) in n.links.toList.zipIdx do
      if sameReading old.piece link.piece then
        if old.node = link.node then
          match old.piece, link.piece with
          | some p, some q =>
            if p.weight < q.weight then
              modifyNode i fun n => { n with links := n.links.setIfInBounds k link, weight }
          | _, _ => pure ()
          return
        let other ← node old.node
        if other.state = below.state && other.spot.offset = below.spot.offset &&
            other.cost = below.cost then
          for l in below.links do
            addLink fuel old.node l
          modifyNode i fun n => { n with weight := max n.weight weight }
          return
    if n.links.size < maxLinks then
      let size := below.size + (link.piece.map Piece.size).getD 0
      modifyNode i fun n =>
        { n with links := n.links.push link, size := max n.size size, weight := max n.weight weight }

def canMerge (v w : Nat) : Act Bool := do
  let a ← nodeOf v
  let b ← nodeOf w
  return (← version v).status = .active && (← version w).status = .active && a.state = b.state &&
    a.spot.offset = b.spot.offset && a.cost = b.cost

/-- Merges version `w` into `v`, if both are in the same state at the same place at the same cost. -/
def merge (v w : Nat) : Act Bool := do
  if ← canMerge v w then
    let i := (← version v).node
    for l in (← nodeOf w).links do
      addLink (← get).nodes.size i l
    let n ← node i
    if n.state = errorState then
      modifyVersion v ({ · with sizeAtError := n.size })
    removeVersion w
    return true
  else return false

/-! ### Walking down -/

/-- A walk from the top of a stack: the pieces passed, the deepest first, and their number without
comments. -/
structure Walker where
  node : Nat
  pieces : List Piece := []
  depth : Nat := 0

/-- What to do at a node of a walk. -/
structure Visit where
  /-- The walk so far is one of the results. -/
  taken : Bool := false
  stops : Bool := false

/-- The ways on from a node. -/
def Walker.step (w : Walker) (l : Link) : Walker :=
  { node := l.node
    pieces := match l.piece with | none => w.pieces | some p => p :: w.pieces
    depth := match l.piece with | some p => if p.isExtra then w.depth else w.depth + 1 | none => w.depth + 1 }

/-- Walks down all paths of a stack at once and gives the walks taken, in order. The fuel is more than the
length of a path. -/
def walk {σ : Type} (visit : σ → Walker → Node → σ × Visit) :
    Nat → σ → List Walker → List Walker → Act (σ × List Walker)
  | 0, seen, _, taken => return (seen, taken.reverse)
  | _, seen, [], taken => return (seen, taken.reverse)
  | fuel + 1, seen, walkers, taken => do
    let mut seen := seen
    let mut taken := taken
    let mut kept := #[]
    let mut forks := #[]
    let mut room := maxWalkers - walkers.length
    for w in walkers do
      let n ← node w.node
      let (seen', r) := visit seen w n
      seen := seen'
      if r.taken then taken := w :: taken
      match n.links.toList with
      | [] => room := room + 1
      | first :: others =>
        if r.stops then room := room + 1
        else
          for l in others do
            if 0 < room then
              forks := forks.push (w.step l)
              room := room - 1
          kept := kept.push (w.step first)
    walk visit fuel seen (kept ++ forks).toList taken

/-- A version for each walk taken, walks that end at the same node sharing theirs, next to one another. -/
def split (v : Nat) (walks : List Walker) : Act (List (Nat × List Piece)) := do
  let old ← version v
  let mut slices : List (Nat × Nat × List Piece) := []
  for w in walks do
    match slices.reverse.find? (·.1 = w.node) with
    | some (_, u, _) =>
      let tail := slices.reverse.takeWhile (·.1 ≠ w.node)
      let head := slices.take (slices.length - tail.length)
      slices := head ++ [(w.node, u, w.pieces)] ++ tail.reverse
    | none =>
      let u ← addVersion { node := w.node, sizeAtError := old.sizeAtError }
      slices := slices ++ [(w.node, u, w.pieces)]
  return slices.map (·.2)

/-- All walks down from a version that a visitor takes, each with a version of its own. -/
def pop {σ : Type} (v : Nat) (visit : σ → Walker → Node → σ × Visit) (start : σ) :
    Act (List (Nat × List Piece)) := do
  let top := (← version v).node
  let (_, walks) ← walk visit ((← get).nodes.size + 1) start [{ node := top }] []
  split v walks

/-- Pops `n` pieces that are no comments. -/
def popCount (v n : Nat) : Act (List (Nat × List Piece)) :=
  pop v (fun _ w _ => ((), ⟨w.depth = n, w.depth = n⟩)) ()

def popAll (v : Nat) : Act (List (Nat × List Piece)) :=
  pop v (fun _ _ n => ((), ⟨n.links.isEmpty, false⟩)) ()

/-- Pops the error at the top of a version, if there is one. -/
def popError (v : Nat) : Act (List Piece) := do
  if (← nodeOf v).links.any fun l => l.piece.any Piece.isError then
    let slices ← pop v (fun found w _ =>
      match w.pieces with
      | [] => (found, ⟨false, false⟩)
      | p :: _ => (found || p.isError, ⟨!found && p.isError, true⟩)) false
    match slices with
    | (u, pieces) :: _ =>
      replace v u
      return pieces
    | [] => return []
  else return []

/-- The states to return to after an error, at most `deepest` pieces deep. -/
def landings (v deepest : Nat) : Act (List Landing) := do
  let top := (← version v).node
  let (found, _) ← walk (fun found w n =>
    if deepest < w.depth then (found, { stops := true })
    else if (found.takeWhile fun l => w.depth ≤ l.depth).any
        fun l => l.depth = w.depth && l.state = n.state then (found, {})
    else (⟨n.spot, w.depth, n.state⟩ :: found, {})) ((← get).nodes.size + 1) ([] : List Landing)
      [{ node := top }] []
  return found.reverse

end Session

end ServerSplit.Js.Repair
