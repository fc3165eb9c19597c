import ServerSplit.Js.Repair.Lookahead

/-! Pieces of a text as the automaton reads them, with what was skipped or added to make them fit and
the cost of that. -/
namespace ServerSplit.Js.Repair

inductive Label
  | token (i : Nat)
  | part (i : Nat)
  /-- What does not fit. -/
  | error
  /-- Tokens that are skipped and may belong to a larger error. -/
  | skipped
  deriving Repr, DecidableEq, Inhabited

inductive Piece
  | mk (label : Label) (before start stop : Spot) (children : List Piece) (isExtra isMissing : Bool)
    (isVisible : Bool) (cost : Nat) (weight : Int) (visibleBelow visibleChildren : Nat)
  deriving Inhabited

/-! ### What repairs cost -/

def costOfRepair : Nat := 500

def costOfMissing : Nat := 110

def costOfSkippedTree : Nat := 100

def costOfSkippedLine : Nat := 30

namespace Piece

def label : Piece → Label | mk l .. => l

def before : Piece → Spot | mk _ b .. => b

def start : Piece → Spot | mk _ _ s .. => s

def stop : Piece → Spot | mk _ _ _ s .. => s

def children : Piece → List Piece | mk _ _ _ _ cs .. => cs

def isExtra : Piece → Bool | mk _ _ _ _ _ e .. => e

def isMissing : Piece → Bool | mk _ _ _ _ _ _ m .. => m

def isVisible : Piece → Bool | mk _ _ _ _ _ _ _ v .. => v

def cost : Piece → Nat | mk _ _ _ _ _ _ _ _ c .. => c

/-- The weight of the reading, more for a better one. -/
def weight : Piece → Int | mk _ _ _ _ _ _ _ _ _ w .. => w

/-- The number of pieces below that appear in a tree. -/
def visibleBelow : Piece → Nat | mk _ _ _ _ _ _ _ _ _ _ n _ => n

/-- Those of them that do so directly below. -/
def visibleChildren : Piece → Nat | mk _ _ _ _ _ _ _ _ _ _ _ n => n

def asExtra : Piece → Piece | mk l b s e cs _ m v c w n k => mk l b s e cs true m v c w n k

def asVisible : Piece → Piece | mk l b s e cs x m _ c w n k => mk l b s e cs x m true c w n k

def addWeight (d : Int) : Piece → Piece
  | mk l b s e cs x m v c w n k => mk l b s e cs x m v c (w + d) n k

def isError (p : Piece) : Bool := p.label = .error

/-- The number of bytes from the blanks before the piece to its end. -/
def bytes (p : Piece) : Nat := p.stop.offset - p.before.offset

def rows (p : Piece) : Nat := p.stop.row - p.before.row

/-- The number of pieces that the piece adds to a tree. -/
def size (p : Piece) : Nat :=
  p.visibleBelow + (if p.isVisible then 1 else 0) + (if p.label = .skipped then 1 else 0)

def isVisibleToken (i : Nat) : Bool :=
  match terminals[i]? with
  | some .ending | some .insertedSemicolon | some .templateText | some .question | none => false
  | some _ => true

def ofToken (i : Nat) (before start stop : Spot) : Piece :=
  mk (.token i) before start stop [] (i = Terminal.ending.index) false (isVisibleToken i) 0 0 0 0

def ofError (before start stop : Spot) : Piece :=
  mk .error before start stop [] false false true 0 0 0 0

/-- A token that is missing at `s`. -/
def ofMissing (i : Nat) (s : Spot) : Piece :=
  mk (.token i) s s s [] false true (isVisibleToken i) (costOfMissing + costOfRepair) 0 0 0

/-- What skipping a child costs. -/
def costOfSkipping (c : Piece) : Nat :=
  if c.isExtra || (c.isError && c.children.isEmpty) then 0
  else if c.isVisible then costOfSkippedTree
  else costOfSkippedTree * c.visibleChildren

/-- A piece of the given parts, which stands at `s` if it has none. -/
def ofChildren (label : Label) (isVisible : Bool) (children : List Piece) (s : Spot) : Piece :=
  let (before, start) := match children with
    | [] => (s, s)
    | c :: _ => (c.before, c.start)
  let stop := (children.getLast?.map (·.stop)).getD s
  let isBroken := label = .error || label = .skipped
  let count := fun f : Piece → Nat => children.foldl (fun n c => n + f c) 0
  let inner := count fun c => if c.label = .skipped then 0 else c.cost
  let skipped :=
    if isBroken then
      count costOfSkipping + costOfRepair + (stop.offset - start.offset) +
        costOfSkippedLine * (stop.row - start.row)
    else 0
  mk label before start stop children false false isVisible (inner + skipped)
    (children.foldl (fun w c => w + c.weight) 0)
    (count fun c => c.visibleBelow + if c.isVisible then 1 else 0)
    (count fun c => if c.isVisible then 1 else c.visibleChildren)

/-- What does not fit, as one piece. -/
def ofBroken (children : List Piece) (s : Spot) : Piece := ofChildren .error true children s

def ofSkipped (children : List Piece) (s : Spot) : Piece := ofChildren .skipped false children s

/-- Children that are shown under a name are visible. -/
def showAll : List (Option String) → List Piece → List Piece
  | _, [] => []
  | names, c :: cs =>
    if c.isExtra then c :: showAll names cs
    else (if (names.head?.join).isSome then c.asVisible else c) :: showAll names.tail cs

def isVisiblePart (i : Nat) : Bool :=
  match categories[i]? with
  | some c => !isHidden c
  | none => false

/-- A phrase of a category with its parts shown under the given names. -/
def ofPhrase (part : Nat) (shown : List (Option String)) (children : List Piece) (s : Spot) : Piece :=
  ofChildren (.part part) (isVisiblePart part) (showAll shown children) s

/-- Whether the second of two readings of the same text is taken: the cheaper one, then the heavier one,
and with errors in both the later one. -/
def isBetter (a b : Piece) : Bool :=
  if a.cost ≠ b.cost then b.cost < a.cost
  else if a.weight ≠ b.weight then a.weight < b.weight
  else 0 < a.cost

mutual

/-- The start of the first error in a piece, in the order of its tree. -/
def firstError : Piece → Option Nat
  | mk l _ s _ cs _ m v c .. =>
    if l = .error || (m && v) then some s.offset
    else if c = 0 then none
    else firstErrorIn cs

def firstErrorIn : List Piece → Option Nat
  | [] => none
  | c :: cs => (firstError c).or (firstErrorIn cs)

end

end Piece

end ServerSplit.Js.Repair
