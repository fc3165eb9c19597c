import ServerSplit.Js.Repair.Stack

/-! Reading a text with repairs. Where a version of the reading meets a token that does not fit, a missing
token is put in, or the reading returns to an earlier state and what lies between becomes an error, or the
token is skipped. The versions compete by the cost of their repairs. -/
namespace ServerSplit.Js.Repair

/-- How deep the states lie to which a reading returns. -/
def deepestLanding : Nat := 16

/-- A version is given up where another is ahead by more than this. -/
def maxCostDifference : Nat := 18 * costOfSkippedTree

/-- How far versions have come. -/
structure Standing where
  cost : Nat
  /-- The number of pieces read since the last error. -/
  sizeSinceError : Nat
  weight : Int
  isInError : Bool

/-- Which of two versions goes on: one may be so much better that the other is given up. -/
inductive Verdict
  | takeLeft
  | preferLeft
  | neither
  | preferRight
  | takeRight
  deriving DecidableEq

def Standing.compare (a b : Standing) : Verdict :=
  if !a.isInError && b.isInError then if a.cost < b.cost then .takeLeft else .preferLeft
  else if a.isInError && !b.isInError then if b.cost < a.cost then .takeRight else .preferRight
  else if a.cost < b.cost then
    if maxCostDifference < (b.cost - a.cost) * (1 + a.sizeSinceError) then .takeLeft else .preferLeft
  else if b.cost < a.cost then
    if maxCostDifference < (a.cost - b.cost) * (1 + b.sizeSinceError) then .takeRight else .preferRight
  else if b.weight < a.weight then .preferLeft
  else if a.weight < b.weight then .preferRight
  else .neither

namespace Session

/-- The cost of a version, with that of the error that it is in. -/
def costOf (v : Nat) : Act Nat := do
  let x ← version v
  let n ← nodeOf v
  let isAtMark := n.state = errorState && (n.links[0]?.any (·.piece.isNone) || n.links.isEmpty)
  return n.cost + if x.status = .paused || isAtMark then costOfRepair else 0

def sizeSinceError (v : Nat) : Act Nat := do
  let n ← nodeOf v
  modifyVersion v fun x => { x with sizeAtError := min x.sizeAtError n.size }
  return n.size - (← version v).sizeAtError

def standing (v : Nat) : Act Standing := do
  let isPaused := (← version v).status = .paused
  let n ← nodeOf v
  return {
    cost := (← costOf v) + if isPaused then costOfSkippedTree else 0
    sizeSinceError := ← sizeSinceError v
    weight := n.weight
    isInError := isPaused || n.state = errorState }

/-- Whether a version has read anything since its last error. -/
def hasAdvanced (v : Nat) : Act Bool := do
  let x ← version v
  if (← nodeOf v).cost = 0 then return true
  let mut i := x.node
  for _ in [0:(← get).nodes.size] do
    let n ← node i
    match n.links[0]?.map fun l => (l.node, l.piece) with
    | some (below, some p) =>
      if 0 < p.bytes then return true
      else if x.sizeAtError < n.size && p.cost = 0 then i := below
      else return false
    | _ => return false
  return false

/-- Whether some other version is so much better that going on at the given cost is of no use. -/
def isHopeless (v : Nat) (isInError : Bool) (cost : Nat) : Act Bool := do
  if (← get).finished.any (·.cost ≤ cost) then return true
  let n ← nodeOf v
  let here : Standing := ⟨cost, ← sizeSinceError v, n.weight, isInError⟩
  for i in [0:← versionCount] do
    if i ≠ v && (← version i).status = .active && n.spot.offset ≤ (← nodeOf i).spot.offset then
      match here.compare (← standing i) with
      | .takeRight => return true
      | .preferRight => if ← canMerge i v then return true
      | _ => pure ()
  return false

/-- The next token of a version in a state. -/
def lookahead (v state : Nat) : Act Lookahead := do
  let s := (← nodeOf v).spot
  let r ← row state
  let errors ← row errorState
  let advanced ← hasAdvanced v
  let after := fun token => match (r.at token).getLast? with
    | some (.shift next _) => next
    | some .extra => state
    | _ => 0
  return Lookahead.read r errors (fun token => advanced && after token ≠ state) s

def pieceOf (l : Lookahead) : Piece :=
  match l.token with
  | some i => .ofToken i l.before l.start l.stop
  | none => .ofError l.before l.start l.stop

def tokenOf (p : Piece) : Option Nat :=
  match p.label with
  | .token i => some i
  | _ => none

/-- The actions of a state at a piece. -/
def actionsFor (state : Nat) (p : Piece) : Act (List Action) :=
  match tokenOf p with
  | some i => actionsAt state i
  | none => return []

/-! ### Reading on -/

/-- The pieces without the comments at their end, and these. -/
def splitExtras (ps : List Piece) : List Piece × List Piece :=
  let extras := (ps.reverse.takeWhile Piece.isExtra).reverse
  (ps.take (ps.length - extras.length), extras)

/-- Slices of a stack in groups of the same version. -/
def grouped (slices : List (Nat × List Piece)) : List (Nat × List (List Piece)) :=
  slices.foldr (fun (v, ps) groups =>
    match groups with
    | (u, pss) :: rest => if u = v then (v, ps :: pss) :: rest else (v, [ps]) :: groups
    | [] => [(v, [ps])]) []

/-- Makes a phrase of the last parts of a version. Gives the first new version, if one is left. -/
def reduce (v part : Nat) (shown : List (Option String)) (weight : Int) : Act (Option Nat) := do
  let before ← versionCount
  let mut removed := 0
  for (u, slices) in grouped (← popCount v shown.length) do
    let u := u - removed
    if maxVersions + maxSurplus < u then
      removeVersion u
      removed := removed + 1
    else
      let n ← nodeOf u
      let phrase := fun ps =>
        let (inner, extras) := splitExtras ps
        (Piece.ofPhrase part shown inner n.spot, extras)
      let best := (slices.map phrase).foldl (fun best p =>
        match best with
        | none => some p
        | some b => if Piece.isBetter b.1 p.1 then some p else some b) (none : Option (Piece × List Piece))
      match best with
      | none => pure ()
      | some (p, extras) =>
        let next := (← row n.state).behind.getD part 0
        push u (some (p.addWeight weight)) next
        for e in extras do
          push u (some e) next
        for w in [0:u] do
          if w ≠ v then
            if ← merge w u then
              removed := removed + 1
              break
  return if before < (← versionCount) then some before else none

/-- The whole text is read. -/
def accept (v : Nat) (last : Piece) : Act Unit := do
  push v (some last) startState
  let slices ← popAll v
  for (_, pieces) in slices do
    let behind := (pieces.reverse.takeWhile Piece.isExtra).reverse
    let rest := pieces.reverse.dropWhile Piece.isExtra
    match rest with
    | [] => pure ()
    | p :: before =>
      let isVisible := p.isVisible
      let root := Piece.ofChildren p.label isVisible (before.reverse ++ p.children ++ behind) p.before
      modify fun s => { s with
        accepted := s.accepted + 1
        finished := match s.finished with
          | none => some root
          | some old => if Piece.isBetter old root then some root else some old }
  match slices with
  | (u, _) :: _ => removeVersion u
  | [] => pure ()
  setStatus v .halted

/-! ### Repairing -/

/-- The tokens to try: the one given, or all. -/
def candidates : Option Nat → List Nat
  | some i => [i]
  | none => (List.range terminals.length).drop 1

/-- Makes all reductions that are possible in version `start` and those that come of it, at the given
token or at any. Whether the token, or any, can be read then. -/
def reduceAll (start : Nat) (token : Option Nat) : Act Bool := do
  let before ← versionCount
  let mut canRead := false
  let mut v := start
  for i in [0:1000] do
    let count ← versionCount
    if count ≤ v then break
    let mut merged := false
    for w in [before:v] do
      if ← merge w v then
        merged := true
        break
    if merged then continue
    let state ← stateOf v
    let r ← row state
    let mut reads := false
    let mut reductions : List (Nat × List (Option String) × Int) := []
    for c in candidates token do
      for a in r.at c do
        match a with
        | .shift _ repeats => if !repeats then reads := true
        | .recover => reads := true
        | .reduce part shown weight =>
          if !shown.isEmpty &&
              !reductions.any fun x => x.1 = part && x.2.1.length = shown.length then
            reductions := reductions ++ [(part, shown, weight)]
        | _ => pure ()
    let mut last : Option Nat := none
    for (part, shown, weight) in reductions do
      last ← reduce v part shown weight
    if reads then canRead := true
    else
      match last with
      | some u =>
        if i < maxVersions then
          replace v u
          continue
        else if token.isSome then removeVersion v
      | none => if token.isSome then removeVersion v
    if v = start then v := count else v := v + 1
  return canRead

/-- Returns to a state so many pieces deep. What was read since becomes an error. -/
def returnTo (v depth state : Nat) : Act Bool := do
  let mut last : Option Nat := none
  for (u, pieces) in ← popCount v depth do
    if last = some u then continue
    if (← stateOf u) ≠ state then
      setStatus u .halted
      continue
    let errors ← popError u
    let inner := (errors.head?.map Piece.children).getD []
    let (ps, extras) := splitExtras (inner ++ pieces)
    if !ps.isEmpty then
      push u (some (Piece.ofBroken ps (← nodeOf u).spot).asExtra) state
    for e in extras do
      push u (some e) state
    last := some u
  return last.isSome

/-- Drops the halted versions from the given one on. -/
def dropHalted (start : Nat) : Act Unit :=
  modify fun s => { s with
    versions := s.versions.take start ++ (s.versions.drop start).filter (·.status = .active) }

/-- Skips a token. -/
def skip (v : Nat) (token : Piece) (hasRead : Bool) : Act Unit := do
  let s := (← nodeOf v).spot
  let isExtra := (tokenOf token).any Automaton.isExtra
  let one := Piece.ofSkipped [if isExtra then token.asExtra else token] s
  if hasRead then
    match ← popCount v 1 with
    | [] => push v (some one) errorState
    | (u, pieces) :: _ =>
      modify fun s => { s with versions := s.versions.take (u + 1) }
      replace v u
      push v (some (Piece.ofSkipped (pieces ++ [one]) s)) errorState
  else push v (some one) errorState

/-- Goes on from an error at a token: returns to an earlier state at which the token fits, and skips the
token as well. -/
def recover (v : Nat) (token : Piece) : Act Unit := do
  let before ← versionCount
  let here := (← nodeOf v).spot
  let size ← sizeSinceError v
  let cost ← costOf v
  let mut returned := false
  if !token.isError then
    for l in (← version v).landings do
      if l.state = errorState || l.spot.offset = here.offset then continue
      let mut meets := false
      for w in [0:before] do
        let n ← nodeOf w
        if n.state = l.state && n.spot.offset = here.offset then
          meets := true
          break
      if meets then continue
      let newCost := cost + costOfSkippedTree * l.depth + (here.offset - l.spot.offset) +
        costOfSkippedLine * (here.row - l.spot.row)
      if ← isHopeless v false newCost then break
      if !(← actionsFor l.state token).isEmpty then
        if ← returnTo v (if 0 < size then l.depth + 1 else l.depth) l.state then
          returned := true
          break
  dropHalted before
  if returned && maxVersions < (← versionCount) then setStatus v .halted
  else if tokenOf token = some Terminal.ending.index then
    push v (some (Piece.ofBroken [] here)) startState
    accept v token
  else if ← isHopeless v false (cost + costOfSkippedTree + token.bytes + costOfSkippedLine * token.rows)
    then setStatus v .halted
  else skip v token (0 < size)

/-- Puts in a token that is missing before the given one, if that helps. -/
def insertMissing (v : Nat) (token : Piece) : Act Bool := do
  let state ← stateOf v
  let s := (← nodeOf v).spot
  for missing in candidates none do
    let next ← afterToken state missing
    if next ≠ 0 && next ≠ state then
      match (← actionsFor next token).head? with
      | some (.reduce ..) =>
        let w ← copyVersion v
        push w (some (.ofMissing missing s)) next
        let given := (tokenOf token).filter (· ≠ Terminal.ending.index)
        if ← reduceAll w given then return true
      | _ => pure ()
  return false

/-- Deals with a token that does not fit. -/
def handleError (v : Nat) (token : Piece) : Act Unit := do
  let before ← versionCount
  let _ ← reduceAll v none
  let count ← versionCount
  let mut inserted := false
  for w in v :: (List.range count).drop before do
    if !inserted then inserted ← insertMissing w token
    push w none errorState
  for _ in [before:count] do
    let _ ← merge v before
  let found ← landings v deepestLanding
  modifyVersion v ({ · with landings := found })
  recover v token

/-! ### The competition -/

/-- Reads the next token of a version. -/
def advance (v : Nat) : Act Unit := do
  let mut state ← stateOf v
  let l ← lookahead v state
  let mut token := pieceOf l
  let mut actions ← actionsFor state token
  for _ in [0:1000] do
    let mut reduced := false
    let mut last : Option Nat := none
    for a in actions do
      match a with
      | .shift next repeats =>
        if !repeats then
          push v (some token) next
          return
      | .extra =>
        push v (some token.asExtra) state
        return
      | .reduce part shown weight =>
        reduced := true
        match ← reduce v part shown weight with
        | some u => last := some u
        | none => pure ()
      | .accept => return ← accept v token
      | .recover => return ← recover v token
    match last with
    | some u =>
      replace v u
      state ← stateOf v
      actions ← actionsFor state token
      continue
    | none => pure ()
    if reduced then return ← setStatus v .halted
    if l.isWord && tokenOf token ≠ some Terminal.name.index then
      let asName := Piece.ofToken Terminal.name.index l.before l.start l.stop
      let others ← actionsFor state asName
      if !others.isEmpty then
        token := asName
        actions := others
        continue
    if state = errorState then return ← recover v token
    let n ← nodeOf v
    modifyVersion v ({ · with status := .paused, token := some token, sizeAtError := n.size })
    return

/-- Sets version `v` against those before it, from `w` on. Gives the version that comes next. -/
def contest (here : Standing) : Nat → Nat → Nat → Act Nat
  | 0, v, _ => return v + 1
  | fuel + 1, v, w => do
    if v ≤ w then return v + 1
    match (← standing w).compare here with
    | .takeLeft =>
      removeVersion v
      return v
    | .preferLeft | .neither => if ← merge w v then return v else contest here fuel v (w + 1)
    | .preferRight =>
      if ← merge w v then return v
      modify fun s => { s with versions := s.versions.swapIfInBounds v w }
      contest here fuel v (w + 1)
    | .takeRight =>
      removeVersion w
      contest here fuel (v - 1) w

/-- Drops the versions that are given up and gives the least cost of one that is in no error. -/
def compete : Nat → Nat → Option Nat → Act (Option Nat)
  | 0, _, least => return least
  | fuel + 1, v, least => do
    if (← versionCount) ≤ v then return least
    if (← version v).status = .halted then
      removeVersion v
      compete fuel v least
    else
      let here ← standing v
      let least := if here.isInError then least else some (least.elim here.cost (min here.cost))
      let next ← contest here (v + 1) v 0
      compete fuel next least

/-- Repairs the first paused version, if no version before it goes on. -/
def resume : Nat → Nat → Nat → Bool → Option Nat → Act (Option Nat)
  | 0, _, _, _, least => return least
  | fuel + 1, v, count, goesOn, least => do
    if count ≤ v then return least
    let x ← version v
    if x.status = .paused then
      if !goesOn && (← get).accepted < maxVersions then
        let cost ← costOf v
        modifyVersion v ({ · with status := .active, token := none })
        match x.token with
        | some token => handleError v token
        | none => pure ()
        resume fuel (v + 1) count true (some cost)
      else
        removeVersion v
        resume fuel v (count - 1) goesOn least
    else resume fuel (v + 1) count true least

/-- Lets the versions compete and repairs, where none goes on. The least cost of a version. -/
def settle : Act (Option Nat) := do
  let least ← compete (2 * (← versionCount) + 2) 0 none
  modify fun s => { s with versions := s.versions.take maxVersions }
  let count ← versionCount
  resume (count + 1) 0 count false least

/-- Reads with one version until it is ahead of the others. -/
def runVersion (v : Nat) : Nat → Nat → Act Nat
  | 0, ahead => return ahead
  | fuel + 1, ahead => do
    if (← versionCount) ≤ v then return ahead
    if (← version v).status ≠ .active then return ahead
    advance v
    if (← versionCount) ≤ v then return ahead
    let here := (← nodeOf v).spot.offset
    if ahead < here || (0 < v && here = ahead) then return here
    runVersion v fuel ahead

/-- One turn of all versions. -/
def turn (fuel : Nat) : Nat → Nat → Nat → Act Nat
  | 0, _, ahead => return ahead
  | n + 1, v, ahead => do
    if (← versionCount) ≤ v then return ahead
    turn fuel n (v + 1) (← runVersion v fuel ahead)

/-- Reads the whole text, at most `fuel` turns long. -/
def run : Nat → Nat → Act Unit
  | 0, _ => return
  | fuel + 1, ahead => do
    let ahead ← turn 1000 1000 0 ahead
    let count ← versionCount
    let least ← settle
    let isBest := match (← get).finished, least with
      | some p, some cost => p.cost < cost
      | some _, none => true
      | none, _ => false
    if !isBest && 0 < count then run fuel ahead

end Session

/-- The automaton of the grammar; it is built when it is first needed. -/
def javascript : Thunk Automaton := .mk fun _ => .ofTable Grammar.ofPhrases.table

/-- The first error of a text, with repairs at the least cost found: the byte at which it starts. -/
def firstError (t : Text) : Nat :=
  let first : Node := { state := startState, spot := { rest := t } }
  let start : Session :=
    { automaton := javascript.get, nodes := #[first], versions := #[{ node := 0 }] }
  let last : Unit × Session := Session.run (16 * (t.length + 16)) 0 start
  match last.2.finished with
  | none => 0
  | some p => (p.firstError).getD p.start.offset

end ServerSplit.Js.Repair
