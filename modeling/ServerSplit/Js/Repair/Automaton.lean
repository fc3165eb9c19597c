import ServerSplit.Js.Repair.Item

/-! The automaton of a grammar: its states are sets of items with the tokens that may follow them. A
state is worked out when it is first needed. Where a token allows several actions, precedence and
grouping decide, and what they leave open is kept. -/
namespace ServerSplit.Js.Repair

inductive Action
  /-- Reads the token. With `repeats` it would only regroup a row. -/
  | shift (state : Nat) (repeats : Bool)
  /-- The last `shown.length` parts are a phrase of the given category. -/
  | reduce (part : Nat) (shown : List (Option String)) (weight : Int)
  | accept
  /-- Passes over a comment. -/
  | extra
  /-- Skips the token, as what is before it has an error. -/
  | recover
  deriving Repr, DecidableEq, Inhabited

/-- Items with the tokens that may follow them, by increasing number. -/
abbrev Kernel := List (Nat × Tokens)

/-- What a state does at each token, and the state behind each category, zero if there is none. -/
structure Row where
  actions : Array (List Action)
  behind : Array Nat
  deriving Inhabited

structure Automaton where
  table : Table
  kernels : Array Kernel
  numbers : Std.HashMap Kernel Nat
  rows : Array (Option Row)

/-- The state behind an error, at which anything may stand. -/
def errorState : Nat := 0

def startState : Nat := 1

/-! ### Precedence -/

/-- Who takes part in a conflict: a level and the categories. -/
structure Rival where
  level : Option Level
  parts : List Nat

def Rival.isRanked (r : Rival) : Ranked → Bool
  | .level l => r.level = some l
  | .category c => r.parts.contains c.ctorIdx

/-- Whether the first rival binds tighter (`gt`) or the second. -/
def Rival.compare (a b : Rival) : Ordering :=
  (precedences.findSome? fun ranks => go ranks false false).getD .eq
where
  go : List Ranked → Bool → Bool → Option Ordering
    | [], _, _ => none
    | r :: rs, seenA, seenB =>
      if a.isRanked r then if seenB then some .lt else go rs true seenB
      else if b.isRanked r then if seenA then some .gt else go rs seenA true
      else go rs seenA seenB

/-- The level that an item brings into a conflict: none before its first step. -/
def Entry.boundLevel (e : Entry) : Option Level := if e.read.isEmpty then none else e.level

def Entry.boundSide (e : Entry) : Option Side := if e.read.isEmpty then none else e.side

/-- The reductions at one token that are left by precedence. -/
structure Reductions where
  actions : List Action := []
  rival : Rival := ⟨none, []⟩
  sides : List (Option Side) := []
  deriving Inhabited

def Reductions.add (r : Reductions) (action : Action) (e : Entry) : Reductions :=
  let alone := ⟨[action], ⟨e.boundLevel, [e.part]⟩, [e.boundSide]⟩
  if r.actions.isEmpty then alone
  else
    match Rival.compare ⟨e.boundLevel, [e.part]⟩ r.rival with
    | .gt => alone
    | .eq =>
      ⟨r.actions ++ [action], ⟨e.boundLevel, r.rival.parts.insert e.part⟩,
        e.boundSide :: r.sides⟩
    | .lt => r

/-! ### States -/

/-- All items of a state by number. -/
abbrev Closure := Array (Option Tokens)

def Closure.add (c : Closure) (item : Nat) (tokens : Tokens) : Closure :=
  c.setIfInBounds item (some (((c.getD item none).getD 0).union tokens))

def Table.closure (t : Table) (k : Kernel) : Closure :=
  let start : Closure := k.foldl (fun c (i, tokens) => c.add i tokens) (t.entries.map fun _ => none)
  k.foldl (fun c (i, tokens) =>
    let e := t.entries.getD i default
    match e.next with
    | some (.part p) =>
      let follow := e.behind.getD tokens
      (t.openings.getD p #[]).foldl (fun c o =>
        c.add o.item (if o.atEnd then o.follow.union follow else o.follow)) c
    | _ => c) start

/-- Sorts items by number and joins equal ones. -/
def Kernel.normal (k : List (Nat × Tokens)) : Kernel :=
  (k.mergeSort fun a b => a.1 ≤ b.1).foldr (fun (i, s) k =>
    match k with
    | (j, u) :: k' => if i = j then (i, s.union u) :: k' else (i, s) :: k
    | [] => [(i, s)]) []

namespace Automaton

/-- The number of the state of a kernel. -/
def number (a : Automaton) (k : Kernel) : Nat × Automaton :=
  match a.numbers[k]? with
  | some n => (n, a)
  | none =>
    let n := a.kernels.size
    (n, { a with
      kernels := a.kernels.push k, numbers := a.numbers.insert k n, rows := a.rows.push none })

/-- The items of a closure that speak about a token: those that may go on with it, and those that end
before it. -/
def rivals (t : Table) (items : List (Entry × Tokens)) (token : Nat) : List Entry × List Entry :=
  let inner := items.filter fun (e, _) =>
    !e.read.isEmpty && e.next.any fun s => (firstOf t.first s).contains token
  let ended := items.filter fun (e, tokens) => e.next.isNone && tokens.contains token
  (inner.map (·.1), ended.map (·.1))

/-- The actions at a token at which items may go on to state `next` and others end. -/
def decide (t : Table) (items : List (Entry × Tokens)) (token next : Nat) (r : Reductions) :
    List Action :=
  let (inner, ended) := rivals t items token
  let all := (inner ++ ended).filter (·.part ≠ t.whole)
  let kept := r.actions ++ [.shift next false]
  match all with
  | [] => kept
  | e :: es =>
    if t.isRow e.part && es.all (·.part = e.part) then r.actions ++ [.shift next true]
    else
      let orders := inner.map fun e => Rival.compare ⟨e.boundLevel, [e.part]⟩ r.rival
      match orders.contains .gt, orders.contains .lt with
      | true, false => [.shift next false]
      | false, true => r.actions
      | true, true => kept
      | false, false =>
        if r.sides.all (· = some .left) then r.actions
        else if r.sides.all (· = some .right) then [.shift next false]
        else kept

/-- Items grouped by their next symbol: those behind each token and those behind each category. -/
structure Moves where
  behindToken : Array (List (Nat × Tokens))
  behindPart : Array (List (Nat × Tokens))

def moves (t : Table) (items : List (Entry × Tokens)) : Moves :=
  items.foldl (fun m (e, tokens) =>
    match e.next with
    | none => m
    | some (.terminal i) =>
      { m with behindToken := m.behindToken.modify i ((e.advanced, tokens) :: ·) }
    | some (.part i) =>
      { m with behindPart := m.behindPart.modify i ((e.advanced, tokens) :: ·) })
    ⟨.replicate terminals.length [], .replicate t.whole []⟩

def reductions (t : Table) (items : List (Entry × Tokens)) : Array Reductions :=
  items.foldl (fun rs (e, tokens) =>
    if e.next.isSome then rs
    else
      let shown := e.read.reverse.map (·.shown)
      let action := if e.part = t.whole then .accept else .reduce e.part shown e.weight
      tokens.toList.foldl (fun rs i => rs.modify i (·.add action e)) rs)
    (.replicate terminals.length {})

/-- Comments may stand anywhere. -/
def isExtra (token : Nat) : Bool :=
  token = Terminal.comment.index || token = Terminal.markupComment.index

/-- The tokens that are skipped one by one where nothing is expected. The others are read only where
they are expected. -/
def isSkipped : Terminal → Bool
  | .attributeText _ | .stringText _ | .regexPattern | .regexSlash | .regexFlags | .markupName
  | .hashBang => false
  | _ => true

def errorRow (t : Table) : Row :=
  ⟨(terminals.map fun t => if isSkipped t then [.recover] else []).toArray, .replicate t.whole 0⟩

/-- Numbers the states behind the given kernels, zero for an empty one. -/
def numberAll (a : Automaton) (ks : Array (List (Nat × Tokens))) : Array Nat × Automaton :=
  ks.foldl (fun (ns, a) k =>
    if k.isEmpty then (ns.push 0, a)
    else
      let (n, a) := a.number (Kernel.normal k)
      (ns.push n, a)) (#[], a)

/-- Works out a state. -/
def work (a : Automaton) (state : Nat) : Row × Automaton :=
  let t := a.table
  let closure := t.closure (a.kernels.getD state [])
  let items := (closure.toList.zip t.entries.toList).filterMap fun (s, e) => s.map (e, ·)
  let m := moves t items
  let rs := reductions t items
  let (shifts, a) := a.numberAll m.behindToken
  let (behind, a) := a.numberAll m.behindPart
  let actions := shifts.mapIdx fun i next =>
    let r := rs.getD i {}
    if next = 0 then if r.actions.isEmpty && isExtra i then [.extra] else r.actions
    else if r.actions.isEmpty then [.shift next false]
    else decide t items i next r
  (⟨actions, behind⟩, a)

/-- The row of a state. -/
def row (a : Automaton) (state : Nat) : Row × Automaton :=
  match a.rows.getD state none with
  | some r => (r, a)
  | none =>
    let (r, a) := if state = errorState then (errorRow a.table, a) else a.work state
    (r, { a with rows := a.rows.setIfInBounds state (some r) })

/-- The automaton of a table with no state worked out. -/
def ofTable (t : Table) : Automaton :=
  let a : Automaton := ⟨t, #[[]], ∅, #[none]⟩
  (a.number [(0, .single Terminal.ending.index)]).2

end Automaton

end ServerSplit.Js.Repair
