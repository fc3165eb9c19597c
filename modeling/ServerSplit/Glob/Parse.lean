import ServerSplit.Glob.Basic

/-! Reading patterns for paths. -/
namespace ServerSplit.Glob

/-- What is read so far: the branch in progress, last part first, and for each open group the branches
before it, last first, with the branch that the group stands in. -/
structure Builder where
  current : List Part := []
  groups : List (List (List Part) × List Part) := []

namespace Builder

def push (b : Builder) (p : Part) : Builder := { b with current := p :: b.current }

def openGroup (b : Builder) : Builder := ⟨[], ([], b.current) :: b.groups⟩

def nextBranch (b : Builder) : Builder :=
  match b.groups with
  | [] => b.push (.char ',')
  | (done, around) :: rest => ⟨[], (b.current.reverse :: done, around) :: rest⟩

def closeGroup (b : Builder) : Except Fault Builder :=
  match b.groups with
  | [] => .error .unopenedGroup
  | (done, around) :: rest => .ok ⟨.either (b.current.reverse :: done).reverse :: around, rest⟩

/-- Two stars that are no whole part of a path. -/
def pushStars (b : Builder) : Builder := (b.push .many).push .many

/-- Two stars behind a slash: they take the place of the slash, or of the stars before it. -/
def pushDeep (b : Builder) (p : Part) : Builder :=
  match b.current with
  | .leading :: ps => { b with current := .leading :: ps }
  | .trailing :: ps => { b with current := .trailing :: ps }
  | _ :: ps => { b with current := p :: ps }
  | [] => { b with current := [p] }

end Builder

/-- The ranges of a class behind its opening bracket, last first, and what follows the class. -/
def readClass : Text → Bool → Bool → List (Char × Char) →
    Except Fault (List (Char × Char) × Text)
  | [], _, _, _ => .error .unclosedClass
  | c :: r, first, inRange, ranges =>
    let extend : Except Fault (List (Char × Char)) :=
      match ranges with
      | (a, _) :: rest => if c < a then .error (.invalidRange a c) else .ok ((a, c) :: rest)
      | [] => .ok [(c, c)]
    if c = ']' ∧ !first then .ok (if inRange then ('-', '-') :: ranges else ranges, r)
    else if c = '-' ∧ !first ∧ !inRange then readClass r false true ranges
    else if inRange ∧ c ≠ ']' then
      match extend with
      | .ok ranges => readClass r false false ranges
      | .error e => .error e
    else readClass r false inRange ((c, c) :: ranges)

/-- What two stars are, from the character before them and the text behind them; also that text. -/
def readStars (b : Builder) (previous : Option Char) (r : Text) : Builder × Option Char × Text :=
  let slash := r.head? = some '/'
  if b.current.isEmpty then
    if r.isEmpty then (b.push .leading, some '*', r)
    else if slash then (b.push .leading, some '/', r.drop 1)
    else (b.pushStars, some '*', r)
  else
    let inGroup := !b.groups.isEmpty
    if previous != some '/' && !(inGroup && (previous == some ',' || previous == some '\x7b')) then
      (b.pushStars, some '*', r)
    else if r.isEmpty || (inGroup && (r.head? = some ',' || r.head? = some '\x7d')) then
      (b.pushDeep .trailing, some '*', r)
    else if slash then (b.pushDeep .between, some '/', r.drop 1)
    else (b.pushStars, some '*', r)

/-- Reads on from a builder; `previous` is the character read last. The fuel is the length of the
text. -/
def readParts : Nat → Builder → Option Char → Text → Except Fault Builder
  | 0, b, _, _ => .ok b
  | _ + 1, b, _, [] => .ok b
  | n + 1, b, previous, c :: r =>
    if c = '?' then readParts n (b.push .any) (some c) r
    else if c = '*' then
      match r with
      | '*' :: r =>
        let (b, previous, r) := readStars b previous r
        readParts n b previous r
      | r => readParts n (b.push .many) (some c) r
    else if c = '[' then
      let negated := r.head? = some '!' ∨ r.head? = some '^'
      match readClass (if negated then r.drop 1 else r) true false [] with
      | .ok (ranges, rest) => readParts n (b.push (.oneOf negated ranges.reverse)) (some ']') rest
      | .error e => .error e
    else if c = '\x7b' then readParts n b.openGroup (some c) r
    else if c = '\x7d' then
      match b.closeGroup with
      | .ok b => readParts n b (some c) r
      | .error e => .error e
    else if c = ',' then readParts n b.nextBranch (some c) r
    else if c = '\\' then
      match r with
      | [] => .error .danglingEscape
      | d :: r => readParts n (b.push (.char d)) (some d) r
    else readParts n (b.push (.char c)) (some c) r

/-- The pattern that a text is. -/
def parse (t : Text) : Except Fault (List Part) :=
  match readParts t.length {} none t with
  | .ok b => if b.groups.isEmpty then .ok b.current.reverse else .error .unclosedGroup
  | .error e => .error e

end ServerSplit.Glob
