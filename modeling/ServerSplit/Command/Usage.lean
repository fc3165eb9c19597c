import ServerSplit.Text.Basic

/-! Words of a command line as switches and values. -/
namespace ServerSplit.Command

/-- What a switch takes. -/
inductive Takes
  | nothing
  | text
  /-- A text that is not empty. -/
  | path
  /-- Nothing; it asks for help, or for the version. -/
  | help
  | version
  deriving Repr, DecidableEq

/-- A switch with a long name and perhaps a short one; one without a dash before it has no names but is
the value of the command itself. -/
structure Switch where
  long : String
  short : Option Char := none
  takes : Takes := .nothing
  deriving Repr, DecidableEq

/-- What a command understands. -/
structure Vocabulary where
  switches : List Switch
  /-- The value without a switch. -/
  value : Option Switch := none
  /-- The commands below it, by any of their names. -/
  commands : List String := []

/-- Why nothing is run. -/
inductive Usage
  | help
  | version
  /-- Nothing is asked for. -/
  | nothingAsked
  | noCommand
  | unknownCommand
  | unknownWord
  | badValue
  | needlessValue
  | repeated
  | valueMissing
  deriving Repr, DecidableEq

/-- The exit code. -/
def Usage.code : Usage → Nat
  | .help | .version => 0
  | _ => 2

/-- The switches that have been given, with their values, and one whose value may still be to come. -/
structure Given where
  values : List (String × Text) := []
  /-- A switch that is not settled yet, with its value if that is known. -/
  pending : Option (Switch × Option Text) := none
  /-- Whether the value without a switch has been given. -/
  placed : Bool := false

namespace Given

def value? (g : Given) (long : String) : Option Text := g.values.lookup long

def has (g : Given) (long : String) : Bool := (g.value? long).isSome

def store (g : Given) (s : Switch) (v : Text) : Except Usage Given :=
  if g.has s.long then .error .repeated
  else if s.takes = .path ∧ v.isEmpty then .error .badValue
  else .ok { g with values := g.values ++ [(s.long, v)] }

/-- Settles the switch that is pending. -/
def settle (g : Given) : Except Usage Given :=
  match g.pending with
  | none => .ok g
  | some (_, none) => .error .badValue
  | some (s, some v) => { g with pending := none }.store s v

/-- Whether the next word may be the value of a switch. -/
def awaits (g : Given) : Option Switch :=
  match g.pending with
  | some (s, none) => some s
  | _ => none

/-- A switch without a value. -/
def raise (g : Given) (s : Switch) : Except Usage Given := do
  let g ← g.settle
  match s.takes with
  | .help => .error .help
  | .version => .error .version
  | _ => g.store s []

/-- A switch with a value, given at once or to come. -/
def take (g : Given) (s : Switch) (v : Option Text) : Except Usage Given := do
  let g ← g.settle
  match v with
  | some v => g.store s v
  | none => return { g with pending := some (s, none) }

end Given

def Switch.takesValue (s : Switch) : Bool := s.takes = .text || s.takes = .path

/-- A text up to an equals sign, and what is behind that. -/
def splitValue (t : Text) : Text × Option Text :=
  match t.dropWhile (· ≠ '=') with
  | [] => (t, none)
  | _ :: v => (t.takeWhile (· ≠ '='), some v)

/-- A word behind two dashes. -/
def readLong (x : Vocabulary) (g : Given) (t : Text) : Except Usage Given :=
  let (name, v) := splitValue t
  match x.switches.find? fun s => s.long.toList = name with
  | none => .error .unknownWord
  | some s =>
    if s.takesValue then g.take s v else if v.isSome then .error .needlessValue else g.raise s

/-- The letters behind one dash: switches, and the value of the last one. -/
def readShort (x : Vocabulary) (g : Given) : Text → Except Usage Given
  | [] => .ok g
  | c :: r =>
    match x.switches.find? fun s => s.short = some c with
    | none => .error .unknownWord
    | some s =>
      if s.takesValue then
        g.take s (match r with
          | [] => none
          | '=' :: v => some v
          | v => some v)
      else do readShort x (← g.raise s) r

/-- A word that is no switch; `escaped` tells whether it follows two lone dashes. -/
def readPlain (x : Vocabulary) (g : Given) (escaped : Bool) (w : Text) : Except Usage Given :=
  match x.value, g.placed with
  | some s, false => do return { (← g.settle) with pending := some (s, some w), placed := true }
  | _, _ =>
    if escaped && x.commands.any (·.toList = w) then .error .unknownWord
    else if x.commands.isEmpty then .error .unknownWord
    else .error .unknownCommand

/-- Reads words up to the name of a command below; also the words behind that. -/
def readWords (x : Vocabulary) : Given → Bool → List Text → Except Usage (Given × Option (Text × List Text))
  | g, _, [] => do return (← g.settle, none)
  | g, escaped, w :: ws =>
    if escaped then do readWords x (← readPlain x g true w) true ws
    else if g.awaits.isNone ∧ x.commands.any (·.toList = w) then .ok (g, some (w, ws))
    else match w, g.awaits with
      | ['-', '-'], _ => readWords x g true ws
      | '-' :: '-' :: t, _ => do readWords x (← readLong x g t) false ws
      | '-' :: c :: t, _ => do readWords x (← readShort x g (c :: t)) false ws
      | w, some s => readWords x { g with pending := some (s, some w) } false ws
      | w, none => do readWords x (← readPlain x g false w) false ws

end ServerSplit.Command
