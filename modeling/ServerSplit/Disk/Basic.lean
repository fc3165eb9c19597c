import ServerSplit.Disk.Path
import ServerSplit.Text.Utf8

/-! Files and directories below a working directory. Nothing else exists. -/
namespace ServerSplit

inductive Disk.Node
  | directory
  | file (bytes : List UInt8)
  deriving Repr, DecidableEq

/-- What stands below the working directory, which is at the path `here`: nodes by the names that lead
to them. -/
structure Disk where
  here : Text
  nodes : List (List Text × Disk.Node) := []
  deriving Repr

namespace Disk

/-- Why something cannot be done with a path. -/
inductive Fault
  | notFound
  | alreadyExists
  | notADirectory
  | isADirectory
  | notText
  deriving Repr, DecidableEq

def Fault.message : Fault → Text
  | .notFound => "No such file or directory (os error 2)".toList
  | .alreadyExists => "File exists (os error 17)".toList
  | .notADirectory => "Not a directory (os error 20)".toList
  | .isADirectory => "Is a directory (os error 21)".toList
  | .notText => "stream did not contain valid UTF-8".toList

/-- The names that lead to a node. -/
abbrev Way := List Text

/-! ### Finding -/

def lookup (d : Disk) (w : Way) : Option Node := if w = [] then some .directory else d.nodes.lookup w

/-- Follows names from a directory, as far as all before the last are directories. -/
def walk (d : Disk) (w : Way) : List Text → Except Fault Way
  | [] => .ok w
  | n :: ns =>
    match d.lookup w with
    | none => .error .notFound
    | some (.file _) => .error .notADirectory
    | some .directory =>
      if n = [] ∨ n = Path.dot then walk d w ns
      else if n ≠ Path.dots then walk d (w ++ [n]) ns
      else if w = [] then .error .notFound
      else walk d w.dropLast ns

/-- The names of a path from the working directory on, if it leads there. -/
def namesFrom (d : Disk) (path : Text) : Except Fault (List Text) :=
  if path = [] then .error .notFound
  else if path.head? ≠ some '/' then .ok (Path.names path)
  else match Text.after d.here path with
    | some [] => .ok []
    | some ('/' :: r) => .ok (Path.names r)
    | _ => .error .notFound

/-- The node at a path, and the way to it. -/
def find (d : Disk) (path : Text) : Except Fault (Way × Node) := do
  let w ← d.walk [] (← d.namesFrom path)
  match d.lookup w with
  | some n => return (w, n)
  | none => .error .notFound

def exists? (d : Disk) (path : Text) : Bool := (d.find path).isOk

/-- The path of a node from the root of all. -/
def absolute (d : Disk) (w : Way) : Text := w.foldl Path.join d.here

/-! ### Reading -/

def readBytes (d : Disk) (path : Text) : Except Fault (List UInt8) := do
  match ← d.find path with
  | (_, .file bytes) => return bytes
  | (_, .directory) => .error .isADirectory

def readText (d : Disk) (path : Text) : Except Fault Text := do
  match Text.ofBytes? (← d.readBytes path) with
  | some t => return t
  | none => .error .notText

/-- The names of a node below another one. -/
def below : Way → Way → Option Way
  | [], w => some w
  | n :: ns, m :: ms => if n = m then below ns ms else none
  | _ :: _, [] => none

/-- The files below a directory in the order of their names. -/
def filesBelow (d : Disk) (w : Way) : List (Way × List UInt8) :=
  (d.nodes.filterMap fun (v, n) =>
    match below w v, n with
    | some r, .file bytes => some (r, bytes)
    | _, _ => none).mergeSort fun a b => !decide (b.1 < a.1)

/-! ### Writing -/

/-- Puts a node in the place of the one that was there, or behind all others. -/
def insert (d : Disk) (w : Way) (n : Node) : Disk :=
  { d with
    nodes :=
      if (d.nodes.lookup w).isSome then d.nodes.map fun p => if p.1 = w then (w, n) else p
      else d.nodes ++ [(w, n)] }

/-- The way to a node that may have to be made, or nothing if the path ends in a directory. -/
def target (d : Disk) (path : Text) : Except Fault (Option Way) := do
  let ns ← d.namesFrom path
  let trimmed := (ns.reverse.dropWhile (·.isEmpty)).reverse
  let w ← d.walk [] trimmed
  match trimmed.getLast? with
  | none => return none
  | some n => return if n = Path.dot ∨ n = Path.dots then none else some w

/-- Writes a whole file. -/
def write (d : Disk) (path : Text) (bytes : List UInt8) : Except Fault Disk := do
  match ← d.target path with
  | none => .error .isADirectory
  | some w =>
    if path.getLast? = some '/' then .error .isADirectory
    else match d.lookup w with
      | some .directory => .error .isADirectory
      | _ => return d.insert w (.file bytes)

def makeDirectory (d : Disk) (path : Text) : Except Fault Disk := do
  match ← d.target path with
  | none => .error .alreadyExists
  | some w =>
    if (d.lookup w).isSome then .error .alreadyExists else return d.insert w .directory

def isDirectory (d : Disk) (path : Text) : Bool :=
  match d.find path with
  | .ok (_, .directory) => true
  | _ => false

/-- Makes a directory unless it is there; also the directory as it then is. -/
def settle (d : Disk) (path : Text) : Disk × Except Fault Unit :=
  match d.makeDirectory path with
  | .ok d => (d, .ok ())
  | .error e => (d, if d.isDirectory path then .ok () else .error e)

/-- Makes a directory and those around it. Those that have been made before a fault stay. The fuel
exceeds the number of names. -/
def makeDirectories : Nat → Text → Disk → Disk × Except Fault Unit
  | 0, _, d => (d, .ok ())
  | n + 1, path, d =>
    if path = [] then (d, .ok ())
    else match d.makeDirectory path with
      | .error .notFound =>
        match Path.parent? path with
        | none => (d, .error .notFound)
        | some p =>
          match makeDirectories n p d with
          | (d, .ok _) => d.settle path
          | failed => failed
      | _ => d.settle path

def makeAll (path : Text) (d : Disk) : Disk × Except Fault Unit := makeDirectories (path.length + 1) path d

end Disk

end ServerSplit
