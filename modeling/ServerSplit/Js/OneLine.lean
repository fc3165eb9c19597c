import ServerSplit.Js.Tree
import ServerSplit.Text.Replace

/-! A tree written on one line. Tokens are copied; whatever stands between two of them becomes one
space, and a statement that ends without a semicolon gets one. -/
namespace ServerSplit.Js

/-- The statements and fields that a semicolon ends. -/
def Kind.takesSemicolon : Kind → Bool
  | .expressionStatement | .lexicalDeclaration | .variableDeclaration | .returnStatement
  | .throwStatement | .breakStatement | .continueStatement | .debuggerStatement | .doStatement
  | .fieldDefinition => true
  | _ => false

namespace OneLine

/-- A text without its escaped line ends. -/
def withoutContinuations (t : Text) : Text :=
  ((t.replace ['\\', '\r', '\n'] []).replace ['\\', '\n'] []).replace ['\\', '\r'] []

/-- A text with `new` in place of every line end. -/
def replaceLineEnds (new t : Text) : Text :=
  ((t.replace ['\r', '\n'] new).replace ['\r'] new).replace ['\n'] new

/-- The text of a token, written on one line. -/
def tokenText (parent : Option Kind) (t : Token) : Text :=
  if parent = some .templateString ∧ t.kind = .escapeSequence then withoutContinuations t.text
  else if parent = some .templateString ∧ t.kind = .stringFragment then
    replaceLineEnds ['\\', 'n'] t.text
  else replaceLineEnds [' '] t.text

/-- A token from `start` on, behind one that ends at `last`. -/
def spaced (last : Option Nat) (start : Nat) (text : Text) : Text :=
  match last with
  | none => text
  | some l => if l < start then ' ' :: text else text

def isSemicolon (t : Tree) : Bool := t.isMark [';']

/-- Whether a semicolon is missing behind a node; `next` is the tree behind it. -/
def lacksSemicolon (k : Kind) (children : List Tree) (next : Option Tree) : Bool :=
  k.takesSemicolon && !(children.reverse.find? (!·.isLeaf .comment)).any isSemicolon &&
    !next.any isSemicolon

mutual

/-- The text of a tree and the byte at which its last token ends; `last` is the byte at which the token
before it ends. -/
def write (parent : Option Kind) (next : Option Tree) : Tree → Option Nat → Text × Option Nat
  | .leaf t, last =>
    if t.kind = .comment then ([], last) else (spaced last t.start (tokenText parent t), some t.stop)
  | .node k ts, last =>
    if k = .string ∨ k = .regex then
      let text := Tree.text (.node k ts)
      let text := if k = .string then withoutContinuations text else replaceLineEnds [' '] text
      (spaced last (Tree.start (.node k ts)) text, some (Tree.stop (.node k ts)))
    else
      let (text, last) := writeAll (some k) ts last
      (if lacksSemicolon k ts next then text ++ [';'] else text, last)

def writeAll (parent : Option Kind) : List Tree → Option Nat → Text × Option Nat
  | [], last => ([], last)
  | t :: ts, last =>
    let (a, last) := write parent ts.head? t last
    let (b, last) := writeAll parent ts last
    (a ++ b, last)

end

end OneLine

/-- A tree on one line; `next` is the tree behind it. -/
def Tree.oneLine (t : Tree) (next : Option Tree) : Text := (OneLine.write none next t none).1

end ServerSplit.Js
