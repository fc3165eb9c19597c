import ServerSplit.Command.Init
import ServerSplit.Command.Transform

/-! Running a command line on a disk. -/
namespace ServerSplit.Command

def Request.run (color : Bool) : Request → Disk → Disk × Outcome
  | .transform args, d => runTransform color args d
  | .init args, d => runInit args d

/-- Runs the words of a command line, or tells why nothing is run. -/
def run (color : Bool) (words : List Text) (d : Disk) : Disk × Except Usage Outcome :=
  match Request.ofWords words with
  | .error u => (d, .error u)
  | .ok r => let (d, o) := r.run color d; (d, .ok o)

/-- Runs command lines one after another. -/
def runAll (color : Bool) : List (List Text) → Disk → Disk × List (Except Usage Outcome)
  | [], d => (d, [])
  | ws :: rest, d =>
    let (d, o) := run color ws d
    let (d, os) := runAll color rest d
    (d, o :: os)

end ServerSplit.Command
