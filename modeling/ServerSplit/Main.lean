import ServerSplit.Command.Help
import ServerSplit.Command.Run

/-! The command line. All below the working directory is read before a command runs, and what the command
has changed is written behind it. -/
namespace ServerSplit.Command

/-- The nodes below the directory of `entry`, which `way` leads to. -/
private partial def nodesOf (way : Disk.Way) (entry : IO.FS.DirEntry) :
    IO (List (Disk.Way × Disk.Node)) := do
  let way := way ++ [entry.fileName.toList]
  if ← entry.path.isDir then
    let inner ← (← entry.path.readDir).toList.mapM (nodesOf way)
    return (way, .directory) :: inner.flatten
  else
    return [(way, .file (← IO.FS.readBinFile entry.path).toList)]

private def readDisk : IO Disk := do
  let here ← IO.currentDir
  let nodes ← (← here.readDir).toList.mapM (nodesOf [])
  return { here := here.toString.toList, nodes := nodes.flatten }

/-- Writes the nodes of a disk that were not there before, or were others. -/
private def writeChanges (old new : Disk) : IO Unit := do
  for (way, node) in new.nodes do
    if old.nodes.lookup way ≠ some node then
      let path := String.ofList (new.absolute way)
      match node with
      | .directory => IO.FS.createDirAll path
      | .file bytes => IO.FS.writeBinFile path ⟨bytes.toArray⟩

/-- Runs the words of a command line and gives the exit code. -/
def runHere (words : List String) : IO Nat := do
  let old ← readDisk
  let color := (← (← IO.getStdout).isTty) && (← IO.getEnv "NO_COLOR").isNone
  let (new, result) := run color (words.map String.toList) old
  writeChanges old new
  match result with
  | .ok outcome =>
    IO.print (String.ofList outcome.stdout)
    IO.eprint (String.ofList outcome.stderr)
    return outcome.code
  | .error usage =>
    if usage.code = 0 then IO.print usage.message else IO.eprint usage.message
    return usage.code

end ServerSplit.Command

def main (words : List String) : IO UInt32 := do
  return UInt32.ofNat (← ServerSplit.Command.runHere words)
