import ServerSplit.Command.Arguments
import ServerSplit.Command.Outcome
import ServerSplit.Config.Check
import ServerSplit.Config.Read
import ServerSplit.Report

/-! Running a pass over the files below a directory. First everything is read and the pass is made; only
then, and unless the run is dry, files are written. -/
namespace ServerSplit.Command

open Disk (Way)

/-- A pass that has been made, and where its results go. -/
structure Plan where
  /-- The way to the root of the build, and its absolute path. -/
  root : Way
  rootPath : Text
  config : Config
  output : Pass.Output
  sdkPath : Text

/-! ### Reading -/

/-- The configurations that are looked for if none is named. -/
def usualConfigs : List Text := ["serverfn.yaml".toList, ".serverfn.yaml".toList]

def readConfig (path : Text) (d : Disk) : Except Text Config :=
  let fail := fun (reason : Text) =>
    .error ("error parsing config ".toList ++ path ++ ": ".toList ++ reason)
  match d.readText path with
  | .error e => fail e.message
  | .ok t =>
    match Config.ofText t with
    | .error e => fail e.message
    | .ok c => .ok c

/-- The configuration that is named, or one that is found, or the usual one. -/
def findConfig (named : Option Text) (d : Disk) : Except Text Config := do
  let c ← match named <|> usualConfigs.find? d.exists? with
    | some path => readConfig path d
    | none => .ok {}
  match c.fault? with
  | some f => .error ("invalid config: ".toList ++ f.message)
  | none => return c

/-- The directory at a path, and its absolute path. -/
def findRoot (path : Text) (d : Disk) : Except Text (Way × Text) :=
  match d.find path with
  | .error e =>
    .error ("cannot access path ".toList ++ Text.quoted path ++ ": ".toList ++ e.message)
  | .ok (w, .file _) => .error (d.absolute w ++ " is not a directory".toList)
  | .ok (w, .directory) => .ok (w, d.absolute w)

def artifactPath (w : Way) : Text := Text.joinWith ['/'] w

/-- The files below a directory whose paths end as those of artifacts do. All must be texts. -/
def readArtifacts (root : Way) (suffix : Text) (d : Disk) : Except Text (List Artifact) :=
  ((d.filesBelow root).filter fun f => Text.endsWith suffix (artifactPath f.1)).mapM fun (w, bytes) =>
    match Text.ofBytes? bytes with
    | some source => .ok ⟨artifactPath w, source⟩
    | none =>
      .error ("cannot read ".toList ++ d.absolute (root ++ w) ++ ": ".toList ++
        Disk.Fault.notText.message)

def isFormat (format : Text) : Bool := format = "pretty".toList || format = "json".toList

/-- Reads what a run needs and makes its pass. -/
def Plan.make (args : TransformArgs) (d : Disk) : Except Text Plan := do
  if !isFormat args.format then
    .error ("invalid format ".toList ++ Text.quoted args.format ++
      ", must be 'pretty' or 'json'".toList)
  else
    let config ← findConfig args.config d
    let (root, rootPath) ← findRoot args.path d
    let artifacts ← readArtifacts root config.assetSuffix d
    match runPass config artifacts with
    | .error e => .error e.message
    | .ok output => return { root, rootPath, config, output, sdkPath := args.sdkOut.getD config.sdkPath }

/-! ### Writing -/

def writeText (path text : Text) (d : Disk) : Disk × Except Text Unit :=
  match d.write path (Text.bytes text) with
  | .ok d => (d, .ok ())
  | .error e => (d, .error ("failed to write ".toList ++ path ++ ": ".toList ++ e.message))

/-- Puts texts in the place of files below a directory, which are all there. -/
def replaceAll (root : Way) (as : List Artifact) (d : Disk) : Disk :=
  as.foldl (fun d a => d.insert (root ++ Path.names a.path) (.file (Text.bytes a.source))) d

/-- Writes the module, making the directories around it. -/
def writeSdk (path text : Text) (d : Disk) : Disk × Except Text Unit :=
  let parent := (Path.parent? path).getD []
  let (d, made) := if parent = [] ∨ d.exists? parent then (d, .ok ()) else Disk.makeAll parent d
  match made with
  | .error e => (d, .error ("failed to write ".toList ++ parent ++ ": ".toList ++ e.message))
  | .ok _ => writeText path text d

/-- The files that the pass has changed. -/
def Plan.changed (p : Plan) : List Artifact :=
  p.output.artifacts.filter fun a => p.output.rewritten.contains a.path

/-- Writes the changed files, and the module after them. -/
def Plan.write (p : Plan) (d : Disk) : Disk × Except Text Unit :=
  writeSdk p.sdkPath p.output.sdk.source (replaceAll p.root p.changed d)

/-! ### The run -/

/-- What is said if there are no files to look at. -/
def Plan.warning (p : Plan) : Text :=
  if p.output.artifacts.isEmpty then
    "Warning: no ".toList ++ p.config.assetSuffix ++ " artifacts under ".toList ++ p.rootPath ++ ['\n']
  else []

def Plan.report (p : Plan) (args : TransformArgs) : Report :=
  { root := args.path, sdkPath := p.sdkPath, dryRun := args.dryRun, output := p.output }

def Plan.reportText (color : Bool) (args : TransformArgs) (p : Plan) : Text :=
  if args.format = "json".toList then Json.pretty 0 (p.report args).toJson ++ ['\n']
  else (p.report args).pretty color

def Plan.code (args : TransformArgs) (p : Plan) : Nat :=
  if args.denyWarnings && p.output.hasWarnings then Outcome.denied else Outcome.success

def runTransform (color : Bool) (args : TransformArgs) (d : Disk) : Disk × Outcome :=
  match Plan.make args d with
  | .error message => (d, .failure message)
  | .ok p =>
    let (d, written) := if args.dryRun then (d, .ok ()) else p.write d
    match written with
    | .error message =>
      (d, { code := Outcome.failed, stderr := p.warning ++ Outcome.errorLine message })
    | .ok _ =>
      (d, { code := p.code args, stdout := p.reportText color args, stderr := p.warning })

end ServerSplit.Command
