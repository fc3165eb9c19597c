import ServerSplit.Command.Usage

/-! The commands and what they are told. -/
namespace ServerSplit.Command

/-- What the command that rewrites a build is told. -/
structure TransformArgs where
  path : Text
  config : Option Text := none
  format : Text := "pretty".toList
  sdkOut : Option Text := none
  dryRun : Bool := false
  denyWarnings : Bool := false
  deriving Repr, DecidableEq

/-- What the command that writes a configuration is told. -/
structure InitArgs where
  output : Text := "serverfn.yaml".toList
  template : Text := "esm".toList
  list : Bool := false
  deriving Repr, DecidableEq

inductive Request
  | transform (args : TransformArgs)
  | init (args : InitArgs)
  deriving Repr, DecidableEq

def helpSwitch : Switch := { long := "help", short := some 'h', takes := .help }

def verboseSwitch : Switch := { long := "verbose", short := some 'v' }

def mainWords : Vocabulary :=
  { switches := [verboseSwitch, helpSwitch, { long := "version", short := some 'V', takes := .version }]
    commands := ["transform", "build", "init", "help"] }

def transformWords : Vocabulary :=
  { switches :=
      [{ long := "config", short := some 'c', takes := .path },
       { long := "format", short := some 'f', takes := .text },
       { long := "sdk-out", takes := .path }, { long := "dry-run" }, { long := "deny-warnings" },
       verboseSwitch, helpSwitch]
    value := some { long := "", takes := .path } }

def initWords : Vocabulary :=
  { switches :=
      [{ long := "output", short := some 'o', takes := .path },
       { long := "template", short := some 't', takes := .text }, { long := "list", short := some 'l' },
       verboseSwitch, helpSwitch] }

def readTransform (ws : List Text) : Except Usage Request := do
  let (g, _) ← readWords transformWords {} false ws
  match g.value? "" with
  | none => .error .valueMissing
  | some path =>
    let usual : TransformArgs := { path }
    return .transform
      { path
        config := g.value? "config"
        format := (g.value? "format").getD usual.format
        sdkOut := g.value? "sdk-out"
        dryRun := g.has "dry-run"
        denyWarnings := g.has "deny-warnings" }

def readInit (ws : List Text) : Except Usage Request := do
  let (g, _) ← readWords initWords {} false ws
  let usual : InitArgs := {}
  return .init
    { output := (g.value? "output").getD usual.output
      template := (g.value? "template").getD usual.template
      list := g.has "list" }

/-- Help for a command, which is given by its name. -/
def readHelp (ws : List Text) : Usage :=
  match ws with
  | [] => .help
  | [w] => if mainWords.commands.any (·.toList = w) then .help else .unknownCommand
  | _ => .unknownCommand

/-- What a command line asks for. -/
def Request.ofWords (ws : List Text) : Except Usage Request := do
  let (g, command) ← readWords mainWords {} false ws
  match command with
  | none => .error (if g.values.isEmpty then .nothingAsked else .noCommand)
  | some (name, ws) =>
    match String.ofList name with
    | "transform" | "build" => readTransform ws
    | "init" => readInit ws
    | _ => .error (readHelp ws)

end ServerSplit.Command
