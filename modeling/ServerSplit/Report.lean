import ServerSplit.Json.Pretty
import ServerSplit.Pass

/-! The report of a pass, for people and for programs. -/
namespace ServerSplit

/-- What is reported of a pass, with the root and the module as the command named them. -/
structure Report where
  root : Text
  sdkPath : Text
  dryRun : Bool
  output : Pass.Output

/-- How a piece of a report is shown on a terminal. -/
inductive Style
  | bold
  | dimmed
  | cyan
  | green
  | yellow
  | blue
  | boldRed
  | boldYellow
  deriving Repr, DecidableEq

/-- The parameters that switch a style on. -/
def Style.code : Style → String
  | .bold => "1"
  | .dimmed => "2"
  | .cyan => "36"
  | .green => "32"
  | .yellow => "33"
  | .blue => "34"
  | .boldRed => "1;31"
  | .boldYellow => "1;33"

/-- A piece in its style, if the report is coloured. -/
def Style.apply (color : Bool) (s : Style) (t : Text) : Text :=
  if color then ['\x1b', '['] ++ s.code.toList ++ ['m'] ++ t ++ ['\x1b', '[', '0', 'm'] else t

namespace Report

def version : Text := "0.1.0".toList

/-! ### For programs -/

def recordJson (r : Record) : Json :=
  .object
    [("id".toList, .string r.id), ("name".toList, .string r.name), ("file".toList, .string r.artifact),
      ("line".toList, .number (.whole r.line))]

def diagnosticJson (d : Diagnostic) : Json :=
  .object
    [("kind".toList, .string d.kind.label.toList), ("severity".toList, .string d.severity.label.toList),
      ("file".toList, .string d.file), ("line".toList, .number (.whole d.line)),
      ("message".toList, .string d.message)]

def toJson (r : Report) : Json :=
  .object
    [("version".toList, .string version), ("root".toList, .string r.root),
      ("sdk_path".toList, .string r.sdkPath), ("dry_run".toList, .bool r.dryRun),
      ("artifacts_scanned".toList, .number (.whole r.output.scanned)),
      ("artifacts_rewritten".toList, .array (r.output.rewritten.map .string)),
      ("functions".toList, .array (r.output.registry.records.map recordJson)),
      ("diagnostics".toList, .array (r.output.diagnostics.map diagnosticJson))]

/-! ### For people -/

def severityLabel (color : Bool) (s : Severity) : Text :=
  (match s with
    | .error => Style.boldRed
    | .warning => .boldYellow
    | .info => .blue).apply color s.label.toList

def recordLine (color : Bool) (r : Record) : Text :=
  "    ".toList ++ Style.cyan.apply color ['→'] ++ [' '] ++ r.id ++ "  ".toList ++
    Style.dimmed.apply color (r.artifact ++ [':'] ++ Text.ofNat r.line) ++ ['\n']

def diagnosticLine (color : Bool) (d : Diagnostic) : Text :=
  "    ".toList ++ severityLabel color d.severity ++ [' '] ++ d.file ++ [':'] ++ Text.ofNat d.line ++
    [' '] ++ d.message ++ [' '] ++
    Style.dimmed.apply color (['['] ++ d.kind.label.toList ++ [']']) ++ ['\n']

def functionLines (color : Bool) (rs : List Record) : Text :=
  if rs.isEmpty then
    "  ".toList ++ Style.dimmed.apply color "no server functions found".toList ++ ['\n']
  else
    "  ".toList ++ Style.bold.apply color "Server functions".toList ++ ['\n'] ++
      rs.flatMap (recordLine color)

def diagnosticLines (color : Bool) (ds : List Diagnostic) : Text :=
  if ds.isEmpty then []
  else
    "\n  ".toList ++ Style.bold.apply color "Diagnostics".toList ++ ['\n'] ++
      ds.flatMap (diagnosticLine color)

/-- The numbers of a pass, and where its module went. -/
def summary (color : Bool) (r : Report) : Text :=
  "\n  ".toList ++ Text.ofNat r.output.scanned ++ " artifacts scanned, ".toList ++
    Text.ofNat r.output.rewritten.length ++ " rewritten, ".toList ++
    Text.ofNat r.output.registry.size ++ " functions\n  ".toList ++
    (if r.dryRun then Style.yellow.apply color "dry run:".toList ++ " nothing written\n".toList
    else "sdk written to ".toList ++ Style.green.apply color r.sdkPath ++ ['\n'])

def pretty (color : Bool) (r : Report) : Text :=
  Style.bold.apply color "serverfn".toList ++ [' '] ++ r.root ++ "\n\n".toList ++
    functionLines color r.output.registry.records ++ diagnosticLines color r.output.diagnostics ++
    summary color r

end Report

end ServerSplit
