import ServerSplit.Command.Arguments
import ServerSplit.Command.Outcome
import ServerSplit.Text.Quoted

/-! Writing a configuration from a template. A file that is there is never replaced. -/
namespace ServerSplit.Command

structure Template where
  name : String
  description : String
  content : String

def esmTemplate : Template :=
  { name := "esm"
    description := "ES module SDK at src/__generated__/server-sdk.js"
    content :=
      "# serverfn configuration\n" ++
      "#\n" ++
      "# Functions whose body starts with the directive below are replaced in the\n" ++
      "# client bundle by a stub that POSTs to `endpoint`; their implementations are\n" ++
      "# collected into the module written to `sdk_path`.\n" ++
      "\n" ++
      "directive: \"use server\"\n" ++
      "endpoint: \"/api/internal/bff\"\n" ++
      "\n" ++
      "# Only build artifacts with this suffix are rewritten.\n" ++
      "asset_suffix: \".js\"\n" ++
      "\n" ++
      "# Generated dispatch module (written on every pass, parent dirs created).\n" ++
      "sdk_path: \"src/__generated__/server-sdk.js\"\n" ++
      "sdk_factory: \"createServerSdk\"\n" ++
      "module_format: esm\n" ++
      "\n" ++
      "# Artifact paths (relative to the build output root) to leave untouched.\n" ++
      "excluded_paths: []\n" ++
      "\n" ++
      "# Fail the build when two functions resolve to the same id instead of keeping\n" ++
      "# the first one and warning.\n" ++
      "strict_duplicates: false\n" }

def commonjsTemplate : Template :=
  { name := "commonjs"
    description := "CommonJS SDK for require()-based servers, vendor chunks excluded"
    content :=
      "# serverfn configuration (CommonJS server)\n" ++
      "#\n" ++
      "# Same as the default template, but the generated SDK assigns its factory to\n" ++
      "# `module.exports` so it can be loaded with `require()`.\n" ++
      "\n" ++
      "directive: \"use server\"\n" ++
      "endpoint: \"/api/internal/bff\"\n" ++
      "asset_suffix: \".js\"\n" ++
      "\n" ++
      "sdk_path: \"server/__generated__/server-sdk.js\"\n" ++
      "sdk_factory: \"createServerSdk\"\n" ++
      "module_format: commonjs\n" ++
      "\n" ++
      "excluded_paths:\n" ++
      "  - \"**/vendor/**\"\n" ++
      "\n" ++
      "strict_duplicates: false\n" }

def templates : List Template := [esmTemplate, commonjsTemplate]

/-- The name of a template, on a field of twelve characters, and what it is for. -/
def Template.line (t : Template) : Text :=
  "  ".toList ++ t.name.toList ++ List.replicate (12 - t.name.length) ' ' ++ [' '] ++
    t.description.toList ++ ['\n']

def templateList : Text := "Available templates:\n".toList ++ templates.flatMap Template.line

/-- Writes a template to a path at which nothing is, making the directories around it. -/
def Template.write (t : Template) (path : Text) (d : Disk) : Disk × Except Text Unit :=
  if d.exists? path then
    (d, .error (path ++ " already exists; pass --output to pick another path".toList))
  else
    let parent := (Path.parent? path).getD []
    match Disk.makeAll parent d with
    | (d, .error _) => (d, .error ("cannot create ".toList ++ parent))
    | (d, .ok _) =>
      match d.write path (Text.bytes t.content.toList) with
      | .error _ => (d, .error ("cannot write ".toList ++ path))
      | .ok d => (d, .ok ())

def unknownTemplate (name : Text) : Text :=
  "unknown template ".toList ++ Text.quoted name ++ " (available: ".toList ++
    Text.joinWith [',', ' '] (templates.map (·.name.toList)) ++ [')']

def runInit (args : InitArgs) (d : Disk) : Disk × Outcome :=
  if args.list then (d, { code := Outcome.success, stdout := templateList })
  else match templates.find? fun t => t.name.toList = args.template with
    | none => (d, .failure (unknownTemplate args.template))
    | some t =>
      match t.write args.output d with
      | (d, .error message) => (d, .failure message)
      | (d, .ok _) =>
        (d,
          { code := Outcome.success
            stdout :=
              "Created ".toList ++ args.output ++ " (".toList ++ t.name.toList ++
                " template)\nRun: serverfn transform <build dir> --config ".toList ++ args.output ++
                ['\n'] })

end ServerSplit.Command
