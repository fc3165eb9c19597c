import ServerSplit.Glob.Match

/-! What a pass is told: the directive that marks functions, where they go, and which files to leave. -/
namespace ServerSplit

/-- How the generated module gives out its function. -/
inductive ModuleFormat
  | esm
  | commonjs
  deriving Repr, DecidableEq

def ModuleFormat.label : ModuleFormat → String
  | .esm => "esm"
  | .commonjs => "commonjs"

structure Config where
  directive : Text := "use server".toList
  /-- The path that stubs ask. -/
  endpoint : Text := "/api/internal/bff".toList
  /-- The end of the paths of files that are looked at. -/
  assetSuffix : Text := ".js".toList
  /-- Where the generated module goes. -/
  sdkPath : Text := "src/__generated__/server-sdk.js".toList
  /-- The name of the function that the generated module gives out. -/
  sdkFactory : Text := "createServerSdk".toList
  moduleFormat : ModuleFormat := .esm
  /-- Patterns of paths that are left alone. -/
  excludedPaths : List Text := []
  /-- Whether a second function with an identifier is an error. -/
  strictDuplicates : Bool := false
  deriving Repr, DecidableEq

def Config.excludes (c : Config) (path : Text) : Bool := c.excludedPaths.any (Glob.fits · path)

/-- Whether a pass looks at the file of a path. -/
def Config.accepts (c : Config) (path : Text) : Bool :=
  Text.endsWith c.assetSuffix path && !c.excludes path

end ServerSplit
