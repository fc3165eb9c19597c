import ServerSplit.Config.Basic
import ServerSplit.Text.Blank
import ServerSplit.Text.Quoted

/-! What makes a configuration usable. -/
namespace ServerSplit

/-- Why a configuration is not usable. -/
inductive ConfigFault
  | emptyDirective
  | brokenDirective (directive : Text)
  | relativeEndpoint (endpoint : Text)
  | emptySuffix
  | factoryName (name : Text)
  | emptySdkPath
  | pattern (pattern : Text) (fault : Glob.Fault)
  deriving Repr, DecidableEq

def ConfigFault.message : ConfigFault → Text
  | .emptyDirective => "directive must not be empty".toList
  | .brokenDirective d =>
    "directive ".toList ++ Text.quoted d ++
      " must not contain quotes, backslashes or line breaks".toList
  | .relativeEndpoint e => "endpoint ".toList ++ Text.quoted e ++ " must be an absolute path".toList
  | .emptySuffix => "asset_suffix must not be empty".toList
  | .factoryName n =>
    "sdk_factory ".toList ++ Text.quoted n ++ " is not a valid JavaScript identifier".toList
  | .emptySdkPath => "sdk_path must not be empty".toList
  | .pattern p f =>
    "invalid excluded_paths pattern ".toList ++ Text.quoted p ++ ": error parsing glob '".toList ++
      p ++ "': ".toList ++ f.message

namespace Config

/-- A name in plain letters, digits, underscores and dollar signs, the first of them no digit. -/
def isPlainName : Text → Bool
  | [] => false
  | c :: r =>
    let starts := fun c : Char => c.isAlpha || c = '_' || c = '$'
    starts c && r.all fun c => starts c || c.isDigit

/-- The first pattern that is none. -/
def patternFault? : List Text → Option ConfigFault
  | [] => none
  | p :: ps =>
    match Glob.parse p with
    | .ok _ => patternFault? ps
    | .error f => some (.pattern p f)

/-- The first fault of a configuration. -/
def fault? (c : Config) : Option ConfigFault :=
  if (Text.trim c.directive).isEmpty then some .emptyDirective
  else if c.directive.any "\"'\n\\".toList.contains then some (.brokenDirective c.directive)
  else if c.endpoint.head? ≠ some '/' then some (.relativeEndpoint c.endpoint)
  else if c.assetSuffix.isEmpty then some .emptySuffix
  else if !isPlainName c.sdkFactory then some (.factoryName c.sdkFactory)
  else if c.sdkPath.isEmpty then some .emptySdkPath
  else patternFault? c.excludedPaths

end Config

end ServerSplit
