import ServerSplit.Config.Basic
import ServerSplit.Json.Quoted
import ServerSplit.Registry

/-! The generated module: the functions of a registry, and a function that calls them by their
identifiers. -/
namespace ServerSplit.Sdk

def entry (r : Record) : Text :=
  "    [".toList ++ Json.quoted r.id ++ ", ".toList ++ r.sourceText ++ "],\n".toList

def entries (r : Registry) : Text := r.records.flatMap entry

/-- What stands behind the entries of every module. -/
def dispatch : Text :=
  ("  ]);\n\n" ++
    "  async function invokeApi(identifier, args = []) \x7b\n" ++
    "    const method = availableMethods.get(identifier);\n" ++
    "    if (typeof method !== \"function\") \x7b\n" ++
    "      throw new Error(`Unknown server function: $\x7bidentifier\x7d`);\n" ++
    "    \x7d\n" ++
    "    return method(...args);\n" ++
    "  \x7d\n\n" ++
    "  return invokeApi;\n" ++
    "\x7d\n").toList

/-- The text of the module. -/
def render (factory : Text) (format : ModuleFormat) (r : Registry) : Text :=
  "// Generated by serverfn. Do not edit.\n".toList ++
    (match format with
      | .esm => "export ".toList
      | .commonjs => []) ++
    "function ".toList ++ factory ++ "() \x7b\n  const availableMethods = new Map([\n".toList ++
    entries r ++ dispatch ++
    (match format with
      | .esm => []
      | .commonjs => "\nmodule.exports = \x7b ".toList ++ factory ++ " \x7d;\n".toList)

end ServerSplit.Sdk
