import ServerSplit.Json.Quoted
import ServerSplit.Text.Blank

/-! What takes the place of a function: a function of the same name that asks the server. -/
namespace ServerSplit

/-- The lines of a stub. The endpoint and the identifier are strings of JSON, so neither can end its
literal early. -/
def stubLines (name id endpoint : Text) : List Text :=
  ["async function ".toList ++ name ++ "() \x7b".toList,
   "  return fetch(".toList ++ Json.quoted endpoint ++ ", \x7b".toList,
   "    method: \"POST\",".toList,
   "    headers: \x7b \"Content-Type\": \"application/json\" \x7d,".toList,
   "    body: JSON.stringify(\x7b id: ".toList ++ Json.quoted id ++ ", args: [...arguments] \x7d),".toList,
   "  \x7d).then((r) => r.json());".toList,
   "\x7d".toList]

/-- A stub on one line, or on lines that begin as the line of the function it stands for. -/
def stubText (name id endpoint indent : Text) (singleLine : Bool) : Text :=
  let lines := stubLines name id endpoint
  if singleLine then Text.joinWith [' '] (lines.map Text.trim)
  else Text.joinWith ['\n'] (lines.take 1 ++ (lines.drop 1).map (indent ++ ·))

end ServerSplit
