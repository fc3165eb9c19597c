import ServerSplit.Text.Digits

/-! Strings of JSON: between double quotes, with quotes, backslashes and controls escaped. -/
namespace ServerSplit.Json

/-- The letter behind the backslash for a character that has a short escape. -/
def shortEscape? (c : Char) : Option Char :=
  if c = '"' then some '"'
  else if c = '\\' then some '\\'
  else if c = '\x08' then some 'b'
  else if c = '\t' then some 't'
  else if c = '\n' then some 'n'
  else if c = '\x0c' then some 'f'
  else if c = '\r' then some 'r'
  else none

def escaped (c : Char) : Text :=
  match shortEscape? c with
  | some e => ['\\', e]
  | none => if c.toNat < 0x20 then ['\\', 'u'] ++ Text.hex 4 c.toNat else [c]

/-- A text as a string of JSON. -/
def quoted (t : Text) : Text := '"' :: t.flatMap escaped ++ ['"']

end ServerSplit.Json
