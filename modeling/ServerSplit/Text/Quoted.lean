import ServerSplit.Text.Digits
import ServerSplit.Text.Hidden

/-! Texts in messages: between double quotes, with what cannot be seen written out. -/
namespace ServerSplit.Text

def quotedChar (c : Char) : Text :=
  if c = '\x00' then ['\\', '0']
  else if c = '\t' then ['\\', 't']
  else if c = '\r' then ['\\', 'r']
  else if c = '\n' then ['\\', 'n']
  else if c = '\\' ∨ c = '"' then ['\\', c]
  else if isHidden c then ['\\', 'u', '\x7b'] ++ ofNat c.toNat 16 ++ ['\x7d']
  else [c]

/-- A text between quotes. -/
def quoted (t : Text) : Text := '"' :: t.flatMap quotedChar ++ ['"']

end ServerSplit.Text
