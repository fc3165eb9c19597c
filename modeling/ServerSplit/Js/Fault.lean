import ServerSplit.Js.Parse
import ServerSplit.Js.Repair.Recovery
import ServerSplit.Text.Place
import ServerSplit.Text.Quoted

/-! Where a source has its first error of syntax. -/
namespace ServerSplit.Js

/-- The place of an error and the text from there on. -/
structure Fault where
  place : Place
  near : Text
  deriving Repr, DecidableEq

def Fault.message (f : Fault) : Text :=
  "syntax error at ".toList ++ Text.ofNat f.place.line ++ [':'] ++ Text.ofNat f.place.column ++
    " near ".toList ++ Text.quoted f.near

def Fault.ofText (t : Text) : Fault :=
  let offset := Repair.firstError t
  ⟨Place.ofOffset t offset, (Text.slice offset t.size t).take 40⟩

/-- The tree of a source, or where it is broken. -/
def read (t : Text) : Except Fault Tree :=
  match parse t with
  | some tree => .ok tree
  | none => .error (Fault.ofText t)

end ServerSplit.Js
