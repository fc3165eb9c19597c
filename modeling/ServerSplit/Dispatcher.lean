import ServerSplit.Registry
import ServerSplit.Request

/-! The server's side of a call: handlers by identifiers. The first handler for an identifier keeps it. -/
namespace ServerSplit

/-- What answers a call, or says why it cannot. -/
abbrev Handler := List Json → Except Text Json

/-- Why a call has no answer. -/
inductive DispatchFault
  | malformed (body : List UInt8) (fault : Json.Fault)
  | unknown (id : Text)
  | failed (id reason : Text)

def DispatchFault.message : DispatchFault → Text
  | .malformed body f => "malformed request body: ".toList ++ f.message body
  | .unknown id => "unknown server function: ".toList ++ id
  | .failed id reason => "server function ".toList ++ id ++ " failed: ".toList ++ reason

/-- Handlers in the order of their registration. -/
structure Dispatcher where
  handlers : List (Text × Handler)

namespace Dispatcher

def empty : Dispatcher := ⟨[]⟩

def get? (d : Dispatcher) (id : Text) : Option Handler :=
  (d.handlers.find? (·.1 = id)).map (·.2)

def contains (d : Dispatcher) (id : Text) : Bool := (d.get? id).isSome

def size (d : Dispatcher) : Nat := d.handlers.length

/-- The dispatcher with one more handler, and whether its identifier was free. -/
def register (d : Dispatcher) (id : Text) (h : Handler) : Dispatcher × Bool :=
  if d.contains id then (d, false) else (⟨d.handlers ++ [(id, h)]⟩, true)

def invoke (d : Dispatcher) (id : Text) (args : List Json) : Except DispatchFault Json :=
  match d.get? id with
  | none => .error (.unknown id)
  | some h =>
    match h args with
    | .ok v => .ok v
    | .error reason => .error (.failed id reason)

/-- Answers the body of a call. -/
def handle (d : Dispatcher) (body : List UInt8) : Except DispatchFault Json :=
  match Request.ofBytes body with
  | .ok r => d.invoke r.id r.args
  | .error f => .error (.malformed body f)

/-- The identifiers of a registry that have no handler. -/
def missing (d : Dispatcher) (r : Registry) : List Text := r.ids.filter (!d.contains ·)

end Dispatcher

end ServerSplit
