import ServerSplit.Yaml.Event

/-! The first document of a text of YAML, as far as it can be read. -/
namespace ServerSplit.Yaml

/-- What is wrong with a document. -/
inductive Trouble
  | malformed (fault : Fault)
  | unknownAnchor (mark : Mark)
  deriving Repr, DecidableEq

/-- A node or the end of one. An alias has the number of an anchor. -/
inductive Part
  | alias (anchor : Nat)
  | scalar (s : Scalar)
  | sequenceStart (tag : Option Text)
  | sequenceEnd
  | mappingStart (tag : Option Text)
  | mappingEnd
  deriving Repr, DecidableEq

/-- A document up to its end or to what is wrong with it. -/
structure Document where
  parts : List (Part × Mark) := []
  /-- The numbers of anchors and the parts that have them, the last ones first. -/
  anchors : List (Nat × Nat) := []
  trouble : Option Trouble := none
  deriving Repr

namespace Document

/-- The document from an anchored part on. -/
def fromAnchor (d : Document) (anchor : Nat) : List (Part × Mark) :=
  d.parts.drop ((d.anchors.lookup anchor).getD d.parts.length)

/-- A document in its making, with the names of its anchors. -/
structure Draft where
  document : Document := {}
  /-- The last number that each name got. -/
  names : List (Text × Nat) := []

namespace Draft

def add (d : Draft) (p : Part) (m : Mark) : Draft :=
  { d with document := { d.document with parts := d.document.parts ++ [(p, m)] } }

/-- Gives the next part an anchor; its number is the number of names before it. -/
def name (d : Draft) : Option Text → Draft
  | none => d
  | some a =>
    let number := d.names.length
    { document :=
        { d.document with anchors := (number, d.document.parts.length) :: d.document.anchors }
      names := (a, number) :: d.names.filter (·.1 ≠ a) }

def fail (d : Draft) (t : Trouble) : Document := { d.document with trouble := some t }

end Draft

/-- Reads a document to its end; also where the parser then is, unless it failed or the text ended.
The fuel exceeds the number of events left. -/
def read : Nat → Draft → Parser → Document × Option Parser
  | 0, d, p => (d.document, some p)
  | n + 1, d, p =>
    match Parser.step.run p with
    | .error e => (d.fail (.malformed e), none)
    | .ok ((e, m), p) =>
      match e with
      | .documentStart => read n d p
      | .documentEnd => (d.document, some p)
      | .streamEnd => (d.document, none)
      | .alias name =>
        match d.names.lookup name with
        | some number => read n (d.add (.alias number) m) p
        | none => (d.fail (.unknownAnchor m), none)
      | .scalar s anchor => read n ((d.name anchor).add (.scalar s) m) p
      | .sequenceStart tag anchor => read n ((d.name anchor).add (.sequenceStart tag) m) p
      | .sequenceEnd => read n (d.add .sequenceEnd m) p
      | .mappingStart tag anchor => read n ((d.name anchor).add (.mappingStart tag) m) p
      | .mappingEnd => read n (d.add .mappingEnd m) p

/-- Whether another document starts, or something that is none. -/
def isFollowed : Option Parser → Bool
  | none => false
  | some p =>
    match Parser.step.run p with
    | .ok ((.streamEnd, _), _) => false
    | _ => true

/-- The first document of a text, and whether it is the only one. -/
def ofText (t : Text) : Document × Bool :=
  match unreadable? t with
  | some f => ({ trouble := some (.malformed f) }, true)
  | none =>
    let (d, p) := read (8 * t.length + 16) {} (.ofText t)
    (d, !isFollowed p)

end Document

end ServerSplit.Yaml
