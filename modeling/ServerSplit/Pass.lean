import ServerSplit.Diagnostic
import ServerSplit.Directive
import ServerSplit.Extract
import ServerSplit.Js.Fault
import ServerSplit.Sdk
import ServerSplit.Splice
import ServerSplit.Stub

/-! One pass over the files of a build. Every marked function that is inside no other is replaced by a
stub, and the functions themselves are collected for the server. -/
namespace ServerSplit

open Js (Tree FunctionKind)

/-- A file of a build: its path below the root and its text. -/
structure Artifact where
  path : Text
  source : Text
  deriving Repr, DecidableEq

/-- What ends a pass. -/
inductive PassFault
  | broken (path : Text) (fault : Js.Fault)
  | unnamed (path : Text) (line : Nat) (kind : FunctionKind)
  | duplicate (path : Text) (line : Nat) (id : Text)
  deriving Repr, DecidableEq

def PassFault.message : PassFault → Text
  | .broken path f => path ++ ": ".toList ++ f.message
  | .unnamed path line kind =>
    path ++ [':'] ++ Text.ofNat line ++ ": server function must be a named function, found ".toList ++
      kind.label.toList
  | .duplicate path line id =>
    path ++ [':'] ++ Text.ofNat line ++ ": server function id ".toList ++ Text.quoted id ++
      " is already registered".toList

/-- A pass in progress. -/
structure Pass where
  config : Config
  registry : Registry := .empty
  /-- In the order in which they were raised. -/
  diagnostics : List Diagnostic := []

namespace Pass

def report (p : Pass) (d : Diagnostic) : Pass := { p with diagnostics := p.diagnostics ++ [d] }

def orphan (directive path source : Text) (literal : Tree) : Diagnostic :=
  { kind := .orphanDirective
    file := path
    line := Extracted.lineOf source literal
    message := ['\''] ++ directive ++
      "' directive should only be used inside a named function".toList }

def nested (path source : Text) (m : Marker) (ownerLine : Nat) : Diagnostic :=
  { kind := .nestedDirective
    file := path
    line := Extracted.lineOf source m.literal
    message := "directive is inside the server function at line ".toList ++ Text.ofNat ownerLine ++
      "; it stays part of that function".toList }

def dropped (path : Text) (f : Extracted) (kept : Record) : Diagnostic :=
  { kind := .duplicateFunction
    file := path
    line := f.line
    message := "server function ".toList ++ Text.quoted f.id ++ " already registered from ".toList ++
      kept.artifact ++ [':'] ++ Text.ofNat kept.line ++ "; this definition was dropped".toList }

/-- Registers a function under its identifier. -/
def register (p : Pass) (path : Text) (f : Extracted) : Pass × Except PassFault Unit :=
  match p.registry.register ⟨f.id, f.name, f.sourceText, path, f.line⟩ with
  | (registry, none) => ({ p with registry }, .ok ())
  | (_, some kept) =>
    if p.config.strictDuplicates then (p, .error (.duplicate path f.line f.id))
    else (p.report (dropped path f kept), .ok ())

/-- Takes out one function, which must have a name of its own. -/
def extract (path source : Text) (owner : Tree) : Except PassFault Extracted :=
  match Extracted.ofFunction? path source owner with
  | some f => .ok f
  | none =>
    .error (.unnamed path (Extracted.lineOf source owner) (owner.functionKind?.getD .declaration))

/-- An outer function before those inside it. -/
def outerFirst (a b : Marker) : Bool :=
  decide (a.owner.start < b.owner.start) ||
    (decide (a.owner.start = b.owner.start) && decide (b.owner.stop ≤ a.owner.stop))

/-- Whether a function lies inside one that is taken out already. -/
def encloses (f : Extracted) (t : Tree) : Bool :=
  decide (f.start ≤ t.start) && decide (t.stop ≤ f.stop)

/-- Takes out the marked functions, an outer one before those inside it; `taken` are those before. -/
def takeOut (path source : Text) :
    Pass → List Extracted → List Marker → Pass × Except PassFault (List Extracted)
  | p, taken, [] => (p, .ok taken)
  | p, taken, m :: ms =>
    match taken.find? (encloses · m.owner) with
    | some owner => takeOut path source (p.report (nested path source m owner.line)) taken ms
    | none =>
      match extract path source m.owner with
      | .error e => (p, .error e)
      | .ok f =>
        match p.register path f with
        | (p, .ok _) => takeOut path source p (taken ++ [f]) ms
        | (p, .error e) => (p, .error e)

def edit (endpoint : Text) (f : Extracted) : Edit :=
  ⟨f.start, f.stop, stubText f.name f.id endpoint f.indent f.singleLine⟩

/-- Rewrites one file; gives its new text if it changed. What was registered before an error stays. -/
def process (p : Pass) (a : Artifact) : Pass × Except PassFault (Option Text) :=
  match Js.read a.source with
  | .error e => (p, .error (.broken a.path e))
  | .ok tree =>
    let found := (Directive.orphans p.config.directive tree).map
      (orphan p.config.directive a.path a.source)
    let markers := (Directive.markers p.config.directive tree).mergeSort outerFirst
    match takeOut a.path a.source { p with diagnostics := p.diagnostics ++ found } [] markers with
    | (p, .error e) => (p, .error e)
    | (p, .ok []) => (p, .ok none)
    | (p, .ok taken) =>
      (p, .ok (some (Edit.applyAll a.source (taken.map (edit p.config.endpoint)))))

/-- What a pass makes. -/
structure Output where
  artifacts : List Artifact
  /-- The paths of the files that changed. -/
  rewritten : List Text
  sdk : Artifact
  registry : Registry
  diagnostics : List Diagnostic
  /-- The number of files that were looked at. -/
  scanned : Nat

def Output.hasWarnings (o : Output) : Bool := o.diagnostics.any (·.severity ≠ .info)

/-- The files with those that are looked at rewritten, the paths of the changed ones, and how many were
looked at. The first error ends it. -/
def processAll : Pass → List Artifact → Except PassFault (Pass × List Artifact × List Text × Nat)
  | p, [] => .ok (p, [], [], 0)
  | p, a :: as =>
    if p.config.accepts a.path then
      match p.process a with
      | (_, .error e) => .error e
      | (p, .ok changed) =>
        match processAll p as with
        | .error e => .error e
        | .ok (p, done, rewritten, scanned) =>
          match changed with
          | some source => .ok (p, ⟨a.path, source⟩ :: done, a.path :: rewritten, scanned + 1)
          | none => .ok (p, a :: done, rewritten, scanned + 1)
    else
      match processAll p as with
      | .error e => .error e
      | .ok (p, done, rewritten, scanned) => .ok (p, a :: done, rewritten, scanned)

/-- Ends a pass with the given files. -/
def run (p : Pass) (as : List Artifact) : Except PassFault Output :=
  match processAll p as with
  | .error e => .error e
  | .ok (q, artifacts, rewritten, scanned) =>
    .ok
      { artifacts, rewritten, scanned
        sdk := ⟨p.config.sdkPath, Sdk.render p.config.sdkFactory p.config.moduleFormat q.registry⟩
        registry := q.registry
        diagnostics := q.diagnostics }

end Pass

/-- One pass with nothing registered before it. -/
def runPass (c : Config) (as : List Artifact) : Except PassFault Pass.Output :=
  Pass.run { config := c } as

end ServerSplit
