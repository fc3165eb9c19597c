import ServerSplit.Config.Basic
import ServerSplit.Text.Blank
import ServerSplit.Yaml.Document
import ServerSplit.Yaml.Value

/-! Configurations from files of YAML. Every field may be missing; fields of other names are passed
over. -/
namespace ServerSplit.Config

open Yaml (Document Mark Part Scalar Trouble)

/-- The way to a value from the root of a file. -/
inductive Path
  | root
  /-- The value of a key, which has a name unless it is an alias. -/
  | member (parent : Path) (key : Option Text)
  | item (parent : Path) (index : Nat)
  deriving Repr, DecidableEq

namespace Path

def text : Path → Text
  | root => ['.']
  | member root key => key.getD ['?']
  | member p key => p.text ++ ['.'] ++ key.getD ['?']
  | item p i => p.text ++ ['['] ++ Text.ofNat i ++ [']']

/-- Names a value before a message about it, unless it is the whole file. -/
def head : Path → Text
  | root => []
  | p => p.text ++ ": ".toList

end Path

/-- Why a file is no configuration. -/
inductive ReadFault
  | trouble (t : Trouble)
  /-- The document ends in the middle of a value. -/
  | ended
  | manyDocuments
  /-- A value is not as expected; its path and its place in the file. -/
  | value (message : Text) (place : Option (Path × Mark))
  deriving Repr, DecidableEq

def ReadFault.message : ReadFault → Text
  | .trouble (.malformed f) => f.message
  | .trouble (.unknownAnchor m) => "unknown anchor".toList ++ m.suffix
  | .ended => "EOF while parsing a value".toList
  | .manyDocuments =>
    "deserializing from YAML containing more than one document is not supported".toList
  | .value t none => t
  | .value t (some (p, m)) => p.head ++ t ++ m.suffix

/-- A fault without a place gets the given one. -/
def ReadFault.at (path : Path) (mark : Mark) : ReadFault → ReadFault
  | .value t none => .value t (some (path, mark))
  | f => f

/-- What is left of a document. -/
abbrev Rest := List (Part × Mark)

/-- Reads a value at the head of a rest, at a path. -/
abbrev Decodes (α : Type) := Path → Rest → Except ReadFault (α × Rest)

/-- Reads a value that starts with the given part. -/
abbrev Visits (α : Type) := Part → Path → Rest → Except ReadFault (α × Rest)

/-! ### Single values -/

def next (d : Document) : Rest → Except ReadFault ((Part × Mark) × Rest)
  | p :: r => .ok (p, r)
  | [] => .error (d.trouble.elim .ended .trouble)

/-- Reads a value, or the value that an alias stands for; its faults are placed where it starts. -/
def decode {α : Type} (d : Document) (f : Visits α) : Decodes α := fun path r => do
  let ((p, m), r) ← next d r
  match p with
  | .alias a =>
    let ((p, m), s) ← next d (d.fromAnchor a)
    let (v, _) ← (f p path s).mapError (·.at path m)
    return (v, r)
  | p => (f p path r).mapError (·.at path m)

def fail {α : Type} (message : Text) : Except ReadFault α := .error (.value message none)

/-- Fails at a part of another type than the expected one. -/
def failType {α : Type} (expected : String) (p : Part) : Except ReadFault α :=
  let wrong := fun (found : Text) =>
    fail ("invalid type: ".toList ++ found ++ ", expected ".toList ++ expected.toList)
  match p with
  | .scalar s =>
    match s.value with
    | .ok v => wrong v.describe
    | .error what =>
      fail ("invalid value: string ".toList ++ Text.quoted s.text ++ ", expected ".toList ++ what.toList)
  | .mappingStart _ | .mappingEnd => wrong "map".toList
  | .sequenceStart _ | .sequenceEnd | .alias _ => wrong "sequence".toList

/-- The text of a scalar, whatever it stands for. -/
def visitText (expected : String) : Visits Text := fun p _ r =>
  match p with
  | .scalar s => .ok (s.text, r)
  | p => failType expected p

def visitFlag : Visits Bool := fun p _ r =>
  match p with
  | .scalar s =>
    match if s.mayBeBool then Yaml.Value.bool? s.text else none with
    | some b => .ok (b, r)
    | none => failType "a boolean" p
  | p => failType "a boolean" p

def formatNamed (name : Text) : Except ReadFault ModuleFormat :=
  match [ModuleFormat.esm, .commonjs].find? (·.label.toList = name) with
  | some f => .ok f
  | none =>
    fail ("unknown variant `".toList ++ name ++ "`, expected `esm` or `commonjs`".toList)

/-- The name in a tag of the file's own. -/
def ownTag? : Option Text → Option Text
  | some ('!' :: name) => some name
  | _ => none

/-- A format as a tag, behind which nothing stands. A name that is none has no place of its own. -/
def taggedFormat (name : Text) (isNothing : Bool) (whole : Mark) (mismatch : Except ReadFault Unit) :
    Except ReadFault ModuleFormat := do
  let format ← (formatNamed name).mapError (·.at .root whole)
  if isNothing then return format
  else
    mismatch
    return format

/-- A format, in a file whose values start at `whole`. -/
def visitFormat (whole : Mark) : Visits ModuleFormat := fun p _ r =>
  let noTag := fun (found : String) =>
    fail ("invalid type: ".toList ++ found.toList ++ ", expected a YAML tag starting with '!'".toList)
  match p with
  | .scalar s => do
    match ownTag? s.tag with
    | some name =>
      let isNothing := s.style = .plain && (s.text.isEmpty || Yaml.Value.isNull s.text)
      let format ← taggedFormat name isNothing whole
        (fail ("invalid value: string ".toList ++ Text.quoted s.text ++ ", expected null".toList))
      return (format, r)
    | none => return (← formatNamed s.text, r)
  | .mappingStart tag => do
    match ownTag? tag with
    | some name => return (← taggedFormat name false whole (failType "unit" p), r)
    | none => noTag "map"
  | .sequenceStart tag => do
    match ownTag? tag with
    | some name => return (← taggedFormat name false whole (failType "unit" p), r)
    | none => noTag "sequence"
  | p => failType "a YAML tag starting with '!'" p

/-! ### Lists -/

/-- Texts up to the end of their list. The fuel exceeds the number of parts left. -/
def readItems (d : Document) (path : Path) : Nat → Nat → Rest → Except ReadFault (List Text × Rest)
  | 0, _, _ => .error .ended
  | n + 1, i, r => do
    let ((p, _), after) ← next d r
    if p = .sequenceEnd then return ([], after)
    else
      let (t, r) ← decode d (visitText "a string") (.item path i) r
      let (ts, r) ← readItems d path n (i + 1) r
      return (t :: ts, r)

def visitTexts (d : Document) : Visits (List Text) := fun p path r =>
  match p with
  | .sequenceStart _ => readItems d path (r.length + 1) 0 r
  | .scalar s => if s.text.isEmpty ∧ s.style = .plain then .ok ([], r) else failType "a sequence" p
  | p => failType "a sequence" p

/-- Passes over a value; `depth` is the number of open collections. -/
def skipValue (d : Document) : Nat → Rest → Except ReadFault Rest
  | _, [] => .error (d.trouble.elim .ended .trouble)
  | depth, (p, _) :: r =>
    let depth := match p with
      | .sequenceStart _ | .mappingStart _ => depth + 1
      | .sequenceEnd | .mappingEnd => depth - 1
      | _ => depth
    if depth = 0 then .ok r else skipValue d depth r

/-! ### The fields -/

/-- The fields that have been read. -/
structure Fields where
  directive : Option Text := none
  endpoint : Option Text := none
  assetSuffix : Option Text := none
  sdkPath : Option Text := none
  sdkFactory : Option Text := none
  moduleFormat : Option ModuleFormat := none
  excludedPaths : Option (List Text) := none
  strictDuplicates : Option Bool := none

/-- The configuration in which missing fields have their usual values. -/
def Fields.config (f : Fields) : Config :=
  let usual : Config := {}
  { directive := f.directive.getD usual.directive
    endpoint := f.endpoint.getD usual.endpoint
    assetSuffix := f.assetSuffix.getD usual.assetSuffix
    sdkPath := f.sdkPath.getD usual.sdkPath
    sdkFactory := f.sdkFactory.getD usual.sdkFactory
    moduleFormat := f.moduleFormat.getD usual.moduleFormat
    excludedPaths := f.excludedPaths.getD usual.excludedPaths
    strictDuplicates := f.strictDuplicates.getD usual.strictDuplicates }

/-- Reads a field that has not been read before. -/
def once {α : Type} (d : Document) (name : String) (old : Option α) (f : Visits α)
    (set : Option α → Fields) (path : Path) (r : Rest) : Except ReadFault (Fields × Rest) := do
  if old.isSome then fail ("duplicate field `".toList ++ name.toList ++ ['`'])
  else
    let (v, r) ← decode d f path r
    return (set (some v), r)

/-- Reads the value of a key. -/
def readField (d : Document) (whole : Mark) (f : Fields) (key : Text) :
    Path → Rest → Except ReadFault (Fields × Rest) :=
  match String.ofList key with
  | "directive" =>
    once d "directive" f.directive (visitText "a string") fun v => { f with directive := v }
  | "endpoint" =>
    once d "endpoint" f.endpoint (visitText "a string") fun v => { f with endpoint := v }
  | "asset_suffix" =>
    once d "asset_suffix" f.assetSuffix (visitText "a string") fun v => { f with assetSuffix := v }
  | "sdk_path" =>
    once d "sdk_path" f.sdkPath (visitText "path string") fun v => { f with sdkPath := v }
  | "sdk_factory" =>
    once d "sdk_factory" f.sdkFactory (visitText "a string") fun v => { f with sdkFactory := v }
  | "module_format" =>
    once d "module_format" f.moduleFormat (visitFormat whole) fun v => { f with moduleFormat := v }
  | "excluded_paths" =>
    once d "excluded_paths" f.excludedPaths (visitTexts d) fun v => { f with excludedPaths := v }
  | "strict_duplicates" =>
    once d "strict_duplicates" f.strictDuplicates visitFlag fun v => { f with strictDuplicates := v }
  | _ => fun _ r => (skipValue d 0 r).map fun r => (f, r)

/-- Reads keys and values up to the end of their mapping, which starts at `whole`. The fuel exceeds
the number of parts left. -/
def readFields (d : Document) (whole : Mark) : Nat → Fields → Rest → Except ReadFault Fields
  | 0, _, _ => .error .ended
  | n + 1, f, r => do
    let ((p, _), _) ← next d r
    match p with
    | .mappingEnd => return f
    | p =>
      let name := match p with
        | .scalar s => some s.text
        | _ => none
      let (key, r) ← decode d (visitText "field identifier") .root r
      let (f, r) ← readField d whole f key (.member .root name) r
      readFields d whole n f r

/-- The configuration that a document holds. -/
def ofDocument (d : Document) : Except ReadFault Config := do
  let config ← match d.parts, d.trouble with
    | [], none => .ok {}
    | [], some t => .error (.trouble t)
    | (p, m) :: r, _ =>
      let read : Except ReadFault Config := match p with
        | .mappingStart _ => (readFields d m (r.length + 1) {} r).map Fields.config
        | .scalar s => if s.text.isEmpty ∧ s.style = .plain then .ok {} else failType "struct Config" p
        | p => failType "struct Config" p
      read.mapError (·.at .root m)
  match d.trouble with
  | some t => .error (.trouble t)
  | none => return config

/-- The configuration that a text holds; a blank one holds the usual values. -/
def ofText (t : Text) : Except ReadFault Config :=
  if (Text.trim t).isEmpty then .ok {}
  else
    let (d, alone) := Document.ofText t
    match ofDocument d with
    | .ok c => if alone then .ok c else .error .manyDocuments
    | .error f => .error f

end ServerSplit.Config
