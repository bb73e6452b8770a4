import SimAnnotate.Document.Basic
import SimAnnotate.Quoted

/-!
# From values to documents

The fields of a record are read in the order in which they stand, and the first
that cannot be read decides the error; a field that is missing counts after all
of them. A null stands for an empty record, sequence or map, and a tag around
one of these or around a string does not count.
-/

namespace SimAnnotate

open Yaml (Value)

/-! ## Errors -/

inductive DecodeError where
  | unexpected (found : Value) (expected : String)
  | missingField (name : String)
  | duplicateField (name : String)
  /-- A tag inside a field that is kept as it is. -/
  | tagInField
  /-- Two keys that are the same without one mark in front of their tags. -/
  | repeatedKey
  | labelNotScalar (key : String)
deriving DecidableEq

namespace DecodeError

/-- Messages write every finite number without an exponent. -/
def floatText : FloatText := ⟨fun _ => true, "inf", "NaN"⟩

/-- How a message names a value. -/
def found : Value → String
  | .null => "unit value"
  | .bool b => "boolean \x60" ++ (if b then "true" else "false") ++ "\x60"
  | .number (.int n) => "integer \x60" ++ toString n ++ "\x60"
  | .number (.float x) => "floating point \x60" ++ floatText.write x ++ "\x60"
  | .string s => "string " ++ quoted s
  | .sequence _ => "sequence"
  | .mapping _ => "map"
  | .tagged _ v => found v

def message : DecodeError → String
  | .unexpected v expected =>
      "invalid type: " ++ found v ++ ", expected " ++ expected
  | .missingField name => "missing field \x60" ++ name ++ "\x60"
  | .duplicateField name => "duplicate field \x60" ++ name ++ "\x60"
  | .tagInField =>
      "untagged and internally tagged enums do not support enum input"
  | .repeatedKey => "<syntax>"
  | .labelNotScalar key => "label " ++ key ++ " is not a scalar value"

end DecodeError

abbrev Decoded := Except DecodeError

namespace Decode

/-! ## Strings, sequences and maps -/

def stringFor (expected : String) (v : Value) : Decoded String :=
  match v.untag with
  | .string s => .ok s
  | v => .error (.unexpected v expected)

def string : Value → Decoded String := stringFor "a string"

/-- A value that may be null. Only a null without a tag is one. -/
def optional {α : Type} (read : Value → Decoded α) (v : Value) :
    Decoded (Option α) :=
  match v with
  | .null => .ok none
  | v => (read v).map some

def sequence {α : Type} (read : Value → Decoded α) (v : Value) :
    Decoded (List α) :=
  match v.untag with
  | .sequence xs => xs.mapM read
  | .null => .ok []
  | v => .error (.unexpected v "a sequence")

/-- A value as it is taken over: every tag in it loses one mark in front. -/
def value (v : Value) : Decoded Value :=
  if v.dropMarks.repeatsKey then .error .repeatedKey else .ok v.dropMarks

def mapEntry (e : Value × Value) : Decoded (String × Value) := do
  return (← string e.1, ← value e.2)

/-- A map with strings for keys. -/
def map (v : Value) : Decoded (OrderedMap String Value) :=
  match v.untag with
  | .mapping es => (es.mapM mapEntry).map OrderedMap.ofList
  | .null => .ok ∅
  | v => .error (.unexpected v "a map")

/-- A label's value; null is the empty string. -/
def labelText? : Value → Option String
  | .string s => some s
  | .bool b => some (if b then "true" else "false")
  | .number n => some n.text
  | .null => some ""
  | _ => none

def label (e : String × Value) : Decoded (String × String) :=
  match labelText? e.2 with
  | some s => .ok (e.1, s)
  | none => .error (.labelNotScalar e.1)

def labels (v : Value) : Decoded Labels := do
  let m ← map v
  let es ← m.entries.mapM label
  return OrderedMap.ofList es

/-! ## Records -/

/-- How the fields of a record are read, one after the other, into a value of
type `σ`. -/
structure Record (σ : Type) where
  name : String
  start : σ
  /-- Reads the declared field of that name. -/
  field? : String → Option (Value → σ → Decoded σ)
  /-- Keeps another field. Where nothing is kept any field is allowed. -/
  keep? : Option (String → Value → σ → σ)
  required : List String

namespace Record

variable {σ : Type}

/-- One entry; the names of the declared fields so far come with the value. -/
def step (r : Record σ) (s : List String × σ) (e : Value × Value) :
    Decoded (List String × σ) := do
  let name ← stringFor "field identifier" e.1
  match r.field? name with
  | some read =>
      if name ∈ s.1 then throw (.duplicateField name)
      return (name :: s.1, ← read e.2 s.2)
  | none =>
      match r.keep? with
      | some keep =>
          if e.2.hasTag then throw .tagInField
          return (s.1, keep name e.2 s.2)
      | none => return s

def entries? (r : Record σ) (v : Value) : Decoded (List (Value × Value)) :=
  match v.untag with
  | .mapping es => .ok es
  | .null => .ok []
  | v => .error (.unexpected v ("struct " ++ r.name))

def read (r : Record σ) (v : Value) : Decoded σ := do
  let (seen, x) ← (← r.entries? v).foldlM r.step ([], r.start)
  match r.required.find? (· ∉ seen) with
  | some name => throw (.missingField name)
  | none => return x

end Record

/-! ## The records of documents -/

def metadataRecord : Record Metadata where
  name := "ObjectMetadata"
  start := default
  field?
    | "name" => some fun v m => do return { m with name := ← string v }
    | "labels" => some fun v m => do return { m with labels := ← labels v }
    | "annotations" =>
        some fun v m => do return { m with annotations := ← map v }
    | _ => none
  keep? := none
  required := []

def channelRecord : Record Channel where
  name := "Channel"
  start := default
  field?
    | "name" => some fun v c => do
        return { c with name := ← optional string v }
    | "alias" => some fun v c => do
        return { c with aliasName := ← optional string v }
    | "selectors" => some fun v c => do
        return { c with selectors := ← optional labels v }
    | _ => none
  keep? := some fun k v c => { c with extra := c.extra.insert k v }
  required := []

def channels (v : Value) : Decoded (Option (List Channel)) :=
  optional (sequence channelRecord.read) v

def modelRecord : Record Model where
  name := "ModelSpec"
  start := default
  field?
    | "channels" => some fun v m => do
        return { m with channels := ← channels v }
    | _ => none
  keep? := some fun k v m => { m with extra := m.extra.insert k v }
  required := []

def referenceRecord : Record ModelReference where
  name := "ModelReference"
  start := default
  field?
    | "name" => some fun v r => do return { r with name := ← string v }
    | _ => none
  keep? := some fun k v r => { r with extra := r.extra.insert k v }
  required := ["name"]

def instanceRecord : Record ModelInstance where
  name := "ModelInstance"
  start := default
  field?
    | "name" => some fun v i => do return { i with name := ← string v }
    | "model" => some fun v i => do
        return { i with model := ← referenceRecord.read v }
    | "channels" => some fun v i => do
        return { i with channels := ← channels v }
    | _ => none
  keep? := some fun k v i => { i with extra := i.extra.insert k v }
  required := ["name", "model"]

def stackRecord : Record Stack where
  name := "StackSpec"
  start := default
  field?
    | "models" => some fun v s => do
        return { s with models := ← optional (sequence instanceRecord.read) v }
    | _ => none
  keep? := some fun k v s => { s with extra := s.extra.insert k v }
  required := []

def signalRecord : Record Signal where
  name := "Signal"
  start := default
  field?
    | "signal" => some fun v s => do return { s with name := ← string v }
    | "annotations" => some fun v s => do
        return { s with annotations := ← map v }
    | _ => none
  keep? := some fun k v s => { s with extra := s.extra.insert k v }
  required := ["signal"]

def signalGroupRecord : Record SignalGroup where
  name := "SignalGroupSpec"
  start := default
  field?
    | "signals" => some fun v g => do
        return { g with signals := ← sequence signalRecord.read v }
    | _ => none
  keep? := some fun k v g => { g with extra := g.extra.insert k v }
  required := []

/-- The frame of a document of any kind, its content still a value. -/
structure Frame where
  kind : Option String
  metadata : Option Metadata
  spec : Value

def frameRecord : Record Frame where
  name := "RawDocument"
  start := ⟨none, none, .null⟩
  field?
    | "kind" => some fun v f => do
        return { f with kind := ← optional string v }
    | "metadata" => some fun v f => do
        return { f with metadata := ← optional metadataRecord.read v }
    | "spec" => some fun v f => do return { f with spec := ← value v }
    | _ => none
  keep? := none
  required := []

/-- The content of a document of a kind. -/
def spec (kind : String) (v : Value) : Decoded Spec :=
  match Kind.ofString kind with
  | .stack => (stackRecord.read v).map .stack
  | .signalGroup => (signalGroupRecord.read v).map .signalGroup
  | .model => (modelRecord.read v).map .model
  | .other kind => .ok (.other kind v)

end Decode

end SimAnnotate
