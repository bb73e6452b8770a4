import SimAnnotate.Document.Basic

/-!
# From documents to values

A record is written with its declared fields first, in a fixed order, and the
fields it does not know after them. Optional fields that are absent are not
written, nor are empty labels and annotations.

A document of a kind that is not known has no value.
-/

namespace SimAnnotate

open Yaml (Value)

namespace Encode

/-- A field that is written. -/
def field (name : String) (v : Value) : List (Value × Value) :=
  [(.string name, v)]

/-- A field that is written when it is there. -/
def optional {α : Type} (name : String) (encode : α → Value) :
    Option α → List (Value × Value)
  | some a => field name (encode a)
  | none => []

def fields (m : OrderedMap String Value) : List (Value × Value) :=
  m.entries.map fun e => (.string e.1, e.2)

def map (m : OrderedMap String Value) : Value := .mapping (fields m)

def labels (l : Labels) : Value :=
  .mapping (l.entries.map fun e => (.string e.1, .string e.2))

/-- A field that is written unless its map is empty. -/
def unlessEmpty {α : Type} (name : String)
    (encode : OrderedMap String α → Value) (m : OrderedMap String α) :
    List (Value × Value) :=
  if m.isEmpty then [] else field name (encode m)

def metadata (m : Metadata) : Value :=
  .mapping (field "name" (.string m.name)
    ++ unlessEmpty "labels" labels m.labels
    ++ unlessEmpty "annotations" map m.annotations)

def channel (c : Channel) : Value :=
  .mapping (optional "name" .string c.name
    ++ optional "alias" .string c.aliasName
    ++ optional "selectors" labels c.selectors
    ++ fields c.extra)

def channels (cs : List Channel) : Value := .sequence (cs.map channel)

def model (m : Model) : Value :=
  .mapping (optional "channels" channels m.channels ++ fields m.extra)

def reference (r : ModelReference) : Value :=
  .mapping (field "name" (.string r.name) ++ fields r.extra)

def modelInstance (i : ModelInstance) : Value :=
  .mapping (field "name" (.string i.name)
    ++ field "model" (reference i.model)
    ++ optional "channels" channels i.channels
    ++ fields i.extra)

def stack (s : Stack) : Value :=
  .mapping
    (optional "models" (fun is => .sequence (is.map modelInstance)) s.models
      ++ fields s.extra)

def signal (s : Signal) : Value :=
  .mapping (field "signal" (.string s.name)
    ++ unlessEmpty "annotations" map s.annotations
    ++ fields s.extra)

def signalGroup (g : SignalGroup) : Value :=
  .mapping (field "signals" (.sequence (g.signals.map signal))
    ++ fields g.extra)

/-- The content of a document of a known kind. -/
def spec? : Spec → Option Value
  | .stack s => some (stack s)
  | .signalGroup g => some (signalGroup g)
  | .model m => some (model m)
  | .other _ _ => none

end Encode

/-- The value that a document is written as. -/
def Document.encode? (d : Document) : Option Value :=
  (Encode.spec? d.spec).map fun v =>
    .mapping (Encode.field "kind" (.string d.kind.text)
      ++ Encode.field "metadata" (Encode.metadata d.metadata)
      ++ Encode.field "spec" v)

end SimAnnotate
