import SimAnnotate.OrderedMap
import SimAnnotate.Path
import SimAnnotate.Yaml.Value

/-!
# Documents

A simulation is described by documents of three known kinds and any number of
others. A `Stack` lists model instances and binds their channels, a `Model`
declares the channels of a model, and a `SignalGroup` lists signals.

Records of known kinds keep the fields they do not know in `extra`.
-/

namespace SimAnnotate

open Yaml (Value)

/-- Classification of a document, used for matching. -/
abbrev Labels := OrderedMap String String

/-- Facts about a document or a signal that are derived and updated. -/
abbrev Annotations := OrderedMap String Value

/-- The fields of a record that it does not know. -/
abbrev Fields := OrderedMap String Value

/-- Whether each required pair is among the given ones. -/
def Labels.within (required given : Labels) : Bool :=
  required.entries.all fun e => given.get? e.1 == some e.2

/-- The annotation `key`, if it is a string. -/
def Annotations.string? (a : Annotations) (key : String) : Option String :=
  (a.get? key).bind Value.string?

structure Metadata where
  name : String
  labels : Labels
  annotations : Annotations
deriving DecidableEq, Inhabited

/-- The declaration of a channel by a model, or its binding by an instance. -/
structure Channel where
  name : Option String
  aliasName : Option String
  selectors : Option Labels
  extra : Fields
deriving DecidableEq, Inhabited

namespace Channel

/-- The selectors, if there are any. -/
def selectors? (c : Channel) : Option Labels :=
  c.selectors.filter (!·.isEmpty)

end Channel

structure Model where
  channels : Option (List Channel)
  extra : Fields
deriving DecidableEq, Inhabited

namespace Model

def channelList (m : Model) : List Channel := m.channels.getD []

/-- The first channel that is declared with an alias. -/
def channelByAlias? (m : Model) (aliasName : String) : Option Channel :=
  m.channelList.find? (·.aliasName == some aliasName)

end Model

/-- How an instance refers to its model. -/
structure ModelReference where
  name : String
  extra : Fields
deriving DecidableEq, Inhabited

structure ModelInstance where
  name : String
  model : ModelReference
  channels : Option (List Channel)
  extra : Fields
deriving DecidableEq, Inhabited

namespace ModelInstance

def channelList (i : ModelInstance) : List Channel := i.channels.getD []

/-- The name of the instance that carries the channels themselves. -/
def busName : String := "simbus"

def isBus (i : ModelInstance) : Bool := i.name == busName

end ModelInstance

structure Stack where
  models : Option (List ModelInstance)
  extra : Fields
deriving DecidableEq, Inhabited

namespace Stack

def instances (s : Stack) : List ModelInstance := s.models.getD []

end Stack

structure Signal where
  name : String
  annotations : Annotations
  extra : Fields
deriving DecidableEq, Inhabited

namespace Signal

/-- A signal about which no more than its name is known. -/
def ofName (name : String) : Signal := ⟨name, ∅, ∅⟩

end Signal

structure SignalGroup where
  signals : List Signal
  extra : Fields
deriving DecidableEq, Inhabited

inductive Kind where
  | stack
  | signalGroup
  | model
  | other (name : String)
deriving DecidableEq

namespace Kind

def ofString : String → Kind
  | "Stack" => .stack
  | "SignalGroup" => .signalGroup
  | "Model" => .model
  | s => .other s

def text : Kind → String
  | .stack => "Stack"
  | .signalGroup => "SignalGroup"
  | .model => "Model"
  | .other s => s

end Kind

/-- What a document says beyond its metadata. Of a kind that is not known only
the value is kept. -/
inductive Spec where
  | stack (s : Stack)
  | signalGroup (g : SignalGroup)
  | model (m : Model)
  | other (kind : String) (value : Value)
deriving DecidableEq

structure Document where
  metadata : Metadata
  spec : Spec
  /-- The file that holds the document. -/
  file : Option Path
deriving DecidableEq

namespace Document

def kind (d : Document) : Kind :=
  match d.spec with
  | .stack _ => .stack
  | .signalGroup _ => .signalGroup
  | .model _ => .model
  | .other k _ => .other k

def name (d : Document) : String := d.metadata.name

def stack? (d : Document) : Option Stack :=
  match d.spec with
  | .stack s => some s
  | _ => none

def model? (d : Document) : Option Model :=
  match d.spec with
  | .model m => some m
  | _ => none

def signalGroup? (d : Document) : Option SignalGroup :=
  match d.spec with
  | .signalGroup g => some g
  | _ => none

/-- The document with other metadata annotations. -/
def withAnnotations (d : Document) (a : Annotations) : Document :=
  { d with metadata := { d.metadata with annotations := a } }

/-- The document with other labels. -/
def withLabels (d : Document) (l : Labels) : Document :=
  { d with metadata := { d.metadata with labels := l } }

/-- The document with other signals, if it is a signal group. -/
def mapSignals (f : List Signal → List Signal) (d : Document) : Document :=
  match d.spec with
  | .signalGroup g =>
      { d with spec := .signalGroup { g with signals := f g.signals } }
  | _ => d

end Document

end SimAnnotate
