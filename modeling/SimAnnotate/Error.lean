import SimAnnotate.Document.Text
import SimAnnotate.Table

/-!
# Errors and warnings

What can go wrong, by its cause, and the texts that say so.
-/

namespace SimAnnotate

/-- Addresses a document by its kind and its position among those of the
kind. -/
structure Handle where
  kind : Kind
  position : Nat
deriving DecidableEq

namespace Handle

def kindText : Kind → String
  | .other name => "Other(" ++ quoted name ++ ")"
  | k => k.text

def text (h : Handle) : String :=
  "DocHandle \x7b kind: " ++ kindText h.kind ++ ", position: "
    ++ toString h.position ++ " \x7d"

end Handle

/-- Why a file gives no documents. -/
inductive LoadError where
  | file (e : FileError)
  | parse (e : ParseError)
deriving DecidableEq

namespace LoadError

def message : LoadError → String
  | .file e => e.message
  | .parse e => e.message

end LoadError

/-- Why documents do not get into a file. -/
inductive WriteFault where
  | file (e : FileError)
  | print (e : PrintError)
deriving DecidableEq

namespace WriteFault

def message : WriteFault → String
  | .file e => e.message
  | .print e => e.message

end WriteFault

structure WriteError where
  file : Path
  fault : WriteFault
deriving DecidableEq

namespace WriteError

def message (e : WriteError) : String :=
  "Unable to write " ++ e.file.text ++ ": " ++ e.fault.message

end WriteError

inductive NotFound where
  | channel (group : String)
  | document (h : Handle)
  | signalGroup (file : Path)
deriving DecidableEq

namespace NotFound

def reason : NotFound → String
  | .channel group =>
      "no Stack channel with selectors matching SignalGroup " ++ group
  | .document h => "no document at " ++ h.text
  | .signalGroup file => "no SignalGroup in " ++ file.text

end NotFound

/-- Documents that do not get value references. -/
inductive Unsupported where
  | binary (group : String)
  | notSignalGroup (name : String)
deriving DecidableEq

namespace Unsupported

def reason : Unsupported → String
  | .binary group => "binary SignalGroup " ++ group
  | .notSignalGroup name => name ++ " is not a SignalGroup"

end Unsupported

inductive Error where
  /-- A simulation has one Stack, not this many. -/
  | stackCount (n : Nat)
  | table (e : TableError)
  | unsupported (e : Unsupported)
  | notFound (e : NotFound)
  | write (e : WriteError)
  | load (e : LoadError)
deriving DecidableEq

namespace Error

def message : Error → String
  | .stackCount n =>
      "Invalid simulation configuration: simulation contains " ++ toString n
        ++ " Stacks, expected 1"
  | .table e => "Unable to load rules: " ++ e.message
  | .unsupported e => "Not supported: " ++ e.reason
  | .notFound e => "Not found: " ++ e.reason
  | .write e => e.message
  | .load e => e.message

end Error

inductive Warning where
  | unreadable (file : Path) (e : LoadError)
  | alreadyIndexed (file : Path)
  /-- A binding matches but does not say which channel it binds. -/
  | unnamedChannel (inst : String) (aliasName : Option String)
  | unwired (group : String) (e : NotFound)
  | noReferences (group : String) (e : NotFound)
  | notInTable (signal group : String)
  | skipped (group : String) (e : Unsupported)
  | outside (file : Path)
deriving DecidableEq

namespace Warning

def message : Warning → String
  | .unreadable file e =>
      "Parse failed (" ++ e.message ++ ") on file: " ++ file.text
  | .alreadyIndexed file => "File already indexed: " ++ file.text
  | .unnamedChannel inst aliasName =>
      "  " ++ inst ++ ": channel " ++ quotedOption aliasName
        ++ " matches but has no name"
  | .unwired group e =>
      "SignalGroup not associated with SimBus channel: " ++ group ++ " ("
        ++ e.reason ++ ")"
  | .noReferences group e =>
      "No direct index references for " ++ group ++ ": " ++ e.reason
  | .notInTable signal group =>
      "Signal not in direct index: " ++ signal ++ " (signalgroup=" ++ group
        ++ ")"
  | .skipped group e =>
      "Skipped SignalGroup " ++ group ++ ": " ++ e.reason
  | .outside file => "File outside of simulation: " ++ file.text

end Warning

end SimAnnotate
