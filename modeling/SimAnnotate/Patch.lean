import SimAnnotate.Document.Basic
import SimAnnotate.Table

/-!
# Patch tables

A patch table renames signals or takes them out. Each row holds the name of a
signal and its new name; an empty one keeps the signal as it is, and `inactive`
takes it out. Of two rows for one name the later counts. Signals without a row
stay unless they are to be removed too.
-/

namespace SimAnnotate

/-- The new name of each signal with a row. -/
structure Patch where
  targets : OrderedMap String String
deriving DecidableEq

namespace Patch

/-- The target that takes a signal out. -/
def inactive : String := "inactive"

/-! ## Applying -/

/-- What becomes of one signal. -/
def signal? (p : Patch) (removeUnknown : Bool) (s : Signal) : Option Signal :=
  match p.targets.get? s.name with
  | some target =>
      if target = inactive then none else some { s with name := target }
  | none => if removeUnknown then none else some s

/-- What becomes of the signals of a group. -/
def apply (p : Patch) (removeUnknown : Bool) (signals : List Signal) :
    List Signal :=
  signals.filterMap (p.signal? removeUnknown)

/-! ## Tables -/

def header : List String := ["source", "target"]

/-- The name and the new name that a row holds. -/
def row (r : List Csv.Bytes) : Except TableFault (String × String) := do
  match ← Table.fields r with
  | source :: target :: _ =>
      return (source, if target = "" then source else target)
  | fs => throw (.noTarget fs)

def ofRecords : List (List Csv.Bytes) → Except TableFault Patch
  | [] => .error .noPatch
  | first :: rows => do
      let found ← Table.fields first
      if found.take 2 ≠ header then throw (.patchHeader found)
      return ⟨OrderedMap.ofList (← rows.mapM row)⟩

def ofBytes (bytes : ByteArray) : Except TableFault Patch :=
  ofRecords (Csv.records bytes.toList)

def load : FileTree → Path → Except TableError Patch := Table.load ofBytes

end Patch

end SimAnnotate
