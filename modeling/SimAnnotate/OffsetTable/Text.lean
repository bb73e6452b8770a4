import SimAnnotate.Catalog.Files
import SimAnnotate.OffsetTable

/-!
# Offset tables as documents

An offset table is written as one signal group for each channel, with the label
`index` and the places in annotations.
-/

namespace SimAnnotate

open Yaml (Value)

namespace OffsetTable

/-- The label value that tells these documents from others. -/
def directLabel : String := "direct"

/-- The annotation that holds the place of a channel. -/
def placeKey : String := "direct_index"

def slotSignal (e : String × Slot) : Signal :=
  { Signal.ofName e.1 with
    annotations := .ofList
      [("index", .ofNat e.2.index), ("offset", .ofNat e.2.offset)] }

def groupDocument (e : String × OffsetGroup) : Document where
  metadata :=
    { name := e.1
      labels := .ofList [(Catalog.indexLabel, directLabel)]
      annotations := .ofList
        [(placeKey,
          .mapping
            [(.string "offset", .ofNat e.2.offset),
              (.string "length", .ofNat e.2.length)])] }
  spec := .signalGroup ⟨e.2.slots.entries.map slotSignal, ∅⟩
  file := none

/-- One document for each channel, in order. -/
def documents (t : OffsetTable) : List Document :=
  t.groups.entries.map groupDocument

/-- The text that is added to a file for a table: each document behind a line
of dashes. -/
def text (t : OffsetTable) : Except PrintError String := do
  let texts ← t.documents.mapM Document.print
  return String.join (texts.map (Document.separator ++ ·))

/-- Adds the documents of a table to the end of a file. -/
def emit (t : OffsetTable) (tree : FileTree) (p : Path) :
    Except WriteError FileTree := do
  let text ← t.text.mapError fun e => ⟨p, .print e⟩
  (tree.append p text).mapError fun e => ⟨p, .file e⟩

end OffsetTable

end SimAnnotate
