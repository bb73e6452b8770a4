import SimAnnotate.Csv
import SimAnnotate.FileTree
import SimAnnotate.Quoted

/-!
# Tables of rules and patches

Both kinds of table are CSV with a header. This module holds what can be wrong
with them, and reads a table's records one after the other: the first faulty
one decides the error.
-/

namespace SimAnnotate

inductive TableFault where
  | file (e : FileError)
  /-- A field is no text. -/
  | notText
  | noRules
  | ruleHeader (found expected : List String)
  /-- The rules count from one. -/
  | ruleFields (rule count : Nat)
  | unknownRules (name : String)
  | noPatch
  | patchHeader (found : List String)
  | noTarget (row : List String)
deriving DecidableEq

namespace TableFault

def message : TableFault → String
  | .file e => e.message
  | .notText => "CSV parse error: <csv>"
  | .noRules => "empty rule table"
  | .ruleHeader found expected =>
      "unexpected header " ++ quotedList found ++ ", expected "
        ++ quotedList expected
  | .ruleFields rule count =>
      "rule " ++ toString rule ++ " has " ++ toString count
        ++ " fields, expected 4"
  | .unknownRules name => "Ruleset not supported: " ++ name
  | .noPatch => "empty patch table"
  | .patchHeader found => "unexpected patch columns " ++ quotedList found
  | .noTarget row => "patch row without target: " ++ quotedList row

end TableFault

/-- A fault of a table, and the file it was read from. -/
structure TableError where
  file : Option Path
  fault : TableFault
deriving DecidableEq

namespace TableError

def message (e : TableError) : String :=
  (e.file.map (·.text ++ ": ")).getD "" ++ e.fault.message

end TableError

namespace Table

/-- The fields of a record. -/
def fields (r : List Csv.Bytes) : Except TableFault (List String) :=
  match Csv.fields? r with
  | some fs => .ok fs
  | none => .error .notText

/-- Reads the file of a table. -/
def load {α : Type} (read : ByteArray → Except TableFault α) (t : FileTree)
    (p : Path) : Except TableError α :=
  match t.read p with
  | .error e => .error ⟨some p, .file e⟩
  | .ok bytes => (read bytes).mapError fun fault => ⟨some p, fault⟩

end Table

end SimAnnotate
