import SimAnnotate.Catalog.Files

/-!
# The summary on the Stack

The Stack is annotated with the names of its model instances and with the files
of the simulation, relative to its directory.
-/

namespace SimAnnotate.StackSummary

open Yaml (Value)

def instancesKey : String := "model_runtime__model_inst"
def filesKey : String := "model_runtime__yaml_files"

/-- The names of the instances, the bus left out. -/
def instanceNames (s : Stack) : List String :=
  (s.instances.filter (!·.isBus)).map (·.name)

/-- The files of a catalog below a directory, relative to it. -/
def filesBelow (c : Catalog) (sim : Path) : List String :=
  c.files.filterMap (·.below? sim)

/-- One warning for each file elsewhere. -/
def warnings (c : Catalog) (sim : Path) : List Warning :=
  match c.stackHandle with
  | .ok _ =>
      (c.files.filter fun p => (p.below? sim).isNone).map .outside
  | .error _ => []

def summarise (files : List String) (d : Document) : Document :=
  let names := (d.stack?.map instanceNames).getD []
  d.withAnnotations
    ((d.metadata.annotations.insert instancesKey
        (.string (",".intercalate names))).insert filesKey
      (.sequence (files.map .string)))

/-- Annotates the only Stack and flags its file. -/
def annotate (c : Catalog) (sim : Path) : Except Error Catalog := do
  let h ← c.stackHandle
  let c' := c.modify h (summarise (filesBelow c sim))
  return ((c.get? h).bind (·.file)).elim c' c'.flag

end SimAnnotate.StackSummary
