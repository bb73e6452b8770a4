import SimAnnotate.OffsetTable.Text
import SimAnnotate.Patch
import SimAnnotate.References
import SimAnnotate.StackSummary

/-!
# Runs

`Run.annotate` prepares a simulation: it reads all documents, writes the offset
table if one is wanted, gives the signals their references, annotates the Stack
(all of this is `Run.prepare`) and saves what has changed. `Run.patch` applies a
patch table to the signal groups of one file.

A run works on a file tree and collects warnings; both are there when it fails.
-/

namespace SimAnnotate

structure Options where
  /-- The directory of the simulation. -/
  sim : Path
  /-- The names of the signal groups to annotate; none for all. -/
  signalGroups : List String
  /-- A rule table, which goes before `ruleSet`. -/
  rules : Option Path
  ruleSet : Option String
  /-- Whether to write an offset table and refer to its places. -/
  index : Bool

namespace Options

def default : Options := ⟨⟨"/sim"⟩, [], none, none, false⟩

/-- The directory of the offset table. -/
def dataDirectory (o : Options) : Path := o.sim.join "data"

/-- The file of the offset table. -/
def indexFile (o : Options) : Path := o.dataDirectory.join "direct_index.yaml"

end Options

/-- The outcome of a run. -/
structure Summary where
  /-- The annotated signal groups, in order. -/
  annotated : List String
  /-- The signal groups that get no references. -/
  skipped : List String
  indexFile : Option Path
deriving DecidableEq

namespace Run

structure State where
  tree : FileTree
  warnings : List Warning

end Run

/-- An activity on a file tree. -/
abbrev Run := ExceptT Error (StateM Run.State)

namespace Run

def warn (ws : List Warning) : Run Unit :=
  modify fun s => { s with warnings := s.warnings ++ ws }

def tree : Run FileTree := return (← get).tree

def setTree (t : FileTree) : Run Unit := modify fun s => { s with tree := t }

/-- A change of the tree that can fail. -/
def change (f : FileTree → Except Error FileTree) : Run Unit := do
  setTree (← f (← tree))

def fileError (e : FileError) : Error := .load (.file e)

/-! ## Annotating -/

/-- All documents of the simulation. An offset table that is to be written
anew is none of them. -/
def scanned (o : Options) (t : FileTree) : Catalog.Scan :=
  (if o.index then Catalog.empty.exclude o.indexFile else .empty).scan t o.sim

/-- Reads all documents of the simulation. -/
def scan (o : Options) : Run Catalog := do
  let s := scanned o (← tree)
  warn s.warnings
  return s.catalog

/-- Removes a file, if it is there. -/
def clear (p : Path) : Run Unit := do
  if (← tree).exists? p then
    change fun t => (t.removeFile p).mapError fileError

/-- Adds a file to the catalog. -/
def addFile (c : Catalog) (p : Path) : Run Catalog := do
  warn (c.insertWarnings p)
  (c.add (← tree) p).mapError Error.load

/-- Writes the offset table of the selected groups in place of an earlier one
and adds it to the catalog. -/
def writeTable (o : Options) (c : Catalog) (groups : List Document) :
    Run (Catalog × OffsetTable) := do
  warn (OffsetTable.compileWarnings c groups)
  let table ← OffsetTable.compile c groups
  clear o.indexFile
  change fun t => (t.makeDirectories o.dataDirectory).mapError fileError
  change fun t => (table.emit t o.indexFile).mapError .write
  return (← addFile c o.indexFile, table)

/-- Where the references of a run come from. -/
def policy (o : Options) (c : Catalog) (handles : List Handle) :
    Run (Catalog × ReferencePolicy) := do
  if o.index then
    let (c, table) ← writeTable o c (handles.filterMap c.get?)
    return (c, .table table)
  else return (c, .counter 0)

/-- What a run has come to. -/
structure Progress where
  catalog : Catalog
  policy : ReferencePolicy
  summary : Summary

/-- Nothing is annotated yet. -/
def Progress.start (o : Options) (c : Catalog) (policy : ReferencePolicy) : Progress :=
  ⟨c, policy, ⟨[], [], if o.index then some o.indexFile else none⟩⟩

/-- Annotates one group; one that is not supported is skipped. -/
def annotateGroup (rules : RuleSet) (p : Progress) (h : Handle) :
    Run Progress := do
  let name := ((p.catalog.get? h).map (·.name)).getD ""
  warn (References.warnings p.catalog h rules p.policy)
  match References.annotate p.catalog h rules p.policy with
  | .ok a =>
      let annotated := p.summary.annotated ++ [name]
      return ⟨a.catalog, a.policy, { p.summary with annotated }⟩
  | .error (.unsupported e) =>
      warn [.skipped name e]
      let skipped := p.summary.skipped ++ [name]
      return { p with summary := { p.summary with skipped } }
  | .error e => throw e

/-- Annotates groups, if there are rules. -/
def annotateGroups (rules? : Option RuleSet) (handles : List Handle)
    (p : Progress) : Run Progress :=
  match rules? with
  | some rules => handles.foldlM (annotateGroup rules) p
  | none => return p

/-- Annotates the Stack. -/
def summarise (o : Options) (p : Progress) : Run Progress := do
  warn (StackSummary.warnings p.catalog o.sim)
  return { p with catalog := ← StackSummary.annotate p.catalog o.sim }

def failWith : Option WriteError → Run Unit
  | some e => throw (.write e)
  | none => return

/-- Writes the flagged files. -/
def save (c : Catalog) : Run Unit := do
  let s := c.save (← tree)
  setTree s.tree
  failWith s.error

/-- Makes all changes to the documents. Of files only the offset table is
written. -/
def prepare (o : Options) : Run Progress := do
  let c ← scan o
  let _ ← c.stackHandle
  let rules? ← (RuleSet.select (← tree) o.rules o.ruleSet).mapError Error.table
  let handles := c.selected o.signalGroups
  let (c, policy) ← policy o c handles
  summarise o (← annotateGroups rules? handles (.start o c policy))

/-- Prepares a simulation. -/
def annotate (o : Options) : Run Summary := do
  let p ← prepare o
  save p.catalog
  return p.summary

/-! ## Patching -/

/-- Applies a patch table to all signal groups of a file and writes the
file. -/
def patch (file table : Path) (removeUnknown : Bool) : Run Unit := do
  let p ← (Patch.load (← tree) table).mapError Error.table
  let ds ← (Document.load (← tree) file).mapError Error.load
  if !ds.any (·.signalGroup?.isSome) then
    throw (.notFound (.signalGroup file))
  let patched := ds.map (·.mapSignals (p.apply removeUnknown))
  change fun t => (Catalog.writeFile t file patched).mapError .write

/-- Carries an activity out on a tree. -/
def on {α : Type} (t : FileTree) (act : Run α) : Except Error α × State :=
  StateT.run (m := Id) (ExceptT.run act) ⟨t, []⟩

end Run

end SimAnnotate
