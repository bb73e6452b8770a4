import SimAnnotate.Catalog.Basic

/-!
# Catalogs and files

Scanning a directory adds its YAML files in walk order. A file that cannot be
read adds nothing and gives a warning. Saving writes the flagged files, each
with all its documents, and stops at the first that cannot be written.
-/

namespace SimAnnotate

/-- The documents of a file, which remember it. -/
def Document.load (t : FileTree) (p : Path) :
    Except LoadError (List Document) := do
  let text ← (t.readText p).mapError .file
  let ds ← (Document.parse text).mapError .parse
  return ds.map fun d => { d with file := some p }

namespace Catalog

/-! ## Adding -/

/-- Adds a file, unless it is known. -/
def add (c : Catalog) (t : FileTree) (p : Path) : Except LoadError Catalog :=
  if c.contains p then .ok c else (Document.load t p).map (c.insertNew p)

def isYaml (p : Path) : Bool :=
  p.extension? == some "yml" || p.extension? == some "yaml"

/-- The files that a scan looks at. -/
def scannable (c : Catalog) (t : FileTree) (root : Path) : List Path :=
  (t.walk root).filter fun p => isYaml p && !c.isExcluded p

/-- What a scan has come to. -/
structure Scan where
  catalog : Catalog
  /-- How many files were read, known ones too. -/
  count : Nat
  warnings : List Warning

def scanFile (t : FileTree) (s : Scan) (p : Path) : Scan :=
  match Document.load t p with
  | .ok ds =>
      ⟨s.catalog.insert p ds, s.count + 1,
        s.warnings ++ s.catalog.insertWarnings p⟩
  | .error e => { s with warnings := s.warnings ++ [.unreadable p e] }

/-- Adds the YAML files at or below a path that are not excluded. -/
def scan (c : Catalog) (t : FileTree) (root : Path) : Scan :=
  (c.scannable t root).foldl (scanFile t) ⟨c, 0, []⟩

/-! ## Saving -/

/-- Writes documents into a file. -/
def writeFile (t : FileTree) (p : Path) (ds : List Document) :
    Except WriteError FileTree := do
  let text ← (Document.printAll ds).mapError fun e => ⟨p, .print e⟩
  (t.write p text).mapError fun e => ⟨p, .file e⟩

/-- Writes files up to the first that cannot be written. -/
def writeFiles (c : Catalog) :
    FileTree → List Path → FileTree × Option WriteError
  | t, [] => (t, none)
  | t, p :: rest =>
      match writeFile t p (c.documentsOf p) with
      | .ok t => c.writeFiles t rest
      | .error e => (t, some e)

/-- The outcome of saving. -/
structure Saved where
  tree : FileTree
  catalog : Catalog
  error : Option WriteError

/-- Writes files and takes all flags away; when one cannot be written, the
flags stay. -/
def saveFiles (c : Catalog) (t : FileTree) (ps : List Path) : Saved :=
  match c.writeFiles t ps with
  | (t, none) => ⟨t, c.unflagAll, none⟩
  | (t, some e) => ⟨t, c, some e⟩

/-- Writes the flagged files in the order of their flags. -/
def save (c : Catalog) (t : FileTree) : Saved :=
  c.saveFiles t c.flagged.values

/-- Writes all files in the order in which they came. -/
def saveAll (c : Catalog) (t : FileTree) : Saved := c.saveFiles t c.files

end Catalog

end SimAnnotate
