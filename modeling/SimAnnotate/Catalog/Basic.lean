import SimAnnotate.Error

/-!
# The catalog of a simulation's documents

A catalog holds documents by kind, each kind in the order in which its
documents came, and remembers which documents each file brought. Nothing is
ever taken out, so a handle keeps addressing the same document.

Files are flagged when a document of theirs has changed.
-/

namespace SimAnnotate

/-- A file, under the path by which it came first, and its documents. -/
structure FileRecord where
  path : Path
  handles : List Handle
deriving DecidableEq

structure Catalog where
  byKind : OrderedMap Kind (List Document)
  records : OrderedMap (List Path.Part) FileRecord
  /-- The files with changes, each as the path by which it was flagged. -/
  flagged : OrderedMap (List Path.Part) Path
  excluded : List (List Path.Part)

namespace Catalog

def empty : Catalog := ⟨∅, ∅, ∅, []⟩

instance : Inhabited Catalog := ⟨empty⟩

/-! ## Documents -/

def documents (c : Catalog) (k : Kind) : List Document :=
  (c.byKind.get? k).getD []

def handles (c : Catalog) (k : Kind) : List Handle :=
  (List.range (c.documents k).length).map (Handle.mk k)

def get? (c : Catalog) (h : Handle) : Option Document :=
  (c.documents h.kind)[h.position]?

/-- Changes the document at a handle. -/
def modify (c : Catalog) (h : Handle) (f : Document → Document) : Catalog :=
  { c with
    byKind :=
      c.byKind.map fun k ds =>
        if k = h.kind then ds.modify h.position f else ds }

def findName? (c : Catalog) (k : Kind) (name : String) : Option Document :=
  (c.documents k).find? (·.name == name)

def findLabels? (c : Catalog) (k : Kind) (required : Labels) :
    Option Document :=
  (c.documents k).find? (required.within ·.metadata.labels)

/-- The only Stack. -/
def stackHandle (c : Catalog) : Except Error Handle :=
  match c.handles .stack with
  | [h] => .ok h
  | hs => .error (.stackCount hs.length)

def stackDocument (c : Catalog) : Except Error Document :=
  match c.documents .stack with
  | [d] => .ok d
  | ds => .error (.stackCount ds.length)

/-! ## Files -/

/-- The paths of the files, in the order in which they came. -/
def files (c : Catalog) : List Path := c.records.values.map (·.path)

def contains (c : Catalog) (p : Path) : Bool := c.records.contains p.parts

/-- The documents that a file brought. -/
def documentsOf (c : Catalog) (p : Path) : List Document :=
  ((c.records.get? p.parts).map (·.handles.filterMap c.get?)).getD []

def exclude (c : Catalog) (p : Path) : Catalog :=
  { c with excluded := c.excluded ++ [p.parts] }

def isExcluded (c : Catalog) (p : Path) : Bool := p.parts ∈ c.excluded

/-- Adds one document of a file. -/
def push (p : Path) (s : Catalog × List Handle) (d : Document) :
    Catalog × List Handle :=
  let (c, hs) := s
  let ds := c.documents d.kind
  let d := { d with file := some p }
  ({ c with byKind := c.byKind.insert d.kind (ds ++ [d]) },
    hs ++ [⟨d.kind, ds.length⟩])

/-- Adds a file that is not known. -/
def insertNew (c : Catalog) (p : Path) (ds : List Document) : Catalog :=
  let (c, hs) := ds.foldl (push p) (c, [])
  { c with records := c.records.insert p.parts ⟨p, hs⟩ }

/-- Adds a file; a file that is known stays as it is. -/
def insert (c : Catalog) (p : Path) (ds : List Document) : Catalog :=
  if c.contains p then c else c.insertNew p ds

/-- What is to be said when a file is added. -/
def insertWarnings (c : Catalog) (p : Path) : List Warning :=
  if c.contains p then [.alreadyIndexed p] else []

/-! ## Flags -/

def isFlagged (c : Catalog) (p : Path) : Bool := c.flagged.contains p.parts

/-- Flags a file, if it is known. -/
def flag (c : Catalog) (p : Path) : Catalog :=
  if c.contains p && !c.isFlagged p then
    { c with flagged := c.flagged.insert p.parts p }
  else c

def unflagAll (c : Catalog) : Catalog := { c with flagged := ∅ }

/-! ## Selection -/

/-- The label of documents that hold an offset table. -/
def indexLabel : String := "index"

/-- Whether a signal group takes part: offset tables never do, and where names
are given only the groups with these names. -/
def isSelected (names : List String) (d : Document) : Bool :=
  !d.metadata.labels.contains indexLabel
    && (names.isEmpty || names.contains d.name)

/-- The signal groups that take part, in order. -/
def selected (c : Catalog) (names : List String) : List Handle :=
  (c.handles .signalGroup).filter fun h =>
    (c.get? h).any (isSelected names)

end Catalog

end SimAnnotate
