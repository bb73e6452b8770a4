import SimAnnotate.Catalog.Files
import SimAnnotate.Proofs.Catalog.Numbering
import SimAnnotate.Proofs.Except

/-!
# Operations on a catalog, and the plain list behind it

A `Listing` is what a catalog stands for: the files in the order in which they
came, each with its documents as they are now, the flagged paths and the
excluded ones. Every operation on a catalog (`Catalog.Operation`) has a plain
counterpart on listings (`Listing.after`) that knows neither kinds nor handles
beyond counting: a file is appended or a document is changed.
-/

namespace SimAnnotate

/-- A change of a document that touches only labels and annotations. -/
structure Edit where
  change : Document → Document
  bare_change : ∀ d, (change d).bare = d.bare

namespace Edit

/-- Sets a label. -/
def label (key value : String) : Edit where
  change d := d.withLabels (d.metadata.labels.insert key value)
  bare_change d := by
    cases d with | mk m spec file => cases spec <;> rfl

/-- Sets an annotation. -/
def annotation (key : String) (value : Yaml.Value) : Edit where
  change d := d.withAnnotations (d.metadata.annotations.insert key value)
  bare_change d := Document.bare_of_outline (d.outline_withAnnotations _)

end Edit

/-! ## Operations on catalogs -/

namespace Catalog

/-- What can be done to a catalog. Operations that look at files get the tree
of their time. -/
inductive Operation where
  | exclude (p : Path)
  | scan (t : FileTree) (root : Path)
  | add (t : FileTree) (p : Path)
  | insert (p : Path) (ds : List Document)
  | flag (p : Path)
  | save (t : FileTree)
  | saveAll (t : FileTree)
  | annotate (h : Handle) (rules : RuleSet) (policy : ReferencePolicy)
  | summarise (sim : Path)
  | edit (h : Handle) (e : Edit)

/-- The catalog after an operation. One that fails leaves it as it is. -/
def after (c : Catalog) : Operation → Catalog
  | .exclude p => c.exclude p
  | .scan t root => (c.scan t root).catalog
  | .add t p => (c.add t p).toOption.getD c
  | .insert p ds => c.insert p ds
  | .flag p => c.flag p
  | .save t => (c.save t).catalog
  | .saveAll t => (c.saveAll t).catalog
  | .annotate h rules policy =>
      ((References.annotate c h rules policy).toOption.map (·.catalog)).getD c
  | .summarise sim => (StackSummary.annotate c sim).toOption.getD c
  | .edit h e => c.modify h e.change

/-- The catalog after operations on an empty one. -/
def ofOperations (ops : List Operation) : Catalog := ops.foldl after empty

end Catalog

/-! ## Listings -/

/-- A file and its documents. -/
structure FileContent where
  path : Path
  documents : List Document

structure Listing where
  /-- The files in the order in which they came. -/
  files : List FileContent
  /-- The flagged paths in the order of their flags. -/
  flagged : List Path
  excluded : List (List Path.Part)

namespace Listing

def empty : Listing := ⟨[], [], []⟩

/-- All documents, file by file. -/
def all (l : Listing) : List Document := l.files.flatMap (·.documents)

/-- The documents of one kind, file by file. -/
def documents (l : Listing) (k : Kind) : List Document :=
  l.files.flatMap fun f => Document.ofKind k f.documents

def get? (l : Listing) (h : Handle) : Option Document :=
  (l.documents h.kind)[h.position]?

def contains (l : Listing) (p : Path) : Bool :=
  l.files.any (·.path.parts = p.parts)

/-- The documents of the file with a path. -/
def documentsOf (l : Listing) (p : Path) : List Document :=
  ((l.files.find? (·.path.parts = p.parts)).map (·.documents)).getD []

/-- The documents as they are kept for a file. -/
def filed (p : Path) (ds : List Document) : List Document :=
  ds.map fun d => { d with file := some p }

/-! ### Adding files -/

def insert (l : Listing) (p : Path) (ds : List Document) : Listing :=
  if l.contains p then l else { l with files := l.files ++ [⟨p, filed p ds⟩] }

/-- Adds a file of a tree, unless it cannot be read. -/
def load (t : FileTree) (l : Listing) (p : Path) : Listing :=
  match Document.load t p with
  | .ok ds => l.insert p ds
  | .error _ => l

def scan (l : Listing) (t : FileTree) (root : Path) : Listing :=
  ((t.walk root).filter fun p =>
    Catalog.isYaml p && !l.excluded.contains p.parts).foldl (load t) l

/-! ### Flags -/

def flag (l : Listing) (p : Path) : Listing :=
  if l.contains p && l.flagged.all (·.parts ≠ p.parts) then
    { l with flagged := l.flagged ++ [p] }
  else l

/-- Flags the file of a document. -/
def flagFile (l : Listing) (d : Document) : Listing :=
  match d.file with
  | some p => l.flag p
  | none => l

/-- Whether files can be written one after the other. -/
def canWrite (l : Listing) : FileTree → List Path → Bool
  | _, [] => true
  | t, p :: rest =>
      match Catalog.writeFile t p (l.documentsOf p) with
      | .ok t => l.canWrite t rest
      | .error _ => false

/-- Takes the flags away if files can be written. -/
def save (l : Listing) (t : FileTree) (ps : List Path) : Listing :=
  if l.canWrite t ps then { l with flagged := [] } else l

/-! ### Changing documents -/

/-- Changes the document with handle `h` in files behind `before`. -/
def editFiles (h : Handle) (f : Document → Document) :
    List Document → List FileContent → List FileContent
  | _, [] => []
  | before, x :: rest =>
      ⟨x.path, Document.editAt h f before x.documents⟩
        :: editFiles h f (before ++ x.documents) rest

def edit (l : Listing) (h : Handle) (f : Document → Document) : Listing :=
  { l with files := editFiles h f [] l.files }

/-- The channel of a group, as the Stack and the models say. -/
def channel? (l : Listing) (group : Document) : Except Error (Option String) :=
  match l.documents .stack with
  | [s] =>
      .ok ((Wiring.accepting (l.documents .model) (s.stack?.getD default)
        group.metadata.labels).findSome? (·.channel.name))
  | ds => .error (.stackCount ds.length)

/-- The channel in which the places of a group are looked up. -/
def tableChannel? (l : Listing) (d : Document) :
    ReferencePolicy → Except Error (Option String)
  | .counter _ => .ok none
  | .table _ => l.channel? d

/-- The signals of a group with references, if it can have any. -/
def referred? (l : Listing) (rules : RuleSet) (policy : ReferencePolicy)
    (d : Document) : Option (List Signal) :=
  match References.isBinary d, l.tableChannel? d policy, d.signalGroup? with
  | false, .ok channel, some g =>
      some (References.referSignals rules channel g.signals policy).signals
  | _, _, _ => none

def annotate (l : Listing) (h : Handle) (rules : RuleSet)
    (policy : ReferencePolicy) : Listing :=
  match l.get? h with
  | none => l
  | some d =>
      match l.referred? rules policy d with
      | none => l
      | some signals =>
          (l.edit h (·.mapSignals fun _ => signals)).flagFile d

def summarise (l : Listing) (sim : Path) : Listing :=
  match l.documents .stack with
  | [d] =>
      let names := (l.files.map (·.path)).filterMap (·.below? sim)
      (l.edit ⟨.stack, 0⟩ (StackSummary.summarise names)).flagFile d
  | _ => l

/-! ### Operations -/

/-- The listing after an operation. -/
def after (l : Listing) : Catalog.Operation → Listing
  | .exclude p => { l with excluded := l.excluded ++ [p.parts] }
  | .scan t root => l.scan t root
  | .add t p => if l.contains p then l else l.load t p
  | .insert p ds => l.insert p ds
  | .flag p => l.flag p
  | .save t => l.save t l.flagged
  | .saveAll t => l.save t (l.files.map (·.path))
  | .annotate h rules policy => l.annotate h rules policy
  | .summarise sim => l.summarise sim
  | .edit h e => l.edit h e.change

/-- The listing after operations on an empty one. -/
def ofOperations (ops : List Catalog.Operation) : Listing :=
  ops.foldl after empty

/-! ### Filed documents -/

theorem filed_eq_self {p : Path} {ds : List Document} (h : ∀ d ∈ ds, d.file = some p) :
    filed p ds = ds := by
  refine (List.map_congr_left fun d hd => ?_).trans (List.map_id _)
  have hfile := h d hd
  cases d
  cases hfile
  rfl

theorem filed_filed (p : Path) (ds : List Document) :
    filed p (filed p ds) = filed p ds := by
  refine filed_eq_self fun d hd => ?_
  obtain ⟨_, -, rfl⟩ := List.mem_map.mp hd
  rfl

end Listing

/-- A file is read as the documents of its text, filed under its path. -/
theorem Document.load_eq_ok {t : FileTree} {p : Path} {ds : List Document} :
    Document.load t p = .ok ds ↔ ∃ text parsed, t.readText p = .ok text
      ∧ Document.parse text = .ok parsed ∧ Listing.filed p parsed = ds := by
  unfold Document.load
  simp only [Except.bind_eq_ok, Except.mapError_eq_ok, pure, Except.pure, Except.ok.injEq]
  constructor
  · rintro ⟨text, htext, parsed, hparsed, h⟩
    exact ⟨text, parsed, htext, hparsed, h⟩
  · rintro ⟨text, parsed, htext, hparsed, h⟩
    exact ⟨text, htext, parsed, hparsed, h⟩

theorem Document.load_congr {t t' : FileTree} {p : Path} (h : t'.read p = t.read p) :
    Document.load t' p = Document.load t p := by
  unfold Document.load FileTree.readText
  rw [h]

end SimAnnotate
