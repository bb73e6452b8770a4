import SimAnnotate.Proofs.Catalog.Evolution
import SimAnnotate.Proofs.Document.Sections
import SimAnnotate.Proofs.OffsetTable.History
import SimAnnotate.Proofs.Run.IndexFile

/-!
# Emitted tables

A table can always be written, as documents behind lines of dashes (`text_eq`). Where it
is added to a file that ends with a line end, the file is read as its own documents and
those of the table (`load_of_emit`); a file without a line end at its end can be spoilt
(`emit_spoils_open_line`). From the documents the table can be read again
(`mapM_entryOf?`), so the file determines the table.
-/

namespace SimAnnotate

open Yaml (Value)

namespace OffsetTable

variable {t : OffsetTable} {tree tree' : FileTree} {p : Path}

/-! ## Writing -/

/-- What is assumed of YAML: each document of the table gives back its value. -/
def GivesBack (t : OffsetTable) : Prop := ∀ d ∈ t.documents, d.GivesBack

instance (t : OffsetTable) : Decidable t.GivesBack :=
  inferInstanceAs (Decidable (∀ d ∈ t.documents, d.GivesBack))

theorem encode_groupDocument (e : String × OffsetGroup) :
    (groupDocument e).encode? = some (.mapping
      [(.string "kind", .string "SignalGroup"),
        (.string "metadata", Encode.metadata (groupDocument e).metadata),
        (.string "spec", Encode.signalGroup ⟨e.2.slots.entries.map slotSignal, ∅⟩)]) := rfl

theorem unwritable?_signals (es : List (String × Slot)) :
    (Encode.signalGroup ⟨es.map slotSignal, ∅⟩).unwritable? = none := by
  have hall : Value.itemsUnwritable? ((es.map slotSignal).map Encode.signal) = none := by
    induction es with
    | nil => rfl
    | cons e rest ih =>
        have he : (Encode.signal (slotSignal e)).unwritable? = none := rfl
        rw [List.map_cons, List.map_cons, Value.itemsUnwritable?, he, ih]
        rfl
  have henc : Encode.signalGroup ⟨es.map slotSignal, ∅⟩
      = .mapping [(.string "signals", .sequence ((es.map slotSignal).map Encode.signal))] := rfl
  rw [henc]
  simp only [Value.unwritable?, Value.entriesUnwritable?, hall]
  rfl

theorem isWritable_groupDocument (e : String × OffsetGroup) :
    (groupDocument e).isWritable = true := by
  have hmetadata : (Encode.metadata (groupDocument e).metadata).unwritable? = none := rfl
  have hspec := unwritable?_signals e.2.slots.entries
  rw [Document.isWritable, encode_groupDocument, Option.all_some, Value.isWritable]
  simp [Value.unwritable?, Value.entriesUnwritable?, hmetadata, hspec]

theorem isWritable_documents : ∀ d ∈ t.documents, d.isWritable = true := by
  intro d hd
  obtain ⟨e, -, rfl⟩ := List.mem_map.mp hd
  exact isWritable_groupDocument e

theorem dashable_documents (hyaml : t.GivesBack) : ∀ d ∈ t.documents, d.Dashable :=
  fun d hd => ⟨t.sound_documents d hd, t.isKnown_documents d hd, isWritable_documents d hd,
    hyaml d hd⟩

/-- Every table has a text. -/
theorem text_eq (t : OffsetTable) :
    t.text = .ok (String.ofList (t.documents.flatMap Document.dashed)) := by
  have hchars : t.documents.mapM Document.chars?
      = some (t.documents.map fun d => d.chars?.getD []) := by
    refine mapM_eq_some_map fun d hd => ?_
    obtain ⟨v, -, hv⟩ :=
      Document.exists_chars (t.isKnown_documents d hd) (isWritable_documents d hd)
    rw [hv]
    rfl
  have htext := t.toOption_text
  rw [hchars, Option.map_some, List.flatMap_map] at htext
  exact Except.mem_toOption.mp htext

/-! ## Reading -/

def natural? : Value → Option Nat
  | .number (.int n) => n.toNat?
  | _ => none

def field? (name : String) : Value → Option Value
  | .mapping es => (es.find? (·.1 = .string name)).map (·.2)
  | _ => none

/-- The place that a signal's annotations say. -/
def slotOf? (s : Signal) : Option (String × Slot) := do
  let index ← (s.annotations.get? "index").bind natural?
  let offset ← (s.annotations.get? "offset").bind natural?
  return (s.name, ⟨index, offset⟩)

/-- What a document of a table says of its channel. -/
def entryOf? (d : Document) : Option Entry := do
  let g ← d.signalGroup?
  let place ← d.metadata.annotations.get? placeKey
  let offset ← (field? "offset" place).bind natural?
  let length ← (field? "length" place).bind natural?
  let slots ← g.signals.mapM slotOf?
  return ⟨d.name, slots, offset, length⟩

theorem slotOf?_slotSignal (e : String × Slot) : slotOf? (slotSignal e) = some e := rfl

theorem entryOf?_groupDocument (file : Option Path) (e : String × OffsetGroup) :
    entryOf? { groupDocument e with file := file }
      = some ⟨e.1, e.2.slots.entries, e.2.offset, e.2.length⟩ := by
  have hslots : (e.2.slots.entries.map slotSignal).mapM slotOf? = some e.2.slots.entries := by
    rw [List.mapM_map]
    exact (mapM_eq_some_map fun e _ => slotOf?_slotSignal e).trans
      (congrArg some (List.map_id' _))
  have hentry : entryOf? { groupDocument e with file := file }
      = ((e.2.slots.entries.map slotSignal).mapM slotOf?).bind fun slots =>
          some ⟨e.1, slots, e.2.offset, e.2.length⟩ := rfl
  rw [hentry, hslots]
  rfl

/-- The documents of a table say the whole table. -/
theorem mapM_entryOf? (t : OffsetTable) (p : Path) :
    (Listing.filed p t.documents).mapM entryOf? = some t.contents := by
  rw [Listing.filed, documents, List.map_map]
  rw [List.mapM_map]
  exact mapM_eq_some_map fun e _ => entryOf?_groupDocument (some p) e

/-! ## Emitting -/

/-- Emits a table `n` times to one file. -/
def emitTimes (t : OffsetTable) (p : Path) : Nat → FileTree → Except WriteError FileTree
  | 0, tree => .ok tree
  | n + 1, tree => do t.emitTimes p n (← t.emit tree p)

/-- The characters of documents behind lines of dashes. -/
def dashedAll (ds : List Document) : String := String.ofList (ds.flatMap Document.dashed)

theorem dashedAll_append (ds ds' : List Document) :
    dashedAll (ds ++ ds') = dashedAll ds ++ dashedAll ds' := by
  rw [dashedAll, List.flatMap_append, String.ofList_append]
  rfl

theorem emitTimes_one (t : OffsetTable) (p : Path) (tree : FileTree) :
    t.emitTimes p 1 tree = t.emit tree p := by
  rw [emitTimes]
  cases t.emit tree p <;> rfl

theorem emit_of_missing {q : Place} (hq : tree.locateFile p = .ok q)
    (hnone : tree.entry? q = none) (t : OffsetTable) :
    ∃ tree', t.emit tree p = .ok tree' ∧ tree'.HasText p (dashedAll t.documents) := by
  obtain ⟨tree', happend, htext⟩ := FileTree.hasText_of_missing hq hnone _
  exact ⟨tree', Run.emit_eq_ok.mpr ⟨_, t.text_eq, happend⟩, htext⟩

theorem emit_of_hasText {old : String} (h : tree.HasText p old) (t : OffsetTable) :
    ∃ tree', t.emit tree p = .ok tree'
      ∧ tree'.HasText p (old ++ dashedAll t.documents) := by
  obtain ⟨tree', happend, htext⟩ := h.append _
  exact ⟨tree', Run.emit_eq_ok.mpr ⟨_, t.text_eq, happend⟩, htext⟩

theorem emitTimes_of_hasText {old : String} (h : tree.HasText p old) (t : OffsetTable)
    (n : Nat) : ∃ tree', t.emitTimes p n tree = .ok tree'
      ∧ tree'.HasText p (old ++ dashedAll (List.replicate n t.documents).flatten) := by
  -- each time the table comes behind what the times before have left
  induction n generalizing tree old with
  | zero =>
      refine ⟨tree, rfl, ?_⟩
      have hempty : old ++ dashedAll (List.replicate 0 t.documents).flatten = old :=
        String.append_empty
      rw [hempty]
      exact h
  | succ n ih =>
      obtain ⟨tree₁, hemit, h₁⟩ := emit_of_hasText h t
      obtain ⟨tree', hmore, h'⟩ := ih h₁
      refine ⟨tree', ?_, ?_⟩
      · rw [emitTimes, hemit, Except.ok_bind, hmore]
      · rwa [List.replicate_succ, List.flatten_cons, dashedAll_append, ← String.append_assoc]

/-- Documents of a table behind a text that ends with a line end. -/
theorem parse_append_dashedAll (hyaml : t.GivesBack) {old : String} {ds ds' : List Document}
    (hline : Yaml.Text.isLined old.toList = true) (hold : Document.parse old = .ok ds)
    (hds' : ds' ⊆ t.documents) : Document.parse (old ++ dashedAll ds') = .ok (ds ++ ds') := by
  have hparse := Document.parse_append_dashed hline hold fun d hd =>
    dashable_documents hyaml d (hds' hd)
  have hfile : ds'.map (fun d => { d with file := none }) = ds' :=
    (List.map_congr_left fun d hd => t.file_documents d (hds' hd)).trans (List.map_id _)
  rwa [hfile] at hparse

theorem load_of_hasText {text : String} {ds : List Document} (h : tree.HasText p text)
    (hparse : Document.parse text = .ok ds) :
    Document.load tree p = .ok (Listing.filed p ds) :=
  Document.load_eq_ok.mpr ⟨text, ds, h.readText, hparse, rfl⟩

/-- The documents of an existing file come before those of the table, as long as the file
ends with a line end. -/
theorem load_of_emit (hyaml : t.GivesBack) {old : String} {ds : List Document}
    (hold : tree.readText p = .ok old) (hload : Document.load tree p = .ok ds)
    (hline : Yaml.Text.isLined old.toList = true ∨ t.documents = [])
    (hemit : t.emit tree p = .ok tree') :
    Document.load tree' p = .ok (ds ++ Listing.filed p t.documents) := by
  obtain ⟨text, parsed, htext, hparse, rfl⟩ := Document.load_eq_ok.mp hload
  cases hold.symm.trans htext
  obtain ⟨text, htext, happend⟩ := Run.emit_eq_ok.mp hemit
  cases t.text_eq.symm.trans htext
  have hnew := FileTree.hasText_of_append happend hold
  have hparse' : Document.parse (old ++ dashedAll t.documents)
      = .ok (parsed ++ t.documents) := by
    -- an open line would take up the first dashes; without documents there are none
    rcases hline with hline | hnone
    · exact parse_append_dashedAll hyaml hline hparse (List.Subset.refl _)
    · have hempty : old ++ dashedAll [] = old := String.append_empty
      rw [hnone, hempty, List.append_nil]
      exact hparse
  rw [load_of_hasText hnew hparse', Listing.filed, Listing.filed, Listing.filed, List.map_append]

namespace Sample

def operations : List Operation := [.add "b" "x", .add "a" "y z", .add "b" "1", .calculate]

/-- A file that ends within a line, and one that ends with a line end. -/
def files : FileTree :=
  ⟨.ofList [(["open.yaml"], .file "kind: Model".toUTF8),
    (["closed.yaml"], .file "kind: Model\n".toUTF8)], [], []⟩

/-- The document of each file. -/
def model (file : Path) : Document := ⟨default, .model default, some file⟩

theorem computed : (ofOperations operations).GivesBack
    ∧ files.locateFile ⟨"/new.yaml"⟩ = .ok ["new.yaml"] ∧ files.entry? ["new.yaml"] = none
    ∧ (files.locateFile ⟨"/open.yaml"⟩ = .ok ["open.yaml"]
      ∧ files.locateFile ⟨"/closed.yaml"⟩ = .ok ["closed.yaml"]
      ∧ ∀ p ∈ [⟨"/open.yaml"⟩, ⟨"/closed.yaml"⟩], Document.load files p = .ok [model p])
    ∧ (Document.ofStream (Yaml.Stream.ofChars ("kind: Model".toList
      ++ (ofOperations operations).documents.flatMap Document.dashed))).toOption = none := by
  decide +kernel

end Sample

/-- Behind a line end the documents of the table are added. -/
theorem load_of_emit_closed : ∃ tree',
    (ofOperations Sample.operations).emit Sample.files ⟨"/closed.yaml"⟩ = .ok tree'
      ∧ Document.load tree' ⟨"/closed.yaml"⟩ = .ok ([Sample.model ⟨"/closed.yaml"⟩]
        ++ Listing.filed ⟨"/closed.yaml"⟩ (ofOperations Sample.operations).documents) := by
  obtain ⟨hyaml, -, -, ⟨-, hq, hload⟩, -⟩ := Sample.computed
  have htext : Sample.files.HasText ⟨"/closed.yaml"⟩ "kind: Model\n" := ⟨_, hq, rfl⟩
  obtain ⟨tree', hemit, -⟩ := emit_of_hasText htext (ofOperations Sample.operations)
  exact ⟨tree', hemit, load_of_emit hyaml htext.readText (hload _ (by simp))
    (.inl (by decide)) hemit⟩

/-- A file that ends within a line is spoilt: it can be read before the table is emitted
to it, and not afterwards. -/
theorem emit_spoils_open_line : (ofOperations Sample.operations).GivesBack
    ∧ Document.load Sample.files ⟨"/open.yaml"⟩ = .ok [Sample.model ⟨"/open.yaml"⟩]
    ∧ ∃ tree', (ofOperations Sample.operations).emit Sample.files ⟨"/open.yaml"⟩ = .ok tree'
      ∧ ∀ ds, Document.load tree' ⟨"/open.yaml"⟩ ≠ .ok ds := by
  obtain ⟨hyaml, -, -, ⟨hq, -, hload⟩, hparse⟩ := Sample.computed
  have htext : Sample.files.HasText ⟨"/open.yaml"⟩ "kind: Model" := ⟨_, hq, rfl⟩
  obtain ⟨tree', hemit, hnew⟩ := emit_of_hasText htext (ofOperations Sample.operations)
  refine ⟨hyaml, hload _ (by simp), tree', hemit, fun ds hds => ?_⟩
  obtain ⟨text, parsed, htext', hparsed, -⟩ := Document.load_eq_ok.mp hds
  cases hnew.readText.symm.trans htext'
  -- the dashes go on with the open line
  rw [Document.parse, dashedAll, Yaml.Stream.read_append_ofList] at hparsed
  rw [hparsed] at hparse
  cases hparse

/-! ## What an emitted file says -/

/-- What documents say of a table, and that no catalog selects them. -/
structure Describes (ds : List Document) (t : OffsetTable) : Prop where
  contents : ds.mapM entryOf? = some t.contents
  groups : ∀ d ∈ ds, d.kind = .signalGroup
  labelled : ∀ d ∈ ds, d.metadata.labels.contains Catalog.indexLabel = true
  unselected : ∀ (c : Catalog) (names : List String), ∀ h ∈ c.selected names,
    ∀ d, c.get? h = some d → d ∉ ds

/-- What documents say determines the table. -/
theorem Describes.unique {ds : List Document} {t' : OffsetTable} (h : Describes ds t)
    (h' : Describes ds t') : t' = t :=
  contents_inj (Option.some.inj (h'.contents.symm.trans h.contents))

theorem exists_groupDocument {ds : List Document} (h : ds ⊆ t.documents) {d : Document}
    (hd : d ∈ Listing.filed p ds) : ∃ e, d = { groupDocument e with file := some p } := by
  obtain ⟨d', hd', rfl⟩ := List.mem_map.mp hd
  obtain ⟨e, -, rfl⟩ := List.mem_map.mp (h hd')
  exact ⟨e, rfl⟩

theorem labelled_filed {ds : List Document} (h : ds ⊆ t.documents) :
    ∀ d ∈ Listing.filed p ds, d.metadata.labels.contains Catalog.indexLabel = true := by
  intro d hd
  obtain ⟨e, rfl⟩ := exists_groupDocument h hd
  rfl

theorem isSelected_of_labelled {d : Document}
    (h : d.metadata.labels.contains Catalog.indexLabel = true) (names : List String) :
    Catalog.isSelected names d = false := by
  rw [Catalog.isSelected, h]
  rfl

theorem describes_documents (t : OffsetTable) (p : Path) :
    Describes (Listing.filed p t.documents) t where
  contents := mapM_entryOf? t p
  groups := by
    intro d hd
    obtain ⟨e, rfl⟩ := exists_groupDocument (List.Subset.refl _) hd
    rfl
  labelled := labelled_filed (List.Subset.refl _)
  unselected := by
    intro c names h hh d hd hmem
    obtain ⟨-, d', hd', hselected⟩ := Catalog.mem_selected.mp hh
    cases hd.symm.trans hd'
    rw [isSelected_of_labelled (labelled_filed (List.Subset.refl _) d hmem)] at hselected
    cases hselected

/-- A catalog that takes up documents of a table selects what it selected before. -/
theorem selected_add {c : Catalog} {l : Listing} (r : c.Refines l) {ds : List Document}
    (hds : ds ⊆ t.documents) (hload : Document.load tree p = .ok (Listing.filed p ds))
    (names : List String) :
    (c.add tree p).map (·.selected names) = .ok (c.selected names) := by
  rw [Catalog.add]
  split
  · rfl
  · next hnew =>
      rw [hload]
      refine congrArg Except.ok ?_
      rw [r.contains, Bool.not_eq_true] at hnew
      have hdocs := (r.insertNew hnew (Listing.filed p ds)).documents .signalGroup
      rw [Listing.filed_filed, Listing.all, List.flatMap_append, Document.ofKind_append,
        ← Listing.all, ← r.documents, List.flatMap_singleton] at hdocs
      -- documents of a table are labelled as such, and no selection takes them
      refine Catalog.selected_of_append hdocs fun d hd => ?_
      exact isSelected_of_labelled (labelled_filed hds d (List.mem_filter.mp hd).1) names

theorem flatten_replicate_subset (n : Nat) (ds : List Document) :
    (List.replicate n ds).flatten ⊆ ds := by
  intro d hd
  obtain ⟨ds', hds', hd⟩ := List.mem_flatten.mp hd
  rwa [List.eq_of_mem_replicate hds'] at hd

/-- The file that is left by emitting a table `n + 1` times where no file was. -/
theorem load_of_emitTimes (hyaml : t.GivesBack) {q : Place} (hq : tree.locateFile p = .ok q)
    (hnone : tree.entry? q = none) (n : Nat) :
    ∃ tree', t.emitTimes p (n + 1) tree = .ok tree' ∧ Document.load tree' p
      = .ok (Listing.filed p (List.replicate (n + 1) t.documents).flatten) := by
  obtain ⟨tree₁, hemit, h₁⟩ := emit_of_missing hq hnone t
  obtain ⟨tree', hmore, htext⟩ := emitTimes_of_hasText h₁ t n
  rw [← dashedAll_append, ← List.flatten_cons, ← List.replicate_succ] at htext
  have hempty : Document.parse "" = .ok [] := rfl
  have hparse := parse_append_dashedAll hyaml rfl hempty
    (flatten_replicate_subset (n + 1) t.documents)
  rw [String.empty_append, List.nil_append] at hparse
  exact ⟨tree', by rw [emitTimes, hemit, Except.ok_bind, hmore], load_of_hasText htext hparse⟩

/-- An emitted file says the whole table, once for each time that it is emitted, and
changes no selection. -/
theorem ofOperations_emitted (ops : List Operation) (hyaml : (ofOperations ops).GivesBack)
    {tree : FileTree} {p : Path} {q : Place} (hq : tree.locateFile p = .ok q)
    (hnone : tree.entry? q = none) :
    ∃ ds, Describes ds (ofOperations ops)
      ∧ (∀ t, Describes ds t → t = ofOperations ops)
      ∧ (∃ tree', (ofOperations ops).emit tree p = .ok tree' ∧ Document.load tree' p = .ok ds)
      ∧ ∀ n, ∃ tree', (ofOperations ops).emitTimes p (n + 1) tree = .ok tree'
          ∧ Document.load tree' p = .ok (List.replicate (n + 1) ds).flatten
          ∧ ∀ (cops : List Catalog.Operation) (names : List String),
              ((Catalog.ofOperations cops).add tree' p).map (·.selected names)
                = .ok ((Catalog.ofOperations cops).selected names) := by
  generalize ofOperations ops = t at hyaml ⊢
  have hemitted := load_of_emitTimes hyaml hq hnone
  have hdescribes := describes_documents t p
  refine ⟨_, hdescribes, fun _ => hdescribes.unique, ?_, fun n => ?_⟩
  · obtain ⟨tree', hemit, hload⟩ := hemitted 0
    refine ⟨tree', (emitTimes_one t p tree).symm.trans hemit, ?_⟩
    rwa [List.replicate_one, List.flatten_singleton] at hload
  · obtain ⟨tree', hemit, hload⟩ := hemitted n
    refine ⟨tree', hemit, ?_, fun cops names => ?_⟩
    · rw [hload, Listing.filed, List.map_flatten, List.map_replicate]
      rfl
    · exact selected_add (Catalog.refines_ofOperations cops)
        (flatten_replicate_subset (n + 1) t.documents) hload names

/-- A table with two channels, emitted to a new file twice. -/
theorem ofOperations_emitted_sample : ∃ tree',
    (ofOperations Sample.operations).emitTimes ⟨"/new.yaml"⟩ 2 Sample.files = .ok tree'
      ∧ ∃ ds, ds.mapM entryOf? = some (ofOperations Sample.operations).contents
        ∧ Document.load tree' ⟨"/new.yaml"⟩ = .ok (ds ++ ds) := by
  obtain ⟨hyaml, hq, hnone, -⟩ := Sample.computed
  obtain ⟨ds, hdescribes, -, -, hemitted⟩ :=
    ofOperations_emitted Sample.operations hyaml hq hnone
  obtain ⟨tree', hemit, hload, -⟩ := hemitted 1
  refine ⟨tree', hemit, ds, hdescribes.contents, ?_⟩
  rw [hload, List.replicate_succ, List.replicate_one, List.flatten_cons, List.flatten_singleton]

end OffsetTable

end SimAnnotate
