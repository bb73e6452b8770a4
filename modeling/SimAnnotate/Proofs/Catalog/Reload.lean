import SimAnnotate.Proofs.Catalog.Saving
import SimAnnotate.Proofs.Catalog.Soundness
import SimAnnotate.Proofs.Document.Text
import SimAnnotate.Proofs.FileTree.Destination
import SimAnnotate.Wiring

/-!
# Saving and loading

What is saved is loaded again: each file that was written holds the documents that the
catalog has for it, and a catalog that is built anew from all files answers as the one
that was saved (`ofOperations_reload`).

Two things are needed. Different paths lead to different places, and YAML gives back the
values that it writes (`Catalog.GivesBack`).
-/

namespace SimAnnotate

namespace Catalog

/-- A new catalog with the files of a tree, in order. -/
def ofFiles (t : FileTree) (ps : List Path) : Except LoadError Catalog :=
  ps.foldlM (fun c p => c.add t p) empty

variable {c : Catalog} {l : Listing} {t t' : FileTree}

/-! ## Loading what was written -/

theorem apart_of_nodup {ps : List Path} (h : (ps.map t.destination).Nodup) : Apart t ps := by
  rw [List.Nodup, List.pairwise_map] at h
  refine h.imp fun hne q hq hq' => hne ?_
  rw [← FileTree.destination_of_locate hq, ← FileTree.destination_of_locate hq']

/-- A file that was written holds its documents, filed under the path that it was
written by. -/
theorem load_written (hsound : c.Sound) {ps : List Path} (hapart : Apart t ps)
    (hyaml : c.GivesBack ps) (h : c.writeFiles t ps = (t', none)) {p : Path} (hp : p ∈ ps) :
    Document.load t' p = .ok (Listing.filed p (c.documentsOf p)) := by
  obtain ⟨q, text, hq, hprint, hentry⟩ := writeFiles_written h hapart p hp
  have htext := FileTree.readText_of_entry? (FileTree.locateFile_eq_ok.mp hq).1 hentry
  have hdocs : ∀ d ∈ c.documentsOf p, d.Sound := fun d hd => by
    obtain ⟨h, hd⟩ := c.exists_get? hd
    exact hsound h d hd
  have hknown : ∀ d ∈ c.documentsOf p, d.isKnown = true := fun d hd =>
    (Document.exists_printAll_iff.mp ⟨text, hprint⟩ d hd).1
  have hgives := hyaml p hp text (Except.mem_toOption.mpr hprint)
  refine Document.load_eq_ok.mpr
    ⟨text, _, htext, Document.parse_of_gives hdocs hknown hgives, ?_⟩
  rw [Listing.filed, List.map_map]
  rfl

theorem writeFiles_of_saveFiles {ps : List Path} (h : (c.saveFiles t ps).error = none) :
    c.writeFiles t ps = ((c.saveFiles t ps).tree, none) := by
  unfold saveFiles at h ⊢
  split
  · next hwrite => exact hwrite
  · next hwrite =>
      rw [hwrite] at h
      cases h

/-! ## Files and flagged paths -/

theorem Refines.mem_files (r : c.Refines l) {p : Path} (hp : p ∈ c.files) :
    ∃ f ∈ l.files, f.path = p ∧ c.documentsOf p = f.documents := by
  rw [r.files, List.mem_map] at hp
  obtain ⟨f, hf, rfl⟩ := hp
  exact ⟨f, hf, rfl, r.documentsOf_file hf⟩

/-- The documents of a file are filed under its path. -/
theorem Refines.filed_documentsOf (r : c.Refines l) {p : Path} (hp : p ∈ c.files) :
    Listing.filed p (c.documentsOf p) = c.documentsOf p := by
  obtain ⟨f, hf, rfl, hdocs⟩ := r.mem_files hp
  rw [hdocs]
  exact Listing.filed_eq_self (r.filed f hf)

/-- Where different files are at different places, so are flagged ones. -/
theorem Refines.nodup_destinations (r : c.Refines l)
    (h : (c.files.map t.destination).Nodup) :
    (c.flagged.values.map t.destination).Nodup := by
  have hfile : ∀ p ∈ c.flagged.values, ∃ f ∈ c.files, f.parts = p.parts := by
    intro p hp
    rw [r.flaggedValues] at hp
    obtain ⟨f, hf, hparts⟩ := List.mem_map.mp (Listing.contains_iff.mp (r.known p hp))
    exact ⟨f.path, r.files ▸ List.mem_map_of_mem hf, hparts⟩
  have hparts := r.nodup_flagged
  refine List.Nodup.map_on (fun p hp p' hp' heq => ?_) (hparts.of_map _)
  obtain ⟨f, hf, hfp⟩ := hfile p hp
  obtain ⟨f', hf', hfp'⟩ := hfile p' hp'
  rw [← FileTree.destination_congr hfp, ← FileTree.destination_congr hfp'] at heq
  obtain rfl : f = f' := List.inj_on_of_nodup_map h hf hf' heq
  exact List.inj_on_of_nodup_map hparts hp hp' (hfp.symm.trans hfp')

/-! ## Building the catalog anew -/

/-- Files with other paths than those that are there come in as they are. -/
theorem foldlM_add (fs : List FileContent) (r : c.Refines l)
    (hload : ∀ f ∈ fs, Document.load t f.path = .ok f.documents)
    (hfiled : ∀ f ∈ fs, Listing.filed f.path f.documents = f.documents)
    (hnodup : ((l.files ++ fs).map (·.path.parts)).Nodup) :
    ∃ c', (fs.map (·.path)).foldlM (fun c p => c.add t p) c = .ok c'
      ∧ c'.Refines { l with files := l.files ++ fs } := by
  induction fs generalizing c l with
  | nil =>
      refine ⟨c, rfl, ?_⟩
      rw [List.append_nil]
      exact r
  | cons f rest ih =>
      -- no two files have the same parts, so the next one is new
      have hnew : l.contains f.path = false := by
        rw [← Bool.not_eq_true, Listing.contains_iff]
        intro hmem
        rw [List.map_append, List.nodup_append] at hnodup
        exact hnodup.2.2 _ hmem _ List.mem_cons_self rfl
      have hadd : c.add t f.path = .ok (c.insertNew f.path f.documents) := by
        rw [add, r.contains, hnew, if_neg Bool.false_ne_true, hload f List.mem_cons_self]
        rfl
      have r' := r.insertNew hnew f.documents
      rw [hfiled f List.mem_cons_self] at r'
      have happend : ∀ gs : List FileContent, l.files ++ f :: gs = (l.files ++ [f]) ++ gs :=
        fun gs => List.append_cons l.files f gs
      rw [happend] at hnodup ⊢
      obtain ⟨c', hc', hrefines⟩ := ih r' (fun f hf => hload f (List.mem_cons_of_mem _ hf))
        (fun f hf => hfiled f (List.mem_cons_of_mem _ hf)) hnodup
      refine ⟨c', ?_, hrefines⟩
      rw [List.map_cons, List.foldlM_cons, hadd, Except.ok_bind, hc']

/-- From files that hold the catalog's documents the same documents come. -/
theorem Refines.ofFiles (r : c.Refines l)
    (hload : ∀ p ∈ c.files, Document.load t p = .ok (c.documentsOf p)) :
    ∃ c', ofFiles t c.files = .ok c' ∧ ∀ k, c'.documents k = c.documents k := by
  have hdocs : ∀ f ∈ l.files, f.path ∈ c.files ∧ c.documentsOf f.path = f.documents :=
    fun f hf => ⟨r.files ▸ List.mem_map_of_mem hf, r.documentsOf_file hf⟩
  obtain ⟨c', hc', r'⟩ := foldlM_add (t := t) l.files refines_empty
    (fun f hf => (hdocs f hf).2 ▸ hload f.path (hdocs f hf).1)
    (fun f hf => (hdocs f hf).2 ▸ r.filed_documentsOf (hdocs f hf).1) r.nodup
  rw [← r.files] at hc'
  refine ⟨c', hc', fun k => ?_⟩
  rw [r'.documents, r.documents]
  rfl

/-! ## Answers -/

/-- Catalogs that give the same answers about documents. -/
structure Answers (c c' : Catalog) : Prop where
  documents : ∀ k, c'.documents k = c.documents k
  get? : ∀ h, c'.get? h = c.get? h
  findName? : ∀ k name, c'.findName? k name = c.findName? k name
  findLabels? : ∀ k required, c'.findLabels? k required = c.findLabels? k required
  selected : ∀ names, c'.selected names = c.selected names
  channel : ∀ d, Wiring.channel c' d = Wiring.channel c d

/-- With the same documents all answers are the same. -/
theorem answers_of_documents {c c' : Catalog} (h : ∀ k, c'.documents k = c.documents k) :
    Answers c c' where
  documents := h
  get? handle := by rw [Catalog.get?, h, ← Catalog.get?]
  findName? k name := by rw [Catalog.findName?, h, ← Catalog.findName?]
  findLabels? k required := by rw [Catalog.findLabels?, h, ← Catalog.findLabels?]
  selected names := by
    have hget : c'.get? = c.get? := funext fun handle => by
      rw [Catalog.get?, h, ← Catalog.get?]
    rw [Catalog.selected, Catalog.selected, handles, handles, h, hget]
  channel d := by
    unfold Wiring.channel Wiring.channel? Wiring.candidates Wiring.stack stackDocument
    rw [h, h]

/-- Saving writes what loading gives. Every flagged file that was written holds the
documents that the catalog has for it, in order, each of them in that very file; and
after all files were written, a new catalog of these gives all answers of the old one. -/
theorem ofOperations_reload (ops : List Operation) (hops : ∀ op ∈ ops, op.Proper)
    (t : FileTree) (hplaces : ((ofOperations ops).files.map t.destination).Nodup) :
    let c := ofOperations ops
    ((c.save t).error = none → c.GivesBack c.flagged.values →
        ∀ p ∈ c.flagged.values,
          Document.load (c.save t).tree p = .ok (Listing.filed p (c.documentsOf p))
            ∧ ∀ d ∈ c.documentsOf p, ∃ q, d.file = some q ∧ q.parts = p.parts)
      ∧ ((c.saveAll t).error = none → c.GivesBack c.files →
          (∀ p ∈ c.files, Document.load (c.saveAll t).tree p = .ok (c.documentsOf p))
            ∧ ∃ c', ofFiles (c.saveAll t).tree c.files = .ok c' ∧ Answers c c') := by
  intro c
  have r := refines_ofOperations ops
  have hsound := sound_ofOperations hops
  constructor
  · intro hsave hyaml p hp
    have hwrite := writeFiles_of_saveFiles hsave
    refine ⟨load_written hsound (apart_of_nodup (r.nodup_destinations hplaces)) hyaml hwrite
      hp, fun d hd => ?_⟩
    obtain ⟨f, -, hfile, hparts⟩ := r.file_of_mem hd
    exact ⟨f.path, hfile, hparts⟩
  · intro hsave hyaml
    have hwrite := writeFiles_of_saveFiles hsave
    -- no file is written over another, so each is read as what it was written for
    have hload : ∀ p ∈ c.files,
        Document.load (c.saveAll t).tree p = .ok (c.documentsOf p) := fun p hp =>
      (load_written hsound (apart_of_nodup hplaces) hyaml hwrite hp).trans
        (congrArg Except.ok (r.filed_documentsOf hp))
    obtain ⟨c', hc', hdocs⟩ := r.ofFiles hload
    exact ⟨hload, c', hc', answers_of_documents hdocs⟩

namespace Sample

/-- A Stack and a group that has a number for a label. -/
def tree : FileTree :=
  ⟨.ofList [(["a.yml"], .file "kind: Stack\n".toUTF8),
    (["b.yml"], .file "kind: SignalGroup\nmetadata: \x7blabels: \x7bk: 1\x7d\x7d\n".toUTF8)],
    [], []⟩

/-- The group gets another label and an annotation, and its file is flagged in another
spelling. -/
def operations : List Operation :=
  [.scan tree ⟨"/"⟩, .edit ⟨.signalGroup, 0⟩ (.label "x" "y"),
    .edit ⟨.signalGroup, 0⟩ <| Edit.annotation "n" (.ofNat 2), .flag ⟨"//b.yml"⟩]

theorem proper : ∀ op ∈ operations, op.Proper := by
  have hannotation := Edit.proper_annotation "n" (show (Yaml.Value.ofNat 2).repeatsKey = false
    from rfl)
  simp [operations, Operation.Proper, Edit.proper_label, hannotation]

/-- Saving writes a flagged file and all files, with texts that give back their values. -/
theorem saves :
    ((ofOperations operations).files.map tree.destination).Nodup
      ∧ (ofOperations operations).flagged.values = [⟨"//b.yml"⟩]
      ∧ ((ofOperations operations).documentsOf ⟨"//b.yml"⟩).length = 1
      ∧ ((ofOperations operations).save tree).error = none
      ∧ (ofOperations operations).GivesBack (ofOperations operations).flagged.values
      ∧ ((ofOperations operations).saveAll tree).error = none
      ∧ (ofOperations operations).GivesBack (ofOperations operations).files := by
  decide +kernel

end Sample

theorem ofOperations_reload_sample :
    let c := ofOperations Sample.operations
    (c.documentsOf ⟨"//b.yml"⟩).length = 1
      ∧ (∀ d ∈ c.documentsOf ⟨"//b.yml"⟩, ∃ q, d.file = some q ∧ q.parts = [.root, .name "b.yml"])
      ∧ Document.load (c.save Sample.tree).tree ⟨"//b.yml"⟩
          = .ok (Listing.filed ⟨"//b.yml"⟩ (c.documentsOf ⟨"//b.yml"⟩))
      ∧ ∃ c', ofFiles (c.saveAll Sample.tree).tree c.files = .ok c' ∧ Answers c c' := by
  obtain ⟨hplaces, hflagged, hlength, hsave, hyaml, hsaveAll, hyaml'⟩ := Sample.saves
  obtain ⟨hreload, hreloadAll⟩ :=
    ofOperations_reload Sample.operations Sample.proper Sample.tree hplaces
  obtain ⟨hload, hdocs⟩ :=
    hreload hsave hyaml ⟨"//b.yml"⟩ (hflagged ▸ List.mem_singleton_self _)
  exact ⟨hlength, hdocs, hload, (hreloadAll hsaveAll hyaml').2⟩

end Catalog

end SimAnnotate
