import SimAnnotate.Proofs.Catalog.Reload

/-!
# What saving comes to

Files are saved one after the other, up to the first that cannot be written. Whether a
file can be written does not depend on the files in front of it (`Writable.congr`), so the
tree before saving tells how far it comes: to the end, `Complete`, or to the first file
that is not `Writable`, `Stopped`. In the first case the flags are gone and saving again
writes nothing, in the second the catalog is what it was, so that saving can be repeated
when nothing is in the way any more (`ofOperations_saves`).
-/

namespace SimAnnotate

namespace Catalog

/-- The file can be written: it has documents of known kinds only, all of them with a
text, and its path leads to where a file can be and nothing is refused. -/
structure Writable (c : Catalog) (t : FileTree) (p : Path) : Prop where
  known : ∀ d ∈ c.documentsOf p, ∀ k, d.kind ≠ .other k
  printable : ∀ d ∈ c.documentsOf p, d.isWritable = true
  located : ∃ q, t.locateFile p = .ok q

/-- The file is there, with the text of its documents in order. -/
def Holds (c : Catalog) (t : FileTree) (p : Path) : Prop :=
  ∃ text, Document.printAll (c.documentsOf p) = .ok text ∧ t.read p = .ok text.toUTF8

/-- All files have been written. -/
structure Complete (c : Catalog) (t : FileTree) (ps : List Path) (s : Saved) : Prop where
  error : s.error = none
  written : ∀ p ∈ ps, c.Holds s.tree p
  others : ∀ q, (∀ p ∈ ps, t.locate p ≠ .ok q) → s.tree.entry? q = t.entry? q
  catalog : s.catalog = c.unflagAll
  unflagged : ∀ p, s.catalog.isFlagged p = false
  again : s.catalog.save s.tree = ⟨s.tree, s.catalog, none⟩

/-- The files `done` have been written, but not `p`, nor any file behind it. -/
structure Stopped (c : Catalog) (t : FileTree) (done : List Path) (p : Path)
    (later : List Path) (s : Saved) : Prop where
  error : ∃ fault, s.error = some ⟨p, fault⟩
  written : ∀ p' ∈ done, c.Holds s.tree p'
  kept : ∀ p' ∈ p :: later, ∀ content,
    s.tree.read p' = .ok content ↔ t.read p' = .ok content
  others : ∀ q, (∀ p' ∈ done, t.locate p' ≠ .ok q) → s.tree.entry? q = t.entry? q
  /-- Documents and flags are as they were. -/
  catalog : s.catalog = c

/-- Saving the files `ps` comes to the first that cannot be written, and repeating it in a
tree where all of them can be completes it. -/
structure Saves (c : Catalog) (t : FileTree) (ps : List Path) (s : Saved) : Prop where
  complete : (∀ p ∈ ps, c.Writable t p) → Complete c t ps s
  stopped : ∀ done p later, ps = done ++ p :: later → (∀ p' ∈ done, c.Writable t p') →
    ¬ c.Writable t p → Stopped c t done p later s
  repeated : s.error ≠ none → ∀ t', t'.home = t.home → (∀ p ∈ ps, c.Writable t' p) →
    Complete c t' ps (s.catalog.saveFiles t' ps)

variable {c : Catalog} {t t' : FileTree} {ps : List Path}

/-! ## Whether a file can be written -/

theorem writable_iff {p : Path} : c.Writable t p ↔
    (∀ d ∈ c.documentsOf p, d.isKnown = true ∧ d.isWritable = true)
      ∧ (t.locateFile p).toOption.isSome = true := by
  have hlocated : (t.locateFile p).toOption.isSome = true ↔ ∃ q, t.locateFile p = .ok q := by
    simp only [Option.isSome_iff_exists, ← Except.mem_toOption, Option.mem_def]
  rw [hlocated]
  simp only [Document.isKnown_iff]
  constructor
  · rintro ⟨hknown, hprintable, hlocated⟩
    exact ⟨fun d hd => ⟨hknown d hd, hprintable d hd⟩, hlocated⟩
  · rintro ⟨hdocs, hlocated⟩
    exact ⟨fun d hd => (hdocs d hd).1, fun d hd => (hdocs d hd).2, hlocated⟩

instance (c : Catalog) (t : FileTree) (p : Path) : Decidable (c.Writable t p) :=
  decidable_of_iff _ writable_iff.symm

theorem exists_locateFile_of_extends (h : t.Extends t') (h' : t'.Extends t) {p : Path} :
    (∃ q, t.locateFile p = .ok q) → ∃ q, t'.locateFile p = .ok q := by
  rintro ⟨q, hq⟩
  refine ⟨q, h.locateFile hq fun hdir => ?_⟩
  exact (FileTree.locateFile_eq_ok.mp hq).2.2.1 (h'.directories q hdir)

/-- A tree with the same directories lets the same files be written. -/
theorem Writable.congr (h : t.Extends t') (h' : t'.Extends t) {p : Path} :
    c.Writable t' p ↔ c.Writable t p := by
  constructor
  · rintro ⟨hknown, hprintable, hlocated⟩
    exact ⟨hknown, hprintable, exists_locateFile_of_extends h' h hlocated⟩
  · rintro ⟨hknown, hprintable, hlocated⟩
    exact ⟨hknown, hprintable, exists_locateFile_of_extends h h' hlocated⟩

theorem exists_writeFile_iff {p : Path} :
    (∃ t', writeFile t p (c.documentsOf p) = .ok t') ↔ c.Writable t p := by
  rw [writable_iff, ← Document.exists_printAll_iff, Option.isSome_iff_exists]
  simp only [← Option.mem_def, Except.mem_toOption]
  constructor
  · rintro ⟨t', h⟩
    obtain ⟨text, q, htext, hq, -⟩ := writeFile_eq_ok.mp h
    exact ⟨⟨text, htext⟩, q, hq⟩
  · rintro ⟨⟨text, htext⟩, q, hq⟩
    exact ⟨_, writeFile_eq_ok.mpr ⟨text, q, htext, hq, rfl⟩⟩

/-- The error of a file that is not written names the file. -/
theorem file_of_writeFile {p : Path} {ds : List Document} {e : WriteError}
    (h : writeFile t p ds = .error e) : e.file = p := by
  unfold writeFile at h
  cases hprint : Document.printAll ds with
  | error fault =>
      rw [hprint] at h
      cases h
      rfl
  | ok text =>
      rw [hprint] at h
      obtain ⟨fault, -, rfl⟩ := Except.mapError_eq_error.mp h
      rfl

/-! ## How far saving comes -/

theorem exists_writeFiles (h : ∀ p ∈ ps, c.Writable t p) :
    ∃ t', c.writeFiles t ps = (t', none) := by
  induction ps generalizing t with
  | nil => exact ⟨t, rfl⟩
  | cons p rest ih =>
      obtain ⟨s, hs⟩ := exists_writeFile_iff.mpr (h p List.mem_cons_self)
      obtain ⟨hto, hfrom⟩ := extends_of_writeFile hs
      obtain ⟨t', ht'⟩ := ih fun p' hp' =>
        (Writable.congr hto hfrom).mpr (h p' (List.mem_cons_of_mem p hp'))
      exact ⟨t', writeFiles_cons.mpr ⟨s, hs, ht'⟩⟩

/-- Files that are written do not matter for what comes behind them. -/
theorem writeFiles_append {ps' : List Path} (h : c.writeFiles t ps = (t', none)) :
    c.writeFiles t (ps ++ ps') = c.writeFiles t' ps' := by
  induction ps generalizing t with
  | nil =>
      cases h
      rfl
  | cons p rest ih =>
      obtain ⟨s, hs, hrest⟩ := writeFiles_cons.mp h
      rw [List.cons_append, writeFiles, hs]
      exact ih hrest

/-- Saving stops at the first file that cannot be written. -/
theorem writeFiles_stop {done : List Path} {p : Path} (later : List Path)
    (hdone : ∀ p' ∈ done, c.Writable t p') (hp : ¬ c.Writable t p) :
    ∃ t' fault, c.writeFiles t done = (t', none)
      ∧ c.writeFiles t (done ++ p :: later) = (t', some ⟨p, fault⟩) := by
  obtain ⟨t', ht'⟩ := exists_writeFiles hdone
  obtain ⟨hto, hfrom⟩ := (writeFiles_frame ht').1
  cases hwrite : writeFile t' p (c.documentsOf p) with
  | ok s => exact absurd ((Writable.congr hto hfrom).mp (exists_writeFile_iff.mp ⟨s, hwrite⟩)) hp
  | error e =>
      have hfile := file_of_writeFile hwrite
      refine ⟨t', e.fault, ht', ?_⟩
      rw [writeFiles_append ht', writeFiles, hwrite, ← hfile]

/-! ## What is left -/

theorem holds_of_writeFiles (h : c.writeFiles t ps = (t', none)) (hapart : Apart t ps) :
    ∀ p ∈ ps, c.Holds t' p := by
  intro p hp
  obtain ⟨q, text, hq, htext, hentry⟩ := writeFiles_written h hapart p hp
  exact ⟨text, htext, FileTree.read_eq_ok.mpr ⟨q, (FileTree.locateFile_eq_ok.mp hq).1, hentry⟩⟩

/-- Files at other places are read as before. -/
theorem read_of_writeFiles (h : c.writeFiles t ps = (t', none)) {p : Path}
    (hp : ∀ p' ∈ ps, ∀ q, t.locate p' = .ok q → t.locate p ≠ .ok q) (content : ByteArray) :
    t'.read p = .ok content ↔ t.read p = .ok content := by
  obtain ⟨⟨hto, hfrom⟩, hothers⟩ := writeFiles_frame h
  have hentry : ∀ q, t.locate p = .ok q → t'.entry? q = t.entry? q := fun q hq =>
    hothers q fun p' hp' hq' => hp p' hp' q hq' hq
  rw [FileTree.read_eq_ok, FileTree.read_eq_ok]
  constructor
  · rintro ⟨q, hq, hfile⟩
    have hq := hfrom.locate hq
    exact ⟨q, hq, hentry q hq ▸ hfile⟩
  · rintro ⟨q, hq, hfile⟩
    exact ⟨q, hto.locate hq, (hentry q hq).trans hfile⟩

theorem complete_saveFiles (hapart : Apart t ps) (h : ∀ p ∈ ps, c.Writable t p) :
    Complete c t ps (c.saveFiles t ps) := by
  obtain ⟨t', ht'⟩ := exists_writeFiles h
  have hsaved : c.saveFiles t ps = ⟨t', c.unflagAll, none⟩ := by rw [saveFiles, ht']
  rw [hsaved]
  exact {
    error := rfl
    written := holds_of_writeFiles ht' hapart
    others := (writeFiles_frame ht').2
    catalog := rfl
    unflagged := fun _ => rfl
    again := rfl }

theorem stopped_saveFiles {done later : List Path} {p : Path}
    (hapart : Apart t (done ++ p :: later)) (hdone : ∀ p' ∈ done, c.Writable t p')
    (hp : ¬ c.Writable t p) :
    Stopped c t done p later (c.saveFiles t (done ++ p :: later)) := by
  obtain ⟨t', fault, ht', hstop⟩ := writeFiles_stop later hdone hp
  have hsaved : c.saveFiles t (done ++ p :: later) = ⟨t', c, some ⟨p, fault⟩⟩ := by
    rw [saveFiles, hstop]
  obtain ⟨hapart, -, hbehind⟩ := List.pairwise_append.mp hapart
  rw [hsaved]
  exact {
    error := ⟨fault, rfl⟩
    written := holds_of_writeFiles ht' hapart
    kept := fun p' hp' => read_of_writeFiles ht' fun d hd => hbehind d hd p' hp'
    others := (writeFiles_frame ht').2
    catalog := rfl }

theorem saves_saveFiles (hplaces : (ps.map t.destination).Nodup) :
    Saves c t ps (c.saveFiles t ps) := by
  refine ⟨complete_saveFiles (apart_of_nodup hplaces), ?_, fun herror t' hhome h => ?_⟩
  · rintro done p later rfl hdone hp
    exact stopped_saveFiles (apart_of_nodup hplaces) hdone hp
  · -- a path leads to the same place in every tree with the same working directory
    have hdestination : t'.destination = t.destination := by
      funext p
      rw [FileTree.destination, FileTree.destination, hhome]
    have hcatalog : (c.saveFiles t ps).catalog = c := by
      unfold saveFiles at herror ⊢
      split
      · next hwrite =>
          rw [hwrite] at herror
          exact absurd rfl herror
      · rfl
    rw [hcatalog]
    exact complete_saveFiles (apart_of_nodup (hdestination ▸ hplaces)) h

/-! ## Saving a catalog -/

/-- Saving a catalog whose files are at different places. The flagged files are written in
the order of their flags and all files in the order in which they came, each with the
documents that it brought, up to the first that cannot be written. -/
theorem ofOperations_saves (ops : List Operation) (t : FileTree)
    (hplaces : ((ofOperations ops).files.map t.destination).Nodup) :
    let c := ofOperations ops
    let l := Listing.ofOperations ops
    (c.flagged.values = l.flagged ∧ c.files = l.files.map (·.path)
        ∧ ∀ p, c.documentsOf p = l.documentsOf p)
      ∧ Saves c t c.flagged.values (c.save t)
      ∧ Saves c t c.files (c.saveAll t) := by
  intro c l
  have r : c.Refines l := refines_ofOperations ops
  exact ⟨⟨r.flaggedValues, r.files, r.documentsOf⟩,
    saves_saveFiles (r.nodup_destinations hplaces), saves_saveFiles hplaces⟩

namespace Sample

def model (name : String) : Document := ⟨⟨name, ∅, ∅⟩, .model default, none⟩

/-- Three flagged files. -/
def three : List Operation :=
  [.insert ⟨"a.yml"⟩ [model "a"], .insert ⟨"b.yml"⟩ [model "b", model "b2"],
    .insert ⟨"c.yml"⟩ [model "c"],
    .flag ⟨"a.yml"⟩, .flag ⟨"b.yml"⟩, .flag ⟨"c.yml"⟩]

/-- A tree that has no room for the second of them. -/
def full : FileTree := ⟨∅, [], [(["b.yml"], ⟨28, "No space left on device"⟩)]⟩

end Sample

theorem ofOperations_saves_refused :
    let c := ofOperations Sample.three
    let t := Sample.full
    (c.files.map t.destination).Nodup ∧ Stopped c t [⟨"a.yml"⟩] ⟨"b.yml"⟩ [⟨"c.yml"⟩] (c.save t)
      ∧ ∃ fault, (c.save t).error = some ⟨⟨"b.yml"⟩, fault⟩ := by
  intro c t
  obtain ⟨hplaces, hflagged, hdone, hp⟩ : (c.files.map t.destination).Nodup
      ∧ c.flagged.values = [⟨"a.yml"⟩] ++ ⟨"b.yml"⟩ :: [⟨"c.yml"⟩]
      ∧ (∀ p ∈ [⟨"a.yml"⟩], c.Writable t p) ∧ ¬ c.Writable t ⟨"b.yml"⟩ := by
    decide
  obtain ⟨-, hsave, -⟩ := ofOperations_saves Sample.three t hplaces
  have hstopped := hsave.stopped _ _ _ hflagged hdone hp
  exact ⟨hplaces, hstopped, hstopped.error⟩

end Catalog

end SimAnnotate
