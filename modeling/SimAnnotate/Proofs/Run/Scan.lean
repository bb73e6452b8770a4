import SimAnnotate.Proofs.Catalog.Scanning
import SimAnnotate.Proofs.Run.IndexFile

/-!
# What a run reads

A run reads the files of its simulation in walk order, `scanPaths`. Each of them
has its own names below the simulation and so its own place (`Reads`). What is
read is the plain list of the files that are documents (`refines_scanned`), and a
tree with the same files is scanned in the same way (`scanPaths_congr`).
-/

namespace SimAnnotate.Run

/-- The files that a run leaves out. -/
def excluded (o : Options) : List (List Path.Part) :=
  if o.index then [o.indexFile.parts] else []

/-- The files that a run looks at. -/
def scanPaths (o : Options) (t : FileTree) : List Path :=
  (t.walk o.sim).filter fun p => Catalog.isYaml p && !(excluded o).contains p.parts

/-- A file with its documents, if it can be read. -/
def fileContent? (t : FileTree) (p : Path) : Option FileContent :=
  (Document.load t p).toOption.map (FileContent.mk p)

/-- The files that a run reads. -/
def listing (o : Options) (t : FileTree) : Listing :=
  ⟨(scanPaths o t).filterMap (fileContent? t), [], excluded o⟩

variable {o : Options} {t t' : FileTree} {place : Place}

/-! ## Files below the simulation -/

/-- The file `p` of the simulation at `place`, to which `names` lead. -/
structure Reads (o : Options) (t : FileTree) (place : Place) (p : Path)
    (names : Place) : Prop where
  path : p = o.sim.descend names
  named : ∀ name ∈ names, Path.isName name = true
  key : place ++ names ∈ t.entries.keys
  file : ∃ content, t.entry? (place ++ names) = some (.file content)
  index : o.index = true → names ≠ indexNames

theorem ne_indexNames {names : Place}
    (h : (o.sim.descend names).parts ∉ excluded o) (hindex : o.index = true) :
    names ≠ indexNames := by
  intro heq
  refine h ?_
  rw [heq, excluded, if_pos hindex, indexFile_eq]
  exact List.mem_singleton_self _

theorem reads_of_mem (hwf : t.WellFormed) (hsim : t.locate o.sim = .ok place) {p : Path}
    (hp : p ∈ scanPaths o t) : ∃ names, Reads o t place p names := by
  obtain ⟨hwalk, hkeep⟩ := List.mem_filter.mp hp
  rw [Bool.and_eq_true, Bool.not_eq_true', List.contains_eq_mem,
    decide_eq_false_iff_not] at hkeep
  obtain ⟨_, names, content, hplace, rfl, hentry⟩ := (FileTree.mem_walk hwf).mp hwalk
  cases hsim.symm.trans hplace
  obtain ⟨hkey, hnamed⟩ := hwf.named (hwf.mem_filesBelow.mpr ⟨content, hentry⟩)
  exact ⟨names, rfl, hnamed, hkey, ⟨content, hentry⟩, ne_indexNames hkeep.2⟩

section

variable (hsim : t.locate o.sim = .ok place) {p p' : Path} {names names' : Place}

include hsim

/-- A file of the simulation is known by its parts. -/
theorem Reads.eq (h : Reads o t place p names) (h' : Reads o t place p' names')
    (hparts : p.parts = p'.parts) : p = p' := by
  have hroot := FileTree.text_ne_of_locate hsim
  rw [h.path, h'.path] at hparts
  rw [h.path, h'.path, Path.descend_inj hroot h.named h'.named hparts]

/-- A file of the simulation is at its own place, in every tree with more
directories. -/
theorem Reads.place_eq (h : Reads o t place p names) (hext : t.Extends t') {q : Place}
    (hq : t'.locate p = .ok q) : q = place ++ names := by
  rw [h.path] at hq
  exact FileTree.locate_descend (hext.locate hsim) h.named hq

theorem Reads.ne_index (h : Reads o t place p names) (hindex : o.index = true) :
    p.parts ≠ o.indexFile.parts := by
  intro hparts
  have hroot := FileTree.text_ne_of_locate hsim
  rw [h.path, indexFile_eq] at hparts
  exact h.index hindex (Path.descend_inj hroot h.named isName_indexNames hparts)

end

theorem nodup_scanPaths (hwf : t.WellFormed) : ((scanPaths o t).map Path.parts).Nodup :=
  (FileTree.nodup_walk hwf o.sim).sublist (List.filter_sublist.map _)

/-! ## Scanning -/

theorem fileContent?_eq_some {p : Path} {f : FileContent} (h : fileContent? t p = some f) :
    Document.load t p = .ok f.documents ∧ f.path = p := by
  unfold fileContent? at h
  cases hload : Document.load t p with
  | error e =>
      rw [hload] at h
      cases h
  | ok ds =>
      rw [hload] at h
      cases h
      exact ⟨rfl, rfl⟩

theorem fileContent?_congr {p : Path} (h : Document.load t' p = Document.load t p) :
    fileContent? t' p = fileContent? t p := by
  rw [fileContent?, fileContent?, h]

/-- Different files that are not known come in one after the other. -/
theorem foldl_load {ps : List Path} (hnodup : (ps.map Path.parts).Nodup) {l : Listing}
    (hnew : ∀ p ∈ ps, l.contains p = false) :
    ps.foldl (Listing.load t) l
      = { l with files := l.files ++ ps.filterMap (fileContent? t) } := by
  have hentering : ∀ p ∈ ps, l.entering? t p = fileContent? t p := fun p hp => by
    rw [Listing.entering?, hnew p hp]
    rfl
  rw [Listing.foldl_load hnodup, List.filterMap_congr hentering]

/-- What a run reads is the list of its files. -/
theorem refines_scanned (hnodup : ((scanPaths o t).map Path.parts).Nodup) :
    (scanned o t).catalog.Refines (listing o t) := by
  have hstart : (if o.index then Catalog.empty.exclude o.indexFile else .empty).Refines
      ⟨[], [], excluded o⟩ := by
    unfold excluded
    split
    · exact Catalog.refines_empty.exclude o.indexFile
    · exact Catalog.refines_empty
  have hscan := hstart.scan t o.sim
  have hlisting : Listing.scan ⟨[], [], excluded o⟩ t o.sim = listing o t := by
    change (scanPaths o t).foldl (Listing.load t) ⟨[], [], excluded o⟩ = _
    rw [foldl_load hnodup fun _ _ => rfl]
    rfl
  rw [hlisting] at hscan
  exact hscan

theorem mem_files_listing {f : FileContent} (hf : f ∈ (listing o t).files) :
    f.path ∈ scanPaths o t ∧ Document.load t f.path = .ok f.documents := by
  obtain ⟨p, hp, hcontent⟩ := List.mem_filterMap.mp hf
  obtain ⟨hload, rfl⟩ := fileContent?_eq_some hcontent
  exact ⟨hp, hload⟩

/-! ## Scanning a tree that has changed -/

/-- Whether there is a file at a place. -/
def IsFile (t : FileTree) (q : Place) : Prop :=
  ∃ content, t.entry? q = some (.file content)

/-- Trees with the same files, the offset table apart, are scanned alike. -/
theorem scanPaths_congr (hwf : t.WellFormed) (hsim : t.locate o.sim = .ok place)
    (hext : t.Extends t')
    (hfiles : ∀ q, (o.index = true → q ≠ place ++ indexNames) → (IsFile t' q ↔ IsFile t q)) :
    scanPaths o t' = scanPaths o t := by
  have hget : ∀ u : FileTree, [] ∉ u.entries.keys → ∀ q,
      (∃ content, u.entries.get? q = some (.file content)) ↔ IsFile u q := by
    intro u hroot q
    unfold IsFile
    by_cases hq : q = []
    · rw [hq, OrderedMap.get?_eq_none hroot, u.entry?_nil]
      simp
    · rw [FileTree.entry?_of_ne hq]
  have hwalk : ∀ u : FileTree, u.locate o.sim = .ok place → scanPaths o u
      = ((u.filesBelow place).filter fun names =>
          Catalog.isYaml (o.sim.descend names)
            && !(excluded o).contains (o.sim.descend names).parts).map o.sim.descend := by
    intro u hu
    rw [scanPaths, FileTree.walk, hu]
    dsimp only
    rw [List.filter_map]
    rfl
  rw [hwalk t' (hext.locate hsim), hwalk t hsim]
  congr 1
  refine FileTree.filter_filesBelow_congr fun names hkeep => ?_
  rw [Bool.and_eq_true, Bool.not_eq_true', List.contains_eq_mem,
    decide_eq_false_iff_not] at hkeep
  rw [FileTree.mem_filesBelow, FileTree.mem_filesBelow,
    hget t' (fun h => hwf.ne_root (hext.root h)), hget t hwf.ne_root]
  -- the one file that may differ is excluded
  refine hfiles _ fun hindex heq => ?_
  exact ne_indexNames hkeep.2 hindex (List.append_cancel_left heq)

/-- A file whose entry has not changed is read as it was. -/
theorem Reads.load_congr {p : Path} {names : Place} (h : Reads o t place p names)
    (hwf : t.WellFormed) (hsim : t.locate o.sim = .ok place) (hext : t.Extends t')
    (hentry : t'.entry? (place ++ names) = t.entry? (place ++ names)) :
    Document.load t' p = Document.load t p := by
  have hlocate : t'.locate p = t.locate p := by
    rw [h.path]
    exact hext.locate_descend hwf hsim h.key
  have hread : t'.read p = t.read p := FileTree.read_congr hlocate fun q hq => by
    rw [h.place_eq hsim (.refl t) hq]
    exact hentry
  exact Document.load_congr hread

end SimAnnotate.Run
