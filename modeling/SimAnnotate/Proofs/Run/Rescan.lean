import SimAnnotate.Proofs.Catalog.Reload
import SimAnnotate.Proofs.Run.Documents

/-!
# What a run leaves in the tree

After saving, every file that the run read holds its documents as they are in the
catalog, whether the run wrote it or not (`fileContent?_saved`), and the file of
the offset table holds the table (`load_indexFile_saved`). So scanning the tree
again gives the documents of the catalog (`documents_saved`), without those of
the table.
-/

namespace SimAnnotate.Run.Preparation

variable {o : Options} {t t' : FileTree} {place : Place} (w : Preparation o t)
  (hwf : t.WellFormed) (hsim : t.locate o.sim = .ok place) (hyaml : w.progress.GivesBack)

/-- The files that were read, with their documents as they are in the catalog. -/
def saved : Listing :=
  ⟨(listing o t).files.map fun f => ⟨f.path, w.catalog.documentsOf f.path⟩, [], excluded o⟩

/-! ## Flagged files -/

section

include hwf hsim hyaml

/-- A file that was read is flagged under its own path. -/
theorem mem_flagged {p : Path} {names : Place} (hp : Reads o t place p names)
    (hflagged : w.catalog.isFlagged p = true) : p ∈ w.catalog.flagged.values := by
  obtain ⟨l, r, -⟩ := w.exists_listing hwf hsim hyaml
  obtain ⟨q, hq, hparts⟩ := r.isFlagged_iff.mp hflagged
  obtain ⟨names', hreads⟩ := w.reads_of_flagged hwf hsim hyaml hq
  rwa [← hreads.eq hsim hp hparts]

theorem not_flagged_indexFile (hindex : o.index = true) :
    w.catalog.isFlagged o.indexFile = false := by
  obtain ⟨l, r, -⟩ := w.exists_listing hwf hsim hyaml
  by_contra hflagged
  rw [Bool.not_eq_false] at hflagged
  obtain ⟨q, hq, hparts⟩ := r.isFlagged_iff.mp hflagged
  obtain ⟨names, hreads⟩ := w.reads_of_flagged hwf hsim hyaml hq
  exact hreads.ne_index hsim hindex hparts

/-- No flagged file is at the place of a file that is not flagged. -/
theorem locate_flagged_ne {p : Path} {names : Place} (hp : Reads o t place p names)
    (hflagged : w.catalog.isFlagged p = false) {p' : Path}
    (hp' : p' ∈ w.catalog.flagged.values) : w.tree.locate p' ≠ .ok (place ++ names) := by
  intro hlocate
  obtain ⟨l, r, -⟩ := w.exists_listing hwf hsim hyaml
  obtain ⟨names', hreads⟩ := w.reads_of_flagged hwf hsim hyaml hp'
  have hplace := hreads.place_eq hsim (w.extends_tree hwf hsim) hlocate
  have hpath : p' = p := by
    rw [hreads.path, hp.path, List.append_cancel_left hplace]
  have hmem := r.isFlagged_iff.mpr ⟨p', hp', congrArg Path.parts hpath⟩
  rw [hflagged] at hmem
  cases hmem

/-- The documents of a file that was read remember its path. -/
theorem file_of_mem {p : Path} {names : Place} (hp : Reads o t place p names)
    {d : Document} (hd : d ∈ w.catalog.documentsOf p) : d.file = some p := by
  obtain ⟨l, r, hpaths⟩ := w.exists_listing hwf hsim hyaml
  obtain ⟨f, hf, hfile, hparts⟩ := r.file_of_mem hd
  have hmem : f.path ∈ ((listing o t).files ++ addedFiles o w.policy).map (·.path) :=
    hpaths ▸ List.mem_map_of_mem hf
  obtain ⟨f', hf', hpath⟩ := List.mem_map.mp hmem
  rw [hfile, ← hpath]
  rw [← hpath] at hparts
  rcases List.mem_append.mp hf' with hf' | hf'
  · obtain ⟨names', hreads⟩ := reads_of_mem hwf hsim (mem_files_listing hf').1
    rw [hreads.eq hsim hp hparts]
  · obtain ⟨hindex, hadded⟩ := w.of_mem_addedFiles hf'
    rw [hadded] at hparts
    exact absurd hparts.symm (hp.ne_index hsim hindex)

/-- The catalog has the files that were read, as their documents are now, and that
of the table. -/
theorem refines_catalog : ∃ l, w.catalog.Refines l ∧ l.excluded = excluded o
    ∧ l.files = w.saved.files ++ addedFiles o w.policy := by
  have r := w.refines_opened hwf hsim hyaml
  have he := w.evolves hwf hsim hyaml
  obtain ⟨l, r', hpaths⟩ := w.exists_listing hwf hsim hyaml
  refine ⟨l, r', ?_, ?_⟩
  · rw [← r'.excluded, he.excluded, r.excluded]
    rfl
  have hfiles : l.files = (l.files.map (·.path)).map fun p =>
      ⟨p, w.catalog.documentsOf p⟩ := by
    rw [List.map_map]
    refine (List.map_id _).symm.trans (List.map_congr_left fun f hf => ?_)
    rw [Function.comp_apply, r'.documentsOf_file hf]
    rfl
  -- the file of the table is not flagged, so its documents are as they came in
  have hadded : (addedFiles o w.policy).map (fun f =>
      ⟨f.path, w.catalog.documentsOf f.path⟩) = addedFiles o w.policy := by
    refine (List.map_congr_left fun f hf => ?_).trans (List.map_id _)
    obtain ⟨hindex, hpath⟩ := w.of_mem_addedFiles hf
    have hflagged := w.not_flagged_indexFile hwf hsim hyaml hindex
    rw [← hpath] at hflagged
    rw [he.documentsOf r hflagged, r.documentsOf_file (List.mem_append_right _ hf)]
    rfl
  rw [hfiles, hpaths, List.map_append, List.map_append, List.map_map, List.map_map]
  exact congrArg _ hadded

/-- A flagged file holds its documents once it is written. -/
theorem load_written {done : List Path} (hdone : done <+: w.catalog.flagged.values)
    {u : FileTree} (hwritten : w.catalog.writeFiles w.tree done = (u, none)) {p : Path}
    (hp : p ∈ done) : Document.load u p = .ok (w.catalog.documentsOf p) := by
  have hflagged := hdone.subset hp
  obtain ⟨names, hreads⟩ := w.reads_of_flagged hwf hsim hyaml hflagged
  have hapart := (w.apart_flagged hwf hsim hyaml).sublist hdone.sublist
  have hload := Catalog.load_written (w.sound hwf hsim hyaml) hapart
    (fun q hq => hyaml.files q (hdone.subset hq)) hwritten hp
  have hfiled := Listing.filed_eq_self fun d hd => w.file_of_mem hwf hsim hyaml hreads hd
  exact hload.trans (congrArg Except.ok hfiled)

end

/-! ## After saving -/

variable (hsave : w.catalog.writeFiles w.tree w.catalog.flagged.values = (t', none))

section

include hwf hsim hsave

theorem extends_saved : t.Extends t' :=
  (w.extends_tree hwf hsim).trans (Catalog.writeFiles_frame hsave).1.1

include hyaml

/-- The file of the table has not changed since it was written. -/
theorem entry?_indexFile (hindex : o.index = true) :
    t'.entry? (place ++ indexNames) = w.tree.entry? (place ++ indexNames) := by
  refine (Catalog.writeFiles_frame hsave).2 _ fun p hp hlocate => ?_
  obtain ⟨names, hreads⟩ := w.reads_of_flagged hwf hsim hyaml hp
  have hplace := hreads.place_eq hsim (w.extends_tree hwf hsim) hlocate
  exact hreads.index hindex (List.append_cancel_left hplace).symm

/-- The file of the table holds the table, in every tree with the same entries. -/
theorem load_indexFile_saved {table : OffsetTable} (htable : table ∈ w.policy.table?)
    {u : FileTree} (hu : t'.Same u) :
    Document.load u o.indexFile = .ok (Listing.filed o.indexFile table.documents) := by
  have hext := (Catalog.writeFiles_frame hsave).1.1.trans hu.toExtends
  refine w.load_table hwf hsim hyaml hext (fun hindex => ?_) htable
  rw [hu.entries, w.entry?_indexFile hwf hsim hyaml hsave hindex]

/-- A file that is not flagged has not changed. -/
theorem entry?_saved {p : Path} {names : Place} (hp : Reads o t place p names)
    (hflagged : w.catalog.isFlagged p = false) :
    t'.entry? (place ++ names) = t.entry? (place ++ names) := by
  obtain ⟨content, hcontent⟩ := hp.file
  have htree := (w.file_tree hwf hsim (fun hindex heq =>
    hp.index hindex (List.append_cancel_left heq)) content).mpr hcontent
  rw [(Catalog.writeFiles_frame hsave).2 _ fun p' hp' =>
    w.locate_flagged_ne hwf hsim hyaml hp hflagged hp', htree, hcontent]

/-- A flagged file holds its documents. -/
theorem load_flagged {p : Path} (hp : p ∈ w.catalog.flagged.values) :
    Document.load t' p = .ok (w.catalog.documentsOf p) :=
  w.load_written hwf hsim hyaml List.prefix_rfl hsave hp

/-- Every file that was read holds its documents as they are in the catalog. -/
theorem fileContent?_saved {p : Path} (hp : p ∈ scanPaths o t) :
    fileContent? t' p = (fileContent? t p).map fun f =>
      ⟨f.path, w.catalog.documentsOf f.path⟩ := by
  obtain ⟨names, hreads⟩ := reads_of_mem hwf hsim hp
  cases hflagged : w.catalog.isFlagged p with
  | true =>
      -- it was written as the catalog has it
      have hmem := w.mem_flagged hwf hsim hyaml hreads hflagged
      obtain ⟨f, hf, hpath⟩ := w.exists_file_of_flagged hwf hsim hyaml hmem
      have hload := (mem_files_listing hf).2
      rw [hpath] at hload
      rw [fileContent?, fileContent?, w.load_flagged hwf hsim hyaml hsave hmem, hload]
      rfl
  | false =>
      -- it is as it was, in the tree and in the catalog
      have hentry := w.entry?_saved hwf hsim hyaml hsave hreads hflagged
      have hload := hreads.load_congr hwf hsim (w.extends_saved hwf hsim hsave) hentry
      rw [fileContent?_congr hload]
      cases hcontent : fileContent? t p with
      | none => rfl
      | some f =>
          have hlisted : f ∈ (listing o t).files ++ addedFiles o w.policy :=
            List.mem_append_left _ (List.mem_filterMap.mpr ⟨p, hp, hcontent⟩)
          have r := w.refines_opened hwf hsim hyaml
          have hpath := (fileContent?_eq_some hcontent).2
          have hdocs := (w.evolves hwf hsim hyaml).documentsOf r hflagged
          rw [← hpath, r.documentsOf_file hlisted] at hdocs
          rw [Option.map_some, hdocs]

/-- The same places hold files, that of the table apart. -/
theorem isFile_saved {q : Place} (hq : o.index = true → q ≠ place ++ indexNames) :
    IsFile t' q ↔ IsFile t q := by
  have htree : IsFile w.tree q ↔ IsFile t q :=
    exists_congr fun content => w.file_tree hwf hsim hq content
  -- a flagged file was a file and is one again; nothing else is written
  by_cases hflagged : ∃ p ∈ w.catalog.flagged.values, w.tree.locate p = .ok q
  · obtain ⟨p, hp, hlocate⟩ := hflagged
    obtain ⟨names, hreads⟩ := w.reads_of_flagged hwf hsim hyaml hp
    obtain ⟨q', text, hq', -, hentry⟩ :=
      Catalog.writeFiles_written hsave (w.apart_flagged hwf hsim hyaml) p hp
    have hext := w.extends_saved hwf hsim hsave
    have hplace := hreads.place_eq hsim (w.extends_tree hwf hsim) hlocate
    have hplace' := hreads.place_eq hsim hext (FileTree.locateFile_eq_ok.mp hq').1
    rw [hplace]
    rw [hplace'] at hentry
    exact ⟨fun _ => hreads.file, fun _ => ⟨_, hentry⟩⟩
  · have hframe := (Catalog.writeFiles_frame hsave).2 q fun p hp hlocate =>
      hflagged ⟨p, hp, hlocate⟩
    rw [← htree, IsFile, IsFile, hframe]

/-! ## Scanning again -/

theorem scanPaths_saved : scanPaths o t' = scanPaths o t :=
  scanPaths_congr hwf hsim (w.extends_saved hwf hsim hsave)
    fun _ hq => w.isFile_saved hwf hsim hyaml hsave hq

/-- Scanning the saved tree gives the files with their documents as they are in
the catalog. -/
theorem refines_saved : (scanned o t').catalog.Refines w.saved := by
  have hpaths := w.scanPaths_saved hwf hsim hyaml hsave
  have hlisting : listing o t' = w.saved := by
    rw [listing, hpaths, saved, listing, List.map_filterMap]
    congr 1
    exact List.filterMap_congr fun p hp => w.fileContent?_saved hwf hsim hyaml hsave hp
  have hnodup := nodup_scanPaths (o := o) hwf
  rw [← hpaths] at hnodup
  rw [← hlisting]
  exact refines_scanned hnodup

/-- The documents of the saved tree are those of the catalog, without those of the
table. -/
theorem documents_saved (k : Kind) : w.catalog.documents k
    = (scanned o t').catalog.documents k
      ++ Document.ofKind k ((addedFiles o w.policy).flatMap (·.documents)) := by
  obtain ⟨l, r, -, hfiles⟩ := w.refines_catalog hwf hsim hyaml
  rw [r.documents, (w.refines_saved hwf hsim hyaml hsave).documents, ← Document.ofKind_append,
    Listing.all, hfiles, List.flatMap_append]
  rfl

theorem outline_saved (h : Handle) :
    ((scanned o t').catalog.get? h).map Document.outline
      = ((scanned o t).catalog.get? h).map Document.outline := by
  have houtlines := (w.evolves hwf hsim hyaml).documents_outline h.kind
  rw [w.documents_saved hwf hsim hyaml hsave, w.documents_opened hwf hsim hyaml,
    List.map_append, List.map_append, List.append_cancel_right_eq] at houtlines
  have hget := congrArg (·[h.position]?) houtlines
  simp only [List.getElem?_map] at hget
  exact hget

/-- A document that was read is saved as it is in the catalog. -/
theorem get?_saved {h : Handle} {d : Document}
    (hd : (scanned o t).catalog.get? h = some d) :
    (scanned o t').catalog.get? h = w.catalog.get? h := by
  have houtline := w.outline_saved hwf hsim hyaml hsave h
  rw [hd, Option.map_some, Option.map_eq_some_iff] at houtline
  obtain ⟨d', hd', -⟩ := houtline
  have hlt := (List.getElem?_eq_some_iff.mp hd').1
  rw [Catalog.get?, Catalog.get?, w.documents_saved hwf hsim hyaml hsave,
    List.getElem?_append_left hlt]

end

end SimAnnotate.Run.Preparation
