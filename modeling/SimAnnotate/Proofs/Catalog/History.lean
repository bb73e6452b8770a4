import SimAnnotate.Proofs.Catalog.Refinement

/-!
# What a catalog holds after any operations

`Catalog.Lists c fs` says that a catalog is the plain list `fs` of files: each
file's handles address its documents in order, and every handle below the count
of its kind belongs to one file once. A catalog that operations build lists the
files of the listing that they build.

A listing only grows: files come behind the ones that are there, and of a
document labels and annotations change at most (`Listing.Grows`). So a handle
keeps addressing the same document.
-/

namespace SimAnnotate

open Document (ofKind number)

namespace Listing

/-! ## Growth -/

/-- What stays of a file: its path and its bare documents. -/
def shape (f : FileContent) : Path × List Document :=
  (f.path, f.documents.map Document.bare)

/-- `l'` has the files of `l` in front. -/
def Grows (l l' : Listing) : Prop := l.files.map shape <+: l'.files.map shape

namespace Grows

variable {l l' l'' : Listing}

theorem refl (l : Listing) : l.Grows l := List.prefix_rfl

theorem trans (h : l.Grows l') (h' : l'.Grows l'') : l.Grows l'' :=
  List.IsPrefix.trans h h'

theorem of_shapes (h : l'.files.map shape = l.files.map shape) : l.Grows l' :=
  ⟨[], (List.append_nil _).trans h.symm⟩

theorem of_files (h : l'.files = l.files) : l.Grows l' :=
  of_shapes (congrArg (List.map shape) h)

end Grows

variable (l : Listing)

theorem grows_insert (p : Path) (ds : List Document) : l.Grows (l.insert p ds) := by
  unfold insert
  split
  · exact .refl l
  · exact ⟨[shape ⟨p, filed p ds⟩], by simp⟩

theorem grows_load (t : FileTree) (p : Path) : l.Grows (l.load t p) := by
  unfold load
  split
  · exact l.grows_insert p _
  · exact .refl l

theorem grows_foldl_load (t : FileTree) (ps : List Path) :
    l.Grows (ps.foldl (load t) l) := by
  induction ps generalizing l with
  | nil => exact .refl l
  | cons p rest ih => exact (l.grows_load t p).trans (ih _)

theorem files_save (t : FileTree) (ps : List Path) :
    (l.save t ps).files = l.files := by
  unfold save
  split <;> rfl

/-! ### Changes of documents -/

theorem shape_editFiles {h : Handle} {f : Document → Document}
    (before : List Document) (fs : List FileContent)
    (hf : ∀ d, (ofKind h.kind (before ++ fs.flatMap (·.documents)))[h.position]?
      = some d → (f d).bare = d.bare) :
    (editFiles h f before fs).map shape = fs.map shape := by
  induction fs generalizing before with
  | nil => rfl
  | cons x rest ih =>
      rw [List.flatMap_cons, ← List.append_assoc] at hf
      rw [editFiles, List.map_cons, List.map_cons, ih _ hf, shape, shape,
        Document.map_editAt_of_get? Document.bare before x.documents _ hf]

/-- A change that keeps the bare document keeps the files. -/
theorem grows_edit {h : Handle} {f : Document → Document}
    (hf : ∀ d, l.get? h = some d → (f d).bare = d.bare) :
    l.Grows (l.edit h f) := by
  refine .of_shapes (shape_editFiles [] l.files fun d hd => hf d ?_)
  rw [l.get?_eq]
  exact hd

theorem bare_referred {l : Listing} {rules : RuleSet} {policy : ReferencePolicy}
    {d : Document} {signals : List Signal}
    (h : l.referred? rules policy d = some signals) :
    (d.mapSignals fun _ => signals).bare = d.bare := by
  unfold referred? at h
  split at h
  · next channel g _ _ hg =>
      cases h
      exact Document.bare_of_outline (Document.outline_mapSignals hg
        (References.outline_referSignals rules channel g.signals policy))
  · cases h

theorem grows_annotate (h : Handle) (rules : RuleSet) (policy : ReferencePolicy) :
    l.Grows (l.annotate h rules policy) := by
  unfold annotate
  cases hd : l.get? h with
  | none => exact .refl l
  | some d =>
      dsimp only
      cases hs : l.referred? rules policy d with
      | none => exact .refl l
      | some signals =>
          have hedit : l.Grows (l.edit h (·.mapSignals fun _ => signals)) := by
            refine l.grows_edit fun d' hd' => ?_
            rw [hd] at hd'
            cases hd'
            exact bare_referred hs
          exact hedit.trans (.of_files (files_flagFile _ d))

theorem grows_summarise (sim : Path) : l.Grows (l.summarise sim) := by
  unfold summarise
  split
  · next d _ =>
      refine Grows.trans (l.grows_edit fun d' _ => ?_) (.of_files (files_flagFile _ d))
      exact Document.bare_of_outline (StackSummary.outline_summarise _ d')
  · exact .refl l

/-- Every operation lets a listing grow. -/
theorem grows_after (op : Catalog.Operation) : l.Grows (l.after op) := by
  cases op with
  | exclude p => exact .of_files rfl
  | scan t root => exact l.grows_foldl_load t _
  | add t p =>
      unfold after
      dsimp only
      split
      · exact .refl l
      · exact l.grows_load t p
  | insert p ds => exact l.grows_insert p ds
  | flag p => exact .of_files (l.files_flag p)
  | save t => exact .of_files (l.files_save t _)
  | saveAll t => exact .of_files (l.files_save t _)
  | annotate h rules policy => exact l.grows_annotate h rules policy
  | summarise sim => exact l.grows_summarise sim
  | edit h e => exact l.grows_edit fun d _ => e.bare_change d

theorem grows_ofOperations (ops ops' : List Catalog.Operation) :
    (ofOperations ops).Grows (ofOperations (ops ++ ops')) := by
  rw [ofOperations, ofOperations, List.foldl_append]
  generalize ops.foldl after empty = l
  induction ops' generalizing l with
  | nil => exact .refl l
  | cons op rest ih => exact (l.grows_after op).trans (ih _)

/-! ### What growth keeps -/

theorem map_bare_ofKind (k : Kind) (ds : List Document) :
    (ofKind k ds).map Document.bare = ofKind k (ds.map Document.bare) := by
  rw [ofKind, ofKind, List.filter_map]
  simp only [Function.comp_def, Document.kind_bare]

theorem map_bare_documents (l : Listing) (k : Kind) :
    (l.documents k).map Document.bare
      = (l.files.map shape).flatMap fun s => ofKind k s.2 := by
  rw [documents, List.map_flatMap, List.flatMap_map]
  simp only [shape, map_bare_ofKind]

variable {l} {l' : Listing}

/-- Documents of a kind come behind the ones that are there. -/
theorem Grows.documents (h : l.Grows l') (k : Kind) :
    (l.documents k).map Document.bare <+: (l'.documents k).map Document.bare := by
  obtain ⟨more, hmore⟩ := h
  rw [map_bare_documents, map_bare_documents, ← hmore, List.flatMap_append]
  exact List.prefix_append _ _

theorem records_congr {before before' : List Document} {fs fs' : List FileContent}
    (hb : before.map Document.kind = before'.map Document.kind)
    (hfs : fs.map shape = fs'.map shape) :
    records before fs = records before' fs' := by
  induction fs generalizing before before' fs' with
  | nil =>
      rw [List.map_nil, eq_comm, List.map_eq_nil_iff] at hfs
      rw [hfs]
      rfl
  | cons x rest ih =>
      cases fs' with
      | nil => cases hfs
      | cons x' rest' =>
          simp only [List.map_cons, List.cons.injEq, shape, Prod.mk.injEq] at hfs
          obtain ⟨⟨hpath, hbare⟩, hrest⟩ := hfs
          -- handles come from the kinds of the documents before
          have hkinds := congrArg (List.map Document.kind) hbare
          simp only [List.map_map, Function.comp_def, Document.kind_bare] at hkinds
          have hb' : (before ++ x.documents).map Document.kind
              = (before' ++ x'.documents).map Document.kind := by
            rw [List.map_append, List.map_append, hb, hkinds]
          rw [records, records, hpath, Document.number_congr hb hkinds, ih hb' hrest]

/-- The records of the files stay. -/
theorem Grows.records (h : l.Grows l') :
    Listing.records [] l.files <+: Listing.records [] l'.files := by
  obtain ⟨more, hmore⟩ := h
  obtain ⟨fs, fs', hsplit, hfs, -⟩ := List.map_eq_append_iff.mp hmore.symm
  rw [hsplit, records_append, ← records_congr (Eq.refl _) hfs]
  exact List.prefix_append _ _

end Listing

/-! ## What a catalog holds -/

/-- The catalog is the list of files with their documents. -/
structure Catalog.Lists (c : Catalog) (fs : List FileContent) : Prop where
  /-- No two files have the same path. -/
  paths : (fs.map (·.path.parts)).Nodup
  files : c.files = fs.map (·.path)
  documents : ∀ k, c.documents k = fs.flatMap fun f =>
    f.documents.filter (·.kind = k)
  /-- A file is kept under its path. -/
  recorded : c.records.entries.map (fun e => (e.1, e.2.path))
    = fs.map fun f => (f.path.parts, f.path)
  /-- The handles of a file address its documents in their order. -/
  addressed : c.records.values.map (·.handles.map c.get?)
    = fs.map (·.documents.map some)
  /-- No handle occurs twice, in one file or in two. -/
  once : (c.records.values.flatMap (·.handles)).Nodup
  /-- The handles of the files are those of the documents. -/
  complete : ∀ h, h ∈ c.records.values.flatMap (·.handles) ↔
    h.position < (c.documents h.kind).length
  kind : ∀ h d, c.get? h = some d → d.kind = h.kind
  filed : ∀ f ∈ fs, ∀ d ∈ f.documents, d.file = some f.path
  flagged : ∀ p ∈ c.flagged.values, p.parts ∈ c.files.map Path.parts

namespace Catalog

theorem Refines.addressed {c : Catalog} {l : Listing} (r : c.Refines l) :
    c.records.values.map (·.handles.map c.get?)
      = l.files.map (·.documents.map some) := by
  have hget : c.get? = fun h => (ofKind h.kind ([] ++ l.all))[h.position]? := by
    funext h
    rw [r.get?, Listing.get?_eq]
    rfl
  have hfiles : ∀ before fs, before ++ fs.flatMap (·.documents) = [] ++ l.all →
      (Listing.records before fs).map (·.2.handles.map c.get?)
        = fs.map (·.documents.map some) := by
    intro before fs hall
    rw [hget]
    -- the documents of the files before shift what the handles address
    induction fs generalizing before with
    | nil => rfl
    | cons x rest ih =>
        rw [List.flatMap_cons, ← List.append_assoc] at hall
        have hx := Document.get?_number before x.documents
          (rest.flatMap (·.documents))
        rw [hall] at hx
        rw [Listing.records, List.map_cons, List.map_cons, ih _ hall]
        exact congrArg (· :: _) hx
  rw [OrderedMap.values, r.records, List.map_map]
  exact hfiles [] l.files rfl

theorem Refines.lists {c : Catalog} {l : Listing} (r : c.Refines l) :
    c.Lists l.files := by
  have hhandles : c.records.values.flatMap (·.handles) = number [] l.all := by
    rw [OrderedMap.values, r.records, List.flatMap_map]
    exact Listing.handles_records [] l.files
  exact {
    paths := r.nodup
    files := r.files
    documents := fun k => by rw [r.documents, ← Listing.documents_eq]; rfl
    recorded := by
      rw [r.records]
      -- numbers depend on the documents before, which the induction leaves open
      generalize ([] : List Document) = before
      induction l.files generalizing before with
      | nil => rfl
      | cons x rest ih => simp [Listing.records, ih]
    addressed := r.addressed
    once := hhandles ▸ Document.nodup_number [] l.all
    complete := fun h => by
      rw [hhandles, Document.mem_number, r.documents]
      simp
    kind := fun _ _ => r.kind
    filed := r.filed
    flagged := fun p hp => by
      rw [r.flaggedValues] at hp
      rw [r.files, List.map_map]
      exact Listing.contains_iff.mp (r.known p hp) }

/-- After any operations on an empty catalog it lists the files that came, in
their order; what is done to it later keeps the records of these files and the
documents that handles address. -/
theorem ofOperations_lists (ops later : List Operation) :
    (ofOperations ops).Lists (Listing.ofOperations ops).files
      ∧ (ofOperations ops).records.entries
          <+: (ofOperations (ops ++ later)).records.entries
      ∧ (∀ k, ((ofOperations ops).documents k).map Document.bare
          <+: ((ofOperations (ops ++ later)).documents k).map Document.bare)
      ∧ ∀ h d, (ofOperations ops).get? h = some d →
          ∃ d', (ofOperations (ops ++ later)).get? h = some d' ∧ d'.bare = d.bare := by
  have r := refines_ofOperations ops
  have r' := refines_ofOperations (ops ++ later)
  have hgrows := Listing.grows_ofOperations ops later
  have hdocs : ∀ k, ((ofOperations ops).documents k).map Document.bare
      <+: ((ofOperations (ops ++ later)).documents k).map Document.bare := by
    intro k
    rw [r.documents, r'.documents, ← Listing.documents_eq, ← Listing.documents_eq]
    exact hgrows.documents k
  refine ⟨r.lists, ?_, hdocs, fun h d hd => ?_⟩
  · rw [r.records, r'.records]
    exact hgrows.records
  · -- a handle addresses the same position of a longer list
    have hbare : (((ofOperations ops).documents h.kind).map Document.bare)[
        h.position]? = some d.bare := by
      rw [List.getElem?_map]
      exact congrArg (Option.map Document.bare) hd
    have hlt := (List.getElem?_eq_some_iff.mp hbare).1
    obtain ⟨more, hmore⟩ := hdocs h.kind
    have hlater : (((ofOperations (ops ++ later)).documents h.kind).map
        Document.bare)[h.position]? = some d.bare := by
      rw [← hmore, List.getElem?_append_left hlt, hbare]
    rw [List.getElem?_map, Option.map_eq_some_iff] at hlater
    exact hlater

end Catalog

end SimAnnotate
