import SimAnnotate.Proofs.Run.Rescan

/-!
# What the Stack lists after a run

A run writes onto the Stack which files the simulation has: those that it could read,
in the order of a walk, and behind them the file of the offset table, each once and as
the names that lead to it from the simulation (`Summarised.files`). A Stack that is
read from its file after a run that succeeds has this list and the names of its
instances, and all else as it was (`annotate_lists`).
-/

namespace SimAnnotate.Run

open StackSummary (instancesKey filesKey)

/-! ## What is to be listed -/

section

variable (o : Options) (t : FileTree)

/-- The YAML files of the simulation that are not excluded and can be read, in the
order of a walk. -/
def readablePaths : List Path :=
  (t.walk o.sim).filter fun p => Catalog.isYaml p && !(excluded o).contains p.parts
    && (Document.load t p).toOption.isSome

/-- The files that are to be listed; that of the offset table comes last. -/
def listedPaths : List Path :=
  readablePaths o t ++ if o.index then [o.indexFile] else []

end

/-- What is listed for the file `p` of a simulation: the names that lead to it from
there, which also lead back to it. -/
structure Leads (sim : Path) (entry : String) (p : Path) : Prop where
  names : ∃ names : Place, (∀ name ∈ names, Path.isName name = true)
    ∧ p.parts = sim.parts ++ names.map Path.Part.name ∧ entry = "/".intercalate names
  joined : (sim.join entry).parts = p.parts

/-- What is listed for a file is settled. -/
theorem Leads.unique {sim p : Path} {entry entry' : String} (h : Leads sim entry p)
    (h' : Leads sim entry' p) : entry = entry' := by
  obtain ⟨⟨names, -, hparts, rfl⟩, -⟩ := h
  obtain ⟨⟨names', -, hparts', rfl⟩, -⟩ := h'
  rw [hparts, List.append_cancel_left_eq] at hparts'
  rw [List.map_injective_iff.mpr (fun _ _ h => Path.Part.name.inj h) hparts']

/-- Entries that were the same would lead to one file. -/
theorem nodup_of_leads {sim : Path} {entries : List String} {paths : List Path}
    (h : List.Forall₂ (Leads sim) entries paths) (hpaths : (paths.map Path.parts).Nodup) :
    entries.Nodup := by
  have hparts : entries.map (fun entry => (sim.join entry).parts) = paths.map Path.parts := by
    clear hpaths
    induction h with
    | nil => rfl
    | cons hlead _ ih => rw [List.map_cons, List.map_cons, hlead.joined, ih]
  rw [← hparts] at hpaths
  exact hpaths.of_map

/-- The Stack `d'` is `d` with the summary of a run on `t`: the list of the files, the
names of the instances without the bus, and no other change. -/
structure Summarised (o : Options) (t : FileTree) (d d' : Document) : Prop where
  files : ∃ entries : List String,
    d'.metadata.annotations.get? filesKey = some (.sequence (entries.map .string))
      ∧ List.Forall₂ (Leads o.sim) entries (listedPaths o t) ∧ entries.Nodup
      ∧ (o.index = true → entries.getLast? = some "data/direct_index.yaml")
  instances : ∃ stack, d.stack? = some stack
    ∧ d'.metadata.annotations.get? instancesKey = some (.string
      (",".intercalate ((stack.instances.map (·.name)).filter (· ≠ "simbus"))))
  others : (d'.metadata.annotations.erase filesKey).erase instancesKey
    = (d.metadata.annotations.erase filesKey).erase instancesKey
  kept : d' = d.withAnnotations d'.metadata.annotations

/-- `d` is the only Stack in the file `p`. -/
def HoldsStack (t : FileTree) (p : Path) (d : Document) : Prop :=
  ∃ ds, Document.load t p = .ok ds ∧ Document.ofKind .stack ds = [d]

/-! ## The list -/

variable {o : Options} {t : FileTree} {place : Place}

theorem readablePaths_eq_filter (o : Options) (t : FileTree) : readablePaths o t
    = (scanPaths o t).filter fun p => (Document.load t p).toOption.isSome := by
  rw [scanPaths, List.filter_filter, readablePaths]
  exact List.filter_congr fun p _ => Bool.and_comm _ _

/-- The files that a run reads are those that can be read. -/
theorem readablePaths_eq (o : Options) (t : FileTree) :
    readablePaths o t = (listing o t).files.map (·.path) := by
  have hpath : ∀ p, (fileContent? t p).map (·.path)
      = Option.guard (fun p => (Document.load t p).toOption.isSome) p := by
    intro p
    unfold fileContent?
    cases hload : Document.load t p <;> simp [hload, Option.guard, Except.toOption]
  rw [listing, List.map_filterMap, List.filterMap_congr fun p _ => hpath p,
    List.filterMap_eq_filter, readablePaths_eq_filter]

theorem nodup_listedPaths (hwf : t.WellFormed) (hsim : t.locate o.sim = .ok place) :
    ((listedPaths o t).map Path.parts).Nodup := by
  have hread : ((readablePaths o t).map Path.parts).Nodup :=
    (FileTree.nodup_walk hwf o.sim).sublist (List.filter_sublist.map _)
  unfold listedPaths
  split
  · next hindex =>
      -- the file of the table is excluded from what is read
      have hnew := contains_listing hwf hsim hindex
      rw [← Bool.not_eq_true, Listing.contains_iff] at hnew
      rw [List.map_append, readablePaths_eq, List.map_map]
      rw [readablePaths_eq, List.map_map] at hread
      refine List.nodup_append.mpr ⟨hread, List.nodup_singleton _, ?_⟩
      intro x hx y hy hxy
      rw [List.map_singleton, List.mem_singleton] at hy
      exact hnew (hy ▸ hxy ▸ hx)
  · rwa [List.append_nil]

/-- Names lead to all files that are to be listed. -/
theorem exists_places (hwf : t.WellFormed) (hsim : t.locate o.sim = .ok place) :
    ∃ places : List Place, listedPaths o t = places.map o.sim.descend
      ∧ (∀ names ∈ places, ∀ name ∈ names, Path.isName name = true)
      ∧ (o.index = true → places.getLast? = some indexNames) := by
  have hread : ∃ places : List Place, readablePaths o t = places.map o.sim.descend
      ∧ ∀ names ∈ places, ∀ name ∈ names, Path.isName name = true := by
    rw [readablePaths, FileTree.walk_of_locate hsim, List.filter_map]
    exact ⟨_, rfl, fun names h => (hwf.named (List.mem_of_mem_filter h)).2⟩
  obtain ⟨places, hplaces, hnames⟩ := hread
  unfold listedPaths
  split
  · refine ⟨places ++ [indexNames], ?_, ?_, fun _ => List.getLast?_concat⟩
    · rw [hplaces, indexFile_eq, List.map_append, List.map_singleton]
    · intro names h
      rcases List.mem_append.mp h with h | h
      · exact hnames names h
      · rw [List.mem_singleton.mp h]
        exact isName_indexNames
  · next hindex =>
      exact ⟨places, by rw [hplaces, List.append_nil], hnames, fun h => absurd h hindex⟩

/-- Names that lead to files are what is listed for them. -/
theorem leads_descend {sim : Path} (hsim : sim.text ≠ "") {places : List Place}
    (hnames : ∀ names ∈ places, ∀ name ∈ names, Path.isName name = true) :
    List.Forall₂ (Leads sim) (places.map "/".intercalate) (places.map sim.descend) := by
  rw [List.forall₂_map_left_iff, List.forall₂_map_right_iff, List.forall₂_same]
  intro names h
  exact ⟨⟨names, hnames names h, Path.parts_descend hsim (hnames names h), rfl⟩,
    Path.parts_join_intercalate hsim (hnames names h)⟩

/-- The list of a Stack is that of the files that names lead to. -/
theorem summarised_summarise (hwf : t.WellFormed) (hsim : t.locate o.sim = .ok place)
    {places : List Place} (hplaces : listedPaths o t = places.map o.sim.descend)
    (hnames : ∀ names ∈ places, ∀ name ∈ names, Path.isName name = true)
    (hlast : o.index = true → places.getLast? = some indexNames) {d : Document}
    (hd : d.kind = .stack) :
    Summarised o t d (StackSummary.summarise (places.map "/".intercalate) d) := by
  have hleads := leads_descend (FileTree.text_ne_of_locate hsim) hnames
  rw [← hplaces] at hleads
  have hnodup := nodup_of_leads hleads (nodup_listedPaths hwf hsim)
  obtain ⟨stack, hstack⟩ := Document.stack?_of_kind hd
  refine ⟨⟨_, StackSummary.get?_files_summarise _ d, hleads, hnodup, fun hindex => ?_⟩,
    ⟨stack, hstack, ?_⟩, StackSummary.erase_summarise _ d, rfl⟩
  · rw [List.getLast?_map, hlast hindex]
    rfl
  · have hbus : (fun i : ModelInstance => !i.isBus)
        = (fun name => decide (name ≠ "simbus")) ∘ (·.name) := by
      funext i
      rw [Function.comp_apply, ModelInstance.isBus, ModelInstance.busName,
        Bool.beq_eq_decide_eq, decide_not]
    rw [StackSummary.get?_instances_summarise, hstack, Option.map_some, Option.getD_some,
      StackSummary.instanceNames, List.filter_map, hbus]

/-! ## The Stack in its file -/

/-- The only Stack of all files is the only one in its own. -/
theorem exists_file_of_stack {c : Catalog} {l : Listing} (r : c.Refines l) {d : Document}
    (hd : c.stackDocument = .ok d) :
    ∃ f ∈ l.files, d.file = some f.path ∧ Document.ofKind .stack f.documents = [d] := by
  obtain ⟨f, hf, hmem⟩ := r.exists_file (StackSummary.get?_of_stackDocument hd)
  refine ⟨f, hf, r.filed f hf d hmem, ?_⟩
  have hall : Document.ofKind .stack l.all = [d] :=
    (r.documents .stack).symm.trans (Catalog.stackDocument_eq_ok.mp hd)
  have hkind : d ∈ Document.ofKind .stack f.documents :=
    List.mem_filter.mpr ⟨hmem, decide_eq_true (r.kind (StackSummary.get?_of_stackDocument hd))⟩
  -- the Stacks of one file are among those of all files
  have hsub : (Document.ofKind .stack f.documents).Sublist [d] := by
    rw [← hall]
    exact (List.sublist_flatten_of_mem (List.mem_map_of_mem hf)).filter _
  rcases List.sublist_singleton.mp hsub with hnil | hsingle
  · rw [hnil] at hkind
    cases hkind
  · exact hsingle

namespace Preparation

variable (w : Preparation o t) (hwf : t.WellFormed) (hsim : t.locate o.sim = .ok place)
  (hyaml : w.progress.GivesBack)

include hwf hsim hyaml

theorem files_referred : w.referred.catalog.files = listedPaths o t := by
  have hrecords := (w.evolves_referred hwf hsim hyaml).records
  have hadded : (addedFiles o w.policy).map (·.path) = if o.index then [o.indexFile] else [] := by
    cases hindex : o.index with
    | true =>
        obtain ⟨table, _, hpolicy, -, -⟩ := w.written hwf hsim hindex
        rw [hpolicy]
        rfl
    | false =>
        rw [(w.not_written hindex).2.1]
        rfl
  rw [Catalog.files, hrecords, ← Catalog.files, (w.refines_opened hwf hsim hyaml).files,
    List.map_append, hadded, listedPaths, readablePaths_eq]

variable {t' : FileTree}
  (hsave : w.catalog.writeFiles w.tree w.catalog.flagged.values = (t', none))

include hsave

/-- The file of the Stack holds it as it is in the catalog. -/
theorem holdsStack_saved {d : Document} (hd : (scanned o t).catalog.stackDocument = .ok d)
    {d' : Document} (hd' : w.catalog.stackDocument = .ok d') (hfile : d'.file = d.file) :
    ∃ p, HoldsStack t p d ∧ HoldsStack t' p d' := by
  obtain ⟨f, hf, hpath, honly⟩ := exists_file_of_stack (refines_read hwf) hd
  obtain ⟨hp, hload⟩ := mem_files_listing hf
  obtain ⟨l, r, -, -⟩ := w.refines_catalog hwf hsim hyaml
  obtain ⟨f', hf', hpath', honly'⟩ := exists_file_of_stack r hd'
  have hdocs : w.catalog.documentsOf f.path = f'.documents := by
    rw [hfile, hpath, Option.some.injEq] at hpath'
    rw [hpath', r.documentsOf_file hf']
  -- after saving the file holds the documents that the catalog has for it
  have hread : fileContent? t f.path = some f := by
    rw [fileContent?, hload]
    rfl
  have hcontent := w.fileContent?_saved hwf hsim hyaml hsave hp
  rw [hread, Option.map_some, hdocs] at hcontent
  have hsaved := (fileContent?_eq_some hcontent).1
  exact ⟨f.path, ⟨f.documents, hload, honly⟩, ⟨f'.documents, hsaved, honly'⟩⟩

end Preparation

/-- After a run that succeeds the Stack, read from its file, lists the files that were
read in the order of a walk and behind them that of the offset table, if there is one,
each once and as the names that lead to it from the simulation and back to it; it has the
names of its instances, the bus left out; and all else is as it was. -/
theorem annotate_lists {summary : Summary} {s : State} (hwf : t.WellFormed)
    (hyaml : ∀ p ∈ (on t (prepare o)).1.toOption, p.GivesBack)
    (hrun : on t (annotate o) = (.ok summary, s)) :
    ∃ d d' p, (scanned o t).catalog.stackDocument = .ok d
      ∧ HoldsStack t p d ∧ HoldsStack s.tree p d' ∧ Summarised o t d d' := by
  obtain ⟨w, hprogress, -, hsave⟩ := exists_preparation hrun
  obtain ⟨place, hsim⟩ := w.exists_place
  have hyaml := hyaml w.progress hprogress
  obtain ⟨places, hplaces, hnames, hlast⟩ := exists_places hwf hsim
  have hroot := FileTree.text_ne_of_locate hsim
  obtain ⟨d, hd, hd'⟩ := w.exists_summary hwf hsim hyaml
  have hfiles := (w.files_referred hwf hsim hyaml).trans hplaces
  rw [StackSummary.filesBelow_descend hroot hnames hfiles] at hd'
  obtain ⟨p, hbefore, hafter⟩ := w.holdsStack_saved hwf hsim hyaml hsave hd hd' rfl
  have hkind := (Preparation.refines_read hwf).kind (StackSummary.get?_of_stackDocument hd)
  exact ⟨d, _, p, hd, hbefore, hafter,
    summarised_summarise hwf hsim hplaces hnames hlast hkind⟩

/-- The sample lists its three files, one in a directory, and the offset table. -/
theorem annotate_lists_sample : ∃ summary s p d',
    on Sample.tree (annotate Sample.options) = (.ok summary, s) ∧ HoldsStack s.tree p d'
      ∧ d'.metadata.annotations.get? filesKey = some (.sequence
        [.string "a.yml", .string "b.yml", .string "sub/c.yml",
          .string "data/direct_index.yaml"])
      ∧ d'.metadata.annotations.get? instancesKey = some (.string "i") := by
  obtain ⟨summary, s, hrun, hyaml, -⟩ := Sample.runs
  obtain ⟨d, d', p, hd, -, hafter, hsummarised⟩ :=
    annotate_lists Sample.wellFormed hyaml hrun
  have hstack : d = { Sample.stack with file := some ⟨"/a.yml"⟩ } := by
    rw [Sample.catalog_scanned, Catalog.stackDocument_eq_ok] at hd
    exact List.singleton_injective (hd.symm.trans (by decide +kernel))
  subst hstack
  have hread : readablePaths Sample.options Sample.tree = Sample.files.map (·.path) := by
    rw [readablePaths_eq_filter, Sample.scanPaths_tree, List.filter_eq_self]
    intro p hp
    obtain ⟨f, hf, rfl⟩ := List.mem_map.mp hp
    rw [Sample.loads f hf]
    rfl
  have hpaths : listedPaths Sample.options Sample.tree
      = [⟨"/a.yml"⟩, ⟨"/b.yml"⟩, ⟨"/sub/c.yml"⟩, ⟨"/data/direct_index.yaml"⟩] := by
    rw [listedPaths, hread]
    rfl
  obtain ⟨entries, hget, hleads, -⟩ := hsummarised.files
  have hentries : entries = ["a.yml", "b.yml", "sub/c.yml", "data/direct_index.yaml"] := by
    refine List.left_unique_forall₂' (fun _ _ _ h h' => h.unique h') hleads ?_
    rw [hpaths]
    refine .cons ⟨⟨["a.yml"], ?_⟩, ?_⟩ (.cons ⟨⟨["b.yml"], ?_⟩, ?_⟩
      (.cons ⟨⟨["sub", "c.yml"], ?_⟩, ?_⟩ (.cons ⟨⟨indexNames, ?_⟩, ?_⟩ .nil))) <;> decide
  obtain ⟨stack, hstack, hinstances⟩ := hsummarised.instances
  cases hstack
  rw [hentries] at hget
  exact ⟨summary, s, p, d', hrun, hafter, hget, hinstances⟩

end SimAnnotate.Run
