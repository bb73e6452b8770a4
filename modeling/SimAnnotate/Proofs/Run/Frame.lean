import SimAnnotate.Proofs.Run.Failing
import SimAnnotate.Proofs.Run.Rescan

/-!
# What a run leaves alone

Whether a run succeeds or stops somewhere, the tree then is the one before, with
the file of the offset table in part or in whole (`Aside`), and with some of the
flagged files written over it. These are the files of the Stack and of the groups
that are annotated, and each of them holds the documents that it held, changed in
annotations of these documents only (`annotate_frame`).
-/

namespace SimAnnotate

namespace Run

open References (isBinary)

/-! ## What may change -/

section

variable (o : Options) (t : FileTree)

/-- A file of the simulation at the place `q` that holds the document. -/
def Holds (q : Place) (d : Document) : Prop :=
  ∃ p ∈ scanPaths o t, ∃ ds, Document.load t p = .ok ds ∧ d ∈ ds ∧ t.locate p = .ok q

/-- The only Stack. -/
def IsStack (d : Document) : Prop := (scanned o t).catalog.stackDocument = .ok d

/-- A selected group that is not binary, where there are rules. -/
def IsAnnotated (d : Document) : Prop :=
  (∃ rules, RuleSet.select t o.rules o.ruleSet = .ok (some rules))
    ∧ (∃ h ∈ selected o t, (scanned o t).catalog.get? h = some d) ∧ isBinary d = false

/-- The places of the files that a run may write. -/
inductive Touches : Place → Prop
  | index {place : Place} : o.index = true → t.locate o.sim = .ok place →
      Touches (place ++ indexNames)
  | stack {q : Place} {d : Document} : IsStack o t d → Holds o t q d → Touches q
  | group {q : Place} {d : Document} : IsAnnotated o t d → Holds o t q d → Touches q

/-- The directory of the offset table, which may be made. -/
def MakesDirectory (t' : FileTree) (q : Place) : Prop :=
  o.index = true ∧ (∃ place, t.locate o.sim = .ok place ∧ q = place ++ ["data"])
    ∧ t.entry? q = none ∧ t'.entry? q = some .directory

/-- What may become of a document: the Stack gets its two annotations, the signals of
a group that is annotated get others. -/
inductive Revised : Document → Document → Prop
  | same (d : Document) : Revised d d
  | stack {d : Document} (instances files : Yaml.Value) : IsStack o t d →
      Revised d (d.withAnnotations ((d.metadata.annotations.insert
        StackSummary.instancesKey instances).insert StackSummary.filesKey files))
  | group {d d' : Document} : IsAnnotated o t d → d'.outline = d.outline →
      d'.metadata = d.metadata → Revised d d'

end

/-! ## While the offset table comes in -/

variable {o : Options} {t t' : FileTree} {place : Place}

/-- Nothing has changed but the file of the offset table and its directory. -/
structure Aside (o : Options) (t t' : FileTree) : Prop where
  extend : t.Extends t'
  entries : ∀ q, t'.entry? q = t.entry? q
    ∨ (o.index = true ∧ ∃ place, t.locate o.sim = .ok place ∧ q = place ++ indexNames)
    ∨ MakesDirectory o t t' q

theorem Aside.refl (o : Options) (t : FileTree) : Aside o t t := ⟨.refl t, fun _ => .inl rfl⟩

/-- A simulation with a Stack is a file or a directory. -/
theorem entry?_ne_none_of_stack (hwf : t.WellFormed) (hstack : HasStack o t)
    (hsim : t.locate o.sim = .ok place) : t.entry? place ≠ none := by
  obtain ⟨d, hd⟩ := Catalog.exists_stackHandle_iff.mp hstack
  have r := refines_scanned (o := o) (nodup_scanPaths hwf)
  obtain ⟨f, hf, -⟩ := r.exists_file (StackSummary.get?_of_stackDocument hd)
  obtain ⟨names, hreads⟩ := reads_of_mem hwf hsim (mem_files_listing hf).1
  by_cases hnames : names = []
  · obtain ⟨content, hcontent⟩ := hreads.file
    rw [hnames, List.append_nil] at hcontent
    rw [hcontent]
    exact nofun
  · rw [hwf.entry?_of_append hnames hreads.key]
    exact nofun

section

variable (hwf : t.WellFormed) (hstack : HasStack o t) (hindex : o.index = true)

include hwf hstack hindex

omit hwf in
theorem aside_of_cleared {cleared : FileTree} (h : Cleared o.indexFile t cleared) :
    Aside o t cleared := by
  obtain ⟨place, hsim⟩ := exists_place_of_stack hstack
  refine ⟨extends_of_cleared h, fun q => ?_⟩
  by_cases hq : t.locate o.indexFile = .ok q
  · rw [indexFile_eq] at hq
    exact .inr (.inl ⟨hindex, place, hsim, FileTree.locate_descend hsim isName_indexNames hq⟩)
  · exact .inl (entry?_of_cleared h hq)

theorem aside_of_made {cleared made : FileTree} (h : Cleared o.indexFile t cleared)
    (hmade : cleared.makeDirectories o.dataDirectory = .ok made) : Aside o t made := by
  obtain ⟨place, hsim⟩ := exists_place_of_stack hstack
  have haside := aside_of_cleared hstack hindex h
  have hother : ∀ q, q ≠ place ++ indexNames → cleared.entry? q = t.entry? q := fun q hq =>
    entry?_of_cleared h fun hlocate => by
      rw [indexFile_eq] at hlocate
      exact hq (FileTree.locate_descend hsim isName_indexNames hlocate)
  -- the Stack is in a file below the simulation, which is therefore there
  have hplace : cleared.entry? place ≠ none := by
    rw [hother place fun heq => by simp [indexNames] at heq]
    exact entry?_ne_none_of_stack hwf hstack hsim
  rcases FileTree.makeDirectories_join (haside.extend.locate hsim) hplace (by decide) hmade with
    rfl | ⟨hnone, rfl⟩
  · exact haside
  · have hdirectory : place ++ ["data"] ≠ place ++ indexNames := by
      simp [indexNames]
    have hroot := FileTree.ne_root_of_entry?_eq_none hnone
    refine ⟨haside.extend.trans (FileTree.extends_put (by rw [hnone]; exact nofun) _),
      fun q => ?_⟩
    by_cases hq : q = place ++ ["data"]
    · subst hq
      rw [hother _ hdirectory] at hnone
      exact .inr (.inr ⟨hindex, ⟨place, hsim, rfl⟩, hnone,
        FileTree.entry?_put_self hroot cleared .directory⟩)
    · rw [MakesDirectory, FileTree.entry?_put_ne hq]
      exact haside.entries q

theorem aside_of_tabling {table : OffsetTable} (h : Tabling o table t t') : Aside o t t' := by
  obtain ⟨place, hsim⟩ := exists_place_of_stack hstack
  cases h with
  | start => exact .refl o t
  | cleared hcleared => exact aside_of_cleared hstack hindex hcleared
  | made hcleared hmade => exact aside_of_made hwf hstack hindex hcleared hmade
  | written hcleared hmade hemit =>
      have haside := aside_of_made hwf hstack hindex hcleared hmade
      -- what comes in is the file of the table, and nothing else
      obtain ⟨text, -, happend⟩ := emit_eq_ok.mp hemit
      obtain ⟨q, content, hq, rfl⟩ := FileTree.eq_put_of_append happend
      obtain ⟨hlocate, -, hdir, -⟩ := FileTree.locateFile_eq_ok.mp hq
      rw [indexFile_eq] at hlocate
      have hplace :=
        FileTree.locate_descend (haside.extend.locate hsim) isName_indexNames hlocate
      refine ⟨haside.extend.trans (FileTree.extends_put hdir _), fun r => ?_⟩
      by_cases hr : r = q
      · exact .inr (.inl ⟨hindex, place, hsim, hr.trans hplace⟩)
      · rw [MakesDirectory, FileTree.entry?_put_ne hr]
        exact haside.entries r

end

theorem aside_of_opened (hwf : t.WellFormed) (hstack : HasStack o t) {c : Catalog}
    {policy : ReferencePolicy}
    (h : Opened o (scanned o t).catalog (selected o t) t c policy t') : Aside o t t' := by
  unfold Opened at h
  split at h
  · next hindex =>
      obtain ⟨table, -, htabled⟩ := h
      obtain ⟨cleared, made, hcleared, hmade, hemit⟩ := htabled.written
      exact aside_of_tabling hwf hstack hindex (.written hcleared hmade hemit)
  · obtain ⟨-, -, rfl⟩ := h
    exact .refl o _

/-- The files that a run has read are as they were. -/
theorem Aside.entry?_read (h : Aside o t t') (hsim : t.locate o.sim = .ok place) {p : Path}
    {names : Place} (hreads : Reads o t place p names) :
    t'.entry? (place ++ names) = t.entry? (place ++ names) := by
  rcases h.entries (place ++ names) with hsame | ⟨hindex, place', hsim', heq⟩ | hmakes
  · exact hsame
  · rw [hsim] at hsim'
    cases hsim'
    exact absurd (List.append_cancel_left heq) (hreads.index hindex)
  · obtain ⟨content, hcontent⟩ := hreads.file
    rw [hmakes.2.2.1] at hcontent
    cases hcontent

/-! ## Framed trees -/

/-- Against `t` the tree `t'` has other files of a run at most, and in those that
were read the same documents, revised. -/
structure Framed (o : Options) (t t' : FileTree) : Prop where
  entries : ∀ q, t'.entry? q = t.entry? q ∨ Touches o t q ∨ MakesDirectory o t t' q
  documents : ∀ p ∈ scanPaths o t, ∀ ds, Document.load t p = .ok ds →
    ∃ ds', Document.load t' p = .ok ds' ∧ List.Forall₂ (Revised o t) ds ds'

theorem forall₂_revised (o : Options) (t : FileTree) (ds : List Document) :
    List.Forall₂ (Revised o t) ds ds :=
  List.forall₂_same.mpr fun d _ => .same d

theorem Framed.refl (o : Options) (t : FileTree) : Framed o t t :=
  ⟨fun _ => .inl rfl, fun _ _ ds hds => ⟨ds, hds, forall₂_revised o t ds⟩⟩

theorem Aside.framed (h : Aside o t t') (hwf : t.WellFormed)
    (hsim : t.locate o.sim = .ok place) : Framed o t t' := by
  refine ⟨fun q => ?_, fun p hp ds hds => ?_⟩
  · rcases h.entries q with hsame | ⟨hindex, place', hsim', rfl⟩ | hmakes
    · exact .inl hsame
    · exact .inr (.inl (.index hindex hsim'))
    · exact .inr (.inr hmakes)
  · obtain ⟨names, hreads⟩ := reads_of_mem hwf hsim hp
    have hload := hreads.load_congr hwf hsim h.extend (h.entry?_read hsim hreads)
    exact ⟨ds, hload.trans hds, forall₂_revised o t ds⟩

/-- Documents that are related handle by handle are so file by file. -/
theorem forall₂_documentsOf {R : Document → Document → Prop} {c c' : Catalog}
    (hrecords : c'.records = c.records) (h : ∀ h, Option.Rel R (c.get? h) (c'.get? h))
    (p : Path) : List.Forall₂ R (c.documentsOf p) (c'.documentsOf p) := by
  unfold Catalog.documentsOf
  rw [hrecords]
  cases c.records.get? p.parts with
  | none => exact .nil
  | some record =>
      refine List.rel_filterMap (R := Eq) ?_ (List.forall₂_refl record.handles)
      rintro h' _ rfl
      exact h h'

namespace Preparation

variable (w : Preparation o t) (hwf : t.WellFormed) (hsim : t.locate o.sim = .ok place)
  (hyaml : w.progress.GivesBack)

include hwf hsim hyaml

theorem evolves_referred_participants :
    Catalog.Evolves (participants w.rules? w.opened (selected o t)) w.opened w.referred.catalog
      ∧ KeepsMetadata w.opened w.referred.catalog :=
  participants_of_groupSteps w.refers (w.ready hwf hsim hyaml)

theorem evolves_catalog : Catalog.Evolves
    (participants w.rules? w.opened (selected o t) ++ [⟨.stack, 0⟩]) w.opened w.catalog :=
  (w.evolves_referred_participants hwf hsim hyaml).1.trans
    (StackSummary.evolves_annotate w.summarises)

theorem isAnnotated_of_participant {h : Handle}
    (hh : h ∈ participants w.rules? w.opened (selected o t)) {d : Document}
    (hd : w.opened.get? h = some d) :
    (scanned o t).catalog.get? h = some d ∧ IsAnnotated o t d := by
  obtain ⟨⟨rules, hrules⟩, hselected, hbinary⟩ := mem_participants hh
  obtain ⟨-, d', hd', -⟩ := Catalog.mem_selected.mp hselected
  have hopened := w.get?_opened hwf hsim hyaml hd'
  rw [hd] at hopened
  cases hopened
  exact ⟨hd', ⟨rules, hrules ▸ w.selects⟩, ⟨h, hselected, hd'⟩, hbinary d hd⟩

theorem isStack_of_opened {d : Document} (hd : w.opened.get? ⟨.stack, 0⟩ = some d) :
    (scanned o t).catalog.get? ⟨.stack, 0⟩ = some d ∧ IsStack o t d := by
  have hdocs := w.documents_opened_of_ne hwf hsim hyaml .stack nofun
  obtain ⟨d', hd'⟩ := Catalog.exists_stackHandle_iff.mp w.stack
  have hget := StackSummary.get?_of_stackDocument hd'
  have hopened : w.opened.get? ⟨.stack, 0⟩ = some d' := by
    rw [Catalog.get?, hdocs]
    exact hget
  rw [hd] at hopened
  cases hopened
  exact ⟨hget, hd'⟩

theorem revised_stack {d d' : Document} (hd : w.opened.get? ⟨.stack, 0⟩ = some d)
    (hd' : w.catalog.get? ⟨.stack, 0⟩ = some d') : Revised o t d d' := by
  obtain ⟨hread, hstack⟩ := w.isStack_of_opened hwf hsim hyaml hd
  obtain ⟨d₁, hd₁, hsummary⟩ := w.exists_summary hwf hsim hyaml
  rw [StackSummary.get?_of_stackDocument hd₁] at hread
  cases hread
  rw [StackSummary.get?_of_stackDocument hsummary] at hd'
  cases hd'
  exact .stack _ _ hstack

theorem revised_participant {h : Handle}
    (hh : h ∈ participants w.rules? w.opened (selected o t)) {d d' : Document}
    (hd : w.opened.get? h = some d) (hd' : w.catalog.get? h = some d') : Revised o t d d' := by
  obtain ⟨-, hkeeps⟩ := w.evolves_referred_participants hwf hsim hyaml
  have hkept := (StackSummary.evolves_annotate w.summarises).kept h
    (Catalog.ne_stack_of_mem_selected (mem_participants hh).2.1)
  have houtline := (w.evolves_catalog hwf hsim hyaml).outlines h
  have hmetadata := hkeeps h
  rw [← hkept] at hmetadata
  rw [hd, hd', Option.map_some, Option.map_some] at houtline hmetadata
  exact .group (w.isAnnotated_of_participant hwf hsim hyaml hh hd).2
    (Option.some.inj houtline) (Option.some.inj hmetadata)

/-- Every document is revised at most. -/
theorem rel_revised (h : Handle) :
    Option.Rel (Revised o t) (w.opened.get? h) (w.catalog.get? h) := by
  have he := w.evolves_catalog hwf hsim hyaml
  have houtline := he.outlines h
  cases hd : w.opened.get? h with
  | none =>
      rw [hd, Option.map_none, Option.map_eq_none_iff] at houtline
      rw [houtline]
      exact .none
  | some d =>
      rw [hd, Option.map_some, Option.map_eq_some_iff] at houtline
      obtain ⟨d', hd', -⟩ := houtline
      rw [hd']
      refine .some ?_
      -- a group that takes part, the Stack, or a document that is kept
      by_cases hh : h ∈ participants w.rules? w.opened (selected o t)
      · exact w.revised_participant hwf hsim hyaml hh hd hd'
      · by_cases hstack : h = ⟨.stack, 0⟩
        · subst hstack
          exact w.revised_stack hwf hsim hyaml hd hd'
        · have hkept := he.kept h fun hmem => (List.mem_append.mp hmem).elim hh
            fun hmem => hstack (List.mem_singleton.mp hmem)
          rw [hd, hd'] at hkept
          cases hkept
          exact .same d

omit hyaml in
theorem holds_of_get? {h : Handle} {d : Document}
    (hd : (scanned o t).catalog.get? h = some d) {p : Path} (hfile : d.file = some p)
    {q : Place} (hq : w.tree.locate p = .ok q) : Holds o t q d := by
  have r := refines_read (o := o) hwf
  obtain ⟨f, hf, hmem⟩ := r.exists_file hd
  have hpath := r.filed f hf d hmem
  rw [hfile] at hpath
  cases hpath
  obtain ⟨hp, hload⟩ := mem_files_listing hf
  obtain ⟨names, hreads⟩ := reads_of_mem hwf hsim hp
  refine ⟨f.path, hp, f.documents, hload, hmem, ?_⟩
  rw [hreads.path] at hq ⊢
  rwa [← (w.extends_tree hwf hsim).locate_descend hwf hsim hreads.key]

/-- What is flagged may be written. -/
theorem touches_of_flagged {p : Path} (hp : p ∈ w.catalog.flagged.values) {q : Place}
    (hq : w.tree.locate p = .ok q) : Touches o t q := by
  rcases (w.evolves_catalog hwf hsim hyaml).flagged p hp with hp | ⟨h, hh, d, hd, hfile⟩
  · rw [(w.refines_opened hwf hsim hyaml).flaggedValues] at hp
    cases hp
  · rcases List.mem_append.mp hh with hh | hh
    · obtain ⟨hget, hannotated⟩ := w.isAnnotated_of_participant hwf hsim hyaml hh hd
      exact .group hannotated (w.holds_of_get? hwf hsim hget hfile hq)
    · rw [List.mem_singleton.mp hh] at hd
      obtain ⟨hget, hstack⟩ := w.isStack_of_opened hwf hsim hyaml hd
      exact .stack hstack (w.holds_of_get? hwf hsim hget hfile hq)

/-! ### Files that are saved -/

section

variable {done : List Path} (hdone : done <+: w.catalog.flagged.values)
  (hwritten : w.catalog.writeFiles w.tree done = (t', none))

include hdone hwritten

theorem load_of_mem {p : Path} (hp : p ∈ scanPaths o t) {ds : List Document}
    (hds : Document.load t p = .ok ds) (hmem : p ∈ done) :
    ∃ ds', Document.load t' p = .ok ds' ∧ List.Forall₂ (Revised o t) ds ds' := by
  have hlisted : (⟨p, ds⟩ : FileContent) ∈ (listing o t).files ++ addedFiles o w.policy := by
    refine List.mem_append_left _ (List.mem_filterMap.mpr ⟨p, hp, ?_⟩)
    rw [fileContent?, hds]
    rfl
  have hread := (w.refines_opened hwf hsim hyaml).documentsOf_file hlisted
  have hrel := forall₂_documentsOf (w.evolves_catalog hwf hsim hyaml).records
    (w.rel_revised hwf hsim hyaml) p
  rw [hread] at hrel
  exact ⟨_, w.load_written hwf hsim hyaml hdone hwritten hmem, hrel⟩

theorem load_of_not_mem {p : Path} (hp : p ∈ scanPaths o t) (hmem : p ∉ done) :
    Document.load t' p = Document.load t p := by
  obtain ⟨names, hreads⟩ := reads_of_mem hwf hsim hp
  have hext := w.extends_tree hwf hsim
  obtain ⟨hsaved, hframe⟩ := Catalog.writeFiles_frame hwritten
  -- no file that is written is at the place of this one
  have hentry : t'.entry? (place ++ names) = w.tree.entry? (place ++ names) := by
    refine hframe _ fun p' hp' hlocate => hmem ?_
    obtain ⟨names', hreads'⟩ := w.reads_of_flagged hwf hsim hyaml (hdone.subset hp')
    have hplace := hreads'.place_eq hsim hext hlocate
    rw [hreads.path, List.append_cancel_left hplace, ← hreads'.path]
    exact hp'
  have haside := aside_of_opened hwf w.stack w.opens
  exact hreads.load_congr hwf hsim (hext.trans hsaved.1)
    (hentry.trans (haside.entry?_read hsim hreads))

/-- A run that has saved some of its files leaves the others. -/
theorem framed : Framed o t t' := by
  have hframe := (Catalog.writeFiles_frame hwritten).2
  have htree := (aside_of_opened hwf w.stack w.opens).framed hwf hsim
  refine ⟨fun q => ?_, fun p hp ds hds => ?_⟩
  · by_cases hq : ∃ p ∈ done, w.tree.locate p = .ok q
    · obtain ⟨p, hp, hlocate⟩ := hq
      exact .inr (.inl (w.touches_of_flagged hwf hsim hyaml (hdone.subset hp) hlocate))
    · rw [MakesDirectory, hframe q fun p hp hlocate => hq ⟨p, hp, hlocate⟩]
      exact htree.entries q
  · by_cases hmem : p ∈ done
    · exact w.load_of_mem hwf hsim hyaml hdone hwritten hp hds hmem
    · have hload := w.load_of_not_mem hwf hsim hyaml hdone hwritten hp hmem
      exact ⟨ds, hload.trans hds, forall₂_revised o t ds⟩

end

end Preparation

/-- Where a run fails, it leaves other files. -/
theorem Breaks.framed {e : Error} (h : Breaks o t e t') (hwf : t.WellFormed)
    (hyaml : ∀ p ∈ (on t (prepare o)).1.toOption, p.GivesBack) : Framed o t t' := by
  cases h with
  | stack hstack => exact .refl o t
  | rules hstack hrules => exact .refl o t
  | compile hstack hcompile => exact .refl o t
  | table hstack hindex htabling he =>
      obtain ⟨place, hsim⟩ := exists_place_of_stack hstack
      exact (aside_of_tabling hwf hstack hindex htabling).framed hwf hsim
  | groups hstack hopened hgroups =>
      obtain ⟨place, hsim⟩ := exists_place_of_stack hstack
      exact (aside_of_opened hwf hstack hopened).framed hwf hsim
  | summary hstack hopened hgroups hsummary =>
      obtain ⟨place, hsim⟩ := exists_place_of_stack hstack
      exact (aside_of_opened hwf hstack hopened).framed hwf hsim
  | save w hprepare hsave =>
      obtain ⟨place, hsim⟩ := w.exists_place
      -- what was saved before the failure is the start of what was to be saved
      obtain ⟨done, hdone, hwritten⟩ := Catalog.exists_written hsave
      exact w.framed hwf hsim (hyaml w.progress hprepare) hdone hwritten

/-- However a run ends, all that differs in the tree are the file of the offset table,
if one is wanted, with its directory, which may be made, the file of the only Stack,
and files of selected groups that are not binary, if there are rules; and every file
that was read has the same documents in the same order, where only the two annotations
of the Stack and the annotations of signals of such groups differ. -/
theorem annotate_frame (hwf : t.WellFormed)
    (hyaml : ∀ p ∈ (on t (prepare o)).1.toOption, p.GivesBack) :
    Framed o t (on t (annotate o)).2.tree := by
  obtain ⟨outcome, s, hrun⟩ : ∃ outcome s, on t (annotate o) = (outcome, s) := ⟨_, _, rfl⟩
  rw [hrun]
  cases outcome with
  | error e => exact (breaks_of_error hrun).framed hwf hyaml
  | ok summary =>
      obtain ⟨w, hprepare, -, hsave⟩ := exists_preparation hrun
      obtain ⟨place, hsim⟩ := w.exists_place
      exact w.framed hwf hsim (hyaml w.progress hprepare) List.prefix_rfl hsave

/-- After the run of the sample each file holds one document, what became of the one that
was there. -/
theorem annotate_frame_sample :
    Framed Sample.options Sample.tree (on Sample.tree (annotate Sample.options)).2.tree
      ∧ ∀ f ∈ Sample.files, ∃ d d', f.documents = [d]
        ∧ Document.load (on Sample.tree (annotate Sample.options)).2.tree f.path = .ok [d']
        ∧ Revised Sample.options Sample.tree d d' := by
  obtain ⟨-, -, -, hyaml, -⟩ := Sample.runs
  have hframed := annotate_frame Sample.wellFormed hyaml
  refine ⟨hframed, fun f hf => ?_⟩
  obtain ⟨d, hd⟩ : ∃ d, f.documents = [d] := by
    simp only [Sample.files, List.mem_cons, List.not_mem_nil, or_false] at hf
    rcases hf with rfl | rfl | rfl <;> exact ⟨_, rfl⟩
  have hscanned : f.path ∈ scanPaths Sample.options Sample.tree := by
    rw [Sample.scanPaths_tree]
    exact List.mem_map_of_mem hf
  obtain ⟨ds', hload', hrevised⟩ := hframed.documents f.path hscanned _ (Sample.loads f hf)
  rw [hd] at hrevised
  obtain ⟨d', rest, hd', hrest, rfl⟩ := List.forall₂_cons_left_iff.mp hrevised
  cases List.forall₂_nil_left_iff.mp hrest
  exact ⟨d, d', hd, hload', hd'⟩

end Run

end SimAnnotate
