import SimAnnotate.Proofs.Run.Rescan

/-!
# Running again

A second run finds the documents that the first one has left. The same groups are
wired in the same way, so the same table comes in (`opens_again`), every group and
the Stack keep what they have (`exists_again`), and the texts that are saved are in
their files already (`saves_again`). So the second run comes to the same and changes
nothing, as long as the rules do not look at what is set and do not come from a file
that is written (`annotate_unchanged`). The built-in rules are such rules
(`annotate_builtIn_unchanged`).
-/

namespace SimAnnotate

/-- The rules depend on the content of their file only. -/
theorem RuleSet.select_congr {t t' : FileTree} {rules : Option Path}
    (h : ∀ file ∈ rules, t'.read file = t.read file) (name : Option String) :
    select t' rules name = select t rules name := by
  cases rules with
  | none => cases name <;> rfl
  | some file =>
      have hload : load t' file = load t file := by
        unfold load Table.load
        rw [h file rfl]
      rw [select, select, hload]

/-- Rules that come from no table are built in, and these are stable. -/
theorem RuleSet.stable_of_builtIn {t : FileTree} {name : Option String} {rules : RuleSet}
    (h : select t none name = .ok (some rules)) : rules.Stable := by
  cases name with
  | none => cases h
  | some name =>
      rw [select] at h
      split at h
      · cases h
      · obtain ⟨rules', hbuiltIn, hrules⟩ := Except.map_eq_ok.mp h
        cases hrules
        unfold builtIn at hbuiltIn
        split at hbuiltIn
        · cases hbuiltIn
          exact stable_signalDirection
        · cases hbuiltIn

theorem RuleSet.exists_read_of_select {t : FileTree} {file : Path} {name : Option String}
    {rules? : Option RuleSet} (h : select t (some file) name = .ok rules?) :
    ∃ content, t.read file = .ok content := by
  rw [select, Except.map_eq_ok] at h
  obtain ⟨rules, hload, -⟩ := h
  rw [load, Table.load] at hload
  cases hread : t.read file with
  | ok content => exact ⟨content, rfl⟩
  | error e =>
      rw [hread] at hload
      cases hload

namespace Run

namespace Preparation

variable {o : Options} {t t' : FileTree} {place : Place} (w : Preparation o t)
  (hwf : t.WellFormed) (hsim : t.locate o.sim = .ok place) (hyaml : w.progress.GivesBack)
  (hsave : w.catalog.writeFiles w.tree w.catalog.flagged.values = (t', none))

/-! ## What the second run finds -/

include hwf hsim

theorem not_contains_saved (hindex : o.index = true) :
    w.saved.contains o.indexFile = false := by
  have h := contains_listing hwf hsim hindex
  rw [Listing.contains] at h ⊢
  rwa [saved, List.any_map]

include hsave

/-- Rules from a file that is not written are there again. -/
theorem selects_again
    (hrules : ∀ file ∈ o.rules, ∀ p ∈ writtenFiles o w.progress,
      t'.locate p ≠ t'.locate file) :
    RuleSet.select t' o.rules o.ruleSet = .ok w.rules? := by
  have hext := (Catalog.writeFiles_frame hsave).1.1
  refine (RuleSet.select_congr (fun file hfile => ?_) o.ruleSet).trans w.selects
  have hselects := w.selects
  rw [hfile] at hselects
  obtain ⟨content, hcontent⟩ := RuleSet.exists_read_of_select hselects
  obtain ⟨q, hq, hentry⟩ := FileTree.read_eq_ok.mp hcontent
  have hq' := (w.extends_saved hwf hsim hsave).locate hq
  -- the rules are neither in the offset table nor in a flagged file
  have hindex : o.index = true → q ≠ place ++ indexNames := by
    rintro hindex rfl
    obtain ⟨_, _, -, -, hwrites⟩ := w.written hwf hsim hindex
    have hlocated := hext.locate (FileTree.locateFile_eq_ok.mp hwrites.located).1
    refine hrules file hfile o.indexFile ?_ (hlocated.trans hq'.symm)
    rw [writtenFiles, if_pos hindex]
    exact List.mem_append_left _ (List.mem_singleton_self _)
  have hflagged : ∀ p ∈ w.catalog.flagged.values, w.tree.locate p ≠ .ok q := fun p hp hlocate =>
    hrules file hfile p (List.mem_append_right _ hp) ((hext.locate hlocate).trans hq'.symm)
  rw [hcontent]
  refine FileTree.read_eq_ok.mpr ⟨q, hq', ?_⟩
  rw [(Catalog.writeFiles_frame hsave).2 q hflagged]
  exact (w.file_tree hwf hsim hindex content).mpr hentry

include hyaml

theorem selected_saved : (scanned o t').catalog.selected o.signalGroups
    = (scanned o t).catalog.selected o.signalGroups :=
  Catalog.selected_congr (Document.map_core_of_outline
    (Catalog.map_documents_congr (w.outline_saved hwf hsim hyaml hsave) .signalGroup))
    o.signalGroups

theorem compile_saved {handles : List Handle} :
    OffsetTable.compile (scanned o t').catalog (handles.filterMap (scanned o t').catalog.get?)
      = OffsetTable.compile (scanned o t).catalog
          (handles.filterMap (scanned o t).catalog.get?) := by
  have houtlines := w.outline_saved hwf hsim hyaml hsave
  have hdocs := fun k => Document.map_core_of_outline (Catalog.map_documents_congr houtlines k)
  refine OffsetTable.compile_congr (fun d d' hd =>
    Wiring.channel?_congr_core (hdocs .stack) (hdocs .model) hd) ?_
  refine Document.map_core_of_outline ?_
  rw [List.map_filterMap, List.map_filterMap]
  simp only [houtlines]

/-- The same table comes in again, which leaves the tree as it is. -/
theorem opens_again : ∃ c u, t'.Same u ∧ Opened o (scanned o t').catalog
    ((scanned o t').catalog.selected o.signalGroups) t' c w.policy u := by
  cases hindex : o.index with
  | false =>
      refine ⟨(scanned o t').catalog, t', .refl t', ?_⟩
      rw [Opened, if_neg (by rw [hindex]; exact Bool.false_ne_true)]
      exact ⟨rfl, (w.not_written hindex).2.1, rfl⟩
  | true =>
      obtain ⟨table, text, hpolicy, htext, hwrites⟩ := w.written hwf hsim hindex
      have hentry := (w.entry?_indexFile hwf hsim hyaml hsave hindex).trans hwrites.entry
      -- the file is removed and written with the text that it had
      obtain ⟨u, hsame, hwritten⟩ :=
        hwrites.again (Catalog.writeFiles_frame hsave).1.1 hentry htext
      have hload := w.load_indexFile_saved hwf hsim hyaml hsave (by rw [hpolicy]; rfl) hsame
      refine ⟨(scanned o t').catalog.insertNew o.indexFile
        (Listing.filed o.indexFile table.documents), u, hsame, ?_⟩
      rw [Opened, if_pos hindex]
      refine ⟨table, hpolicy, ?_, hwritten, ?_⟩
      · rw [w.selected_saved hwf hsim hyaml hsave, w.compile_saved hwf hsim hyaml hsave]
        exact (w.tabled hpolicy).compiled
      · rw [Catalog.add, (w.refines_saved hwf hsim hyaml hsave).contains,
          w.not_contains_saved hwf hsim hindex, if_neg Bool.false_ne_true, hload]
        rfl

/-! ## What the second run does -/

/-- With the table, the second run has the files that the first one ended with. -/
theorem follows_again {c : Catalog} {u : FileTree} (hsame : t'.Same u)
    (hopened : Opened o (scanned o t').catalog
      ((scanned o t').catalog.selected o.signalGroups) t' c w.policy u) :
    Follows w.catalog (.start o w.opened w.policy) (.start o c w.policy) := by
  have r := Run.refines_opened (w.refines_saved hwf hsim hyaml hsave) hopened
    (w.not_contains_saved hwf hsim)
    (fun _ htable => w.load_indexFile_saved hwf hsim hyaml hsave htable hsame)
  obtain ⟨l, r', -, hfiles⟩ := w.refines_catalog hwf hsim hyaml
  have hflagged := (w.refines_opened hwf hsim hyaml).flagged
  exact {
    documents := r'.get?_congr r hfiles.symm
    records := (r'.records_congr r hfiles.symm).trans (w.evolves hwf hsim hyaml).records
    flagged := OrderedMap.ext_entries (r.flagged.trans hflagged.symm)
    policy := rfl
    summary := rfl }

/-- There is a second course, which ends with the same documents and the same flagged
files. -/
theorem exists_again (hstable : ∀ rules ∈ w.rules?, rules.Stable)
    (hrules : ∀ file ∈ o.rules, ∀ p ∈ writtenFiles o w.progress,
      t'.locate p ≠ t'.locate file) :
    ∃ w' : Preparation o t', t'.Same w'.tree
      ∧ w'.referred.summary = w.referred.summary
      ∧ (∀ h, w'.catalog.get? h = w.catalog.get? h)
      ∧ w'.catalog.records = w.catalog.records
      ∧ w'.catalog.flagged = w.catalog.flagged := by
  have hselected := w.selected_saved hwf hsim hyaml hsave
  have hdocs := Catalog.map_documents_congr (w.outline_saved hwf hsim hyaml hsave)
  obtain ⟨c, u, hsame, hopened⟩ := w.opens_again hwf hsim hyaml hsave
  -- the groups are as the first course left them, for the Stack is no group
  obtain ⟨q, hrefers, f⟩ := Follows.groupSteps w.refers hstable
    (w.follows_again hwf hsim hyaml hsave hsame hopened) (w.ready hwf hsim hyaml)
    (Catalog.nodup_selected _ _) (StackSummary.evolves_annotate w.summarises)
    (fun _ => Catalog.ne_stack_of_mem_selected)
  obtain ⟨e, hsummarises, hget, hrecords, hflagged⟩ :=
    StackSummary.annotate_again w.summarises f.documents f.records f.flagged
  have hstack := Catalog.exists_stackHandle_iff.mpr (Catalog.exists_stackDocument_congr
    (hdocs .stack) (Catalog.exists_stackHandle_iff.mp w.stack))
  rw [← hselected] at hrefers
  exact ⟨⟨w.rules?, c, w.policy, u, q, e, hstack,
    w.selects_again hwf hsim hsave hrules, hopened, hrefers, hsummarises⟩,
    hsame, f.summary, hget, hrecords, hflagged⟩

/-- A catalog with the same documents and the same flagged files is saved without a
change. -/
theorem saves_again {c : Catalog} (hget : ∀ h, c.get? h = w.catalog.get? h)
    (hrecords : c.records = w.catalog.records) (hflagged : c.flagged = w.catalog.flagged)
    {u : FileTree} (hsame : t'.Same u) :
    ∃ u', c.writeFiles u c.flagged.values = (u', none) ∧ u.Same u' := by
  have hdocs : ∀ p, c.documentsOf p = w.catalog.documentsOf p := fun p => by
    have hget' : c.get? = w.catalog.get? := funext hget
    rw [Catalog.documentsOf, Catalog.documentsOf, hrecords, hget']
  rw [hflagged]
  refine Catalog.writeFiles_again fun p hp => ?_
  obtain ⟨q, text, hq, htext, hentry⟩ :=
    Catalog.writeFiles_written hsave (w.apart_flagged hwf hsim hyaml) p hp
  have hentry' := (hsame.entries q).trans hentry
  exact ⟨q, text, hsame.toExtends.locateFile_of_file hq hentry',
    (congrArg Document.printAll (hdocs p)).trans htext, hentry'⟩

/-- The second run. -/
theorem runs_again (hstable : ∀ rules ∈ w.rules?, rules.Stable)
    (hrules : ∀ file ∈ o.rules, ∀ p ∈ writtenFiles o w.progress,
      t'.locate p ≠ t'.locate file) :
    ∃ s', on t' (annotate o) = (.ok w.referred.summary, s')
      ∧ ∀ place, s'.tree.entry? place = t'.entry? place := by
  obtain ⟨w', hsame, hsummary, hget, hrecords, hflagged⟩ :=
    w.exists_again hwf hsim hyaml hsave hstable hrules
  obtain ⟨u, hwritten, hsame'⟩ :=
    w.saves_again hwf hsim hyaml hsave hget hrecords hflagged hsame
  obtain ⟨ws, hagain⟩ := (means_annotate o ⟨t', []⟩ w.referred.summary u).mpr
    ⟨w', hsummary, hwritten⟩
  exact ⟨_, hagain, (hsame.trans hsame').entries⟩

end Preparation

/-! ## Running twice -/

/-- Running again with stable rules, from no file that was written, comes to the same
and leaves every file as it is. -/
theorem annotate_unchanged {o : Options} {t : FileTree} {summary : Summary} {s : State}
    (hwf : t.WellFormed)
    (hstable : ∀ rules, RuleSet.select t o.rules o.ruleSet = .ok (some rules) → rules.Stable)
    (hrules : ∀ p ∈ (on t (prepare o)).1.toOption, ∀ file ∈ o.rules, ∀ q ∈ writtenFiles o p,
      s.tree.locate q ≠ s.tree.locate file)
    (hyaml : ∀ p ∈ (on t (prepare o)).1.toOption, p.GivesBack)
    (hrun : on t (annotate o) = (.ok summary, s)) :
    ∃ s', on s.tree (annotate o) = (.ok summary, s')
      ∧ ∀ place, s'.tree.entry? place = s.tree.entry? place := by
  obtain ⟨w, hprogress, rfl, hsave⟩ := exists_preparation hrun
  obtain ⟨place, hsim⟩ := w.exists_place
  have hyaml := hyaml w.progress hprogress
  have hstable : ∀ rules ∈ w.rules?, rules.Stable := fun rules h =>
    hstable rules (w.selects.trans (congrArg Except.ok h))
  exact w.runs_again hwf hsim hyaml hsave hstable (hrules w.progress hprogress)

/-- The sample is run twice. -/
theorem annotate_unchanged_sample : ∃ summary s s',
    on Sample.tree (annotate Sample.options) = (.ok summary, s)
      ∧ on s.tree (annotate Sample.options) = (.ok summary, s')
      ∧ ∀ place, s'.tree.entry? place = s.tree.entry? place := by
  obtain ⟨summary, s, hrun, hyaml, hapart⟩ := Sample.runs
  have hstable : ∀ rules, RuleSet.select Sample.tree Sample.options.rules
      Sample.options.ruleSet = .ok (some rules) → rules.Stable := fun rules h => by
    rw [Sample.selects] at h
    cases h
    decide
  obtain ⟨s', hagain, hentries⟩ :=
    annotate_unchanged Sample.wellFormed hstable hapart hyaml hrun
  exact ⟨summary, s, s', hrun, hagain, hentries⟩

/-- Running again without a rule file asks nothing of the rules: they are built in, or there
are none. -/
theorem annotate_builtIn_unchanged {o : Options} {t : FileTree} {summary : Summary}
    {s : State} (hwf : t.WellFormed) (hnone : o.rules = none)
    (hyaml : ∀ p ∈ (on t (prepare o)).1.toOption, p.GivesBack)
    (hrun : on t (annotate o) = (.ok summary, s)) :
    ∃ s', on s.tree (annotate o) = (.ok summary, s')
      ∧ ∀ place, s'.tree.entry? place = s.tree.entry? place := by
  obtain ⟨w, hprogress, rfl, hsave⟩ := exists_preparation hrun
  obtain ⟨place, hsim⟩ := w.exists_place
  have hselects := w.selects
  rw [hnone] at hselects
  have hstable : ∀ rules ∈ w.rules?, rules.Stable := fun rules h =>
    RuleSet.stable_of_builtIn (hselects.trans (congrArg Except.ok h))
  refine w.runs_again hwf hsim (hyaml w.progress hprogress) hsave hstable fun file hfile => ?_
  rw [hnone] at hfile
  cases hfile

end Run

end SimAnnotate
