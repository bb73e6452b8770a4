import SimAnnotate.Proofs.Run.Documents
import SimAnnotate.Proofs.Run.Failing

/-!
# Runs that fail before they write

A run checks the Stack and the rules before it changes a file. Whatever it looks
up later is settled by these checks: the file of the offset table, which comes in
between, brings signal groups and no Stack. So a run that complains about the
simulation or about the rules has changed nothing, and after the first change only
files can fail it (`annotate_atomic`).
-/

namespace SimAnnotate.Run

variable {o : Options} {t t' : FileTree} {place : Place}

/-- The text of the offset table that a run may write is read as its documents. -/
def IndexReadsBack (o : Options) (t : FileTree) : Prop :=
  ∀ table text, OffsetTable.compile (scanned o t).catalog
      ((selected o t).filterMap (scanned o t).catalog.get?) = .ok table →
    table.text = .ok text → Document.parse text = .ok table.documents

/-- It is, where the text gives back the values that it is written for. -/
theorem indexReadsBack_of_gives (h : ∀ table ∈ (OffsetTable.compile (scanned o t).catalog
      ((selected o t).filterMap (scanned o t).catalog.get?)).toOption,
    ∀ css ∈ table.documents.mapM Document.chars?, Yaml.Stream.Gives
      (String.ofList (css.flatMap (Document.separator.toList ++ ·)))
      (table.documents.filterMap Document.encode?)) : IndexReadsBack o t := by
  intro table text htable htext
  have hgives := OffsetTable.gives_text_iff.mpr (h table (Except.mem_toOption.mpr htable))
  exact OffsetTable.parse_text (hgives text (Except.mem_toOption.mpr htext))

/-! ## Errors that do not occur -/

/-- The check for one Stack says how many there are. -/
theorem stackCount_of_stackHandle {c : Catalog} {e : Error} (h : c.stackHandle = .error e) :
    ∃ n, e = .stackCount n := by
  unfold Catalog.stackHandle at h
  split at h
  · cases h
  · cases h
    exact ⟨_, rfl⟩

section

variable (hwf : t.WellFormed) (hyaml : IndexReadsBack o t) (hstack : HasStack o t)
  {c : Catalog} {policy : ReferencePolicy}
  (hopened : Opened o (scanned o t).catalog (selected o t) t c policy t')

include hwf hyaml hstack hopened

/-- The file of the table that has come in holds the table. -/
theorem load_of_opened : ∀ table ∈ policy.table?, Document.load t' o.indexFile
    = .ok (Listing.filed o.indexFile table.documents) := by
  obtain ⟨place, hsim⟩ := exists_place_of_stack hstack
  intro table htable
  unfold Opened at hopened
  split at hopened
  · obtain ⟨table', rfl, htabled⟩ := hopened
    cases htable
    obtain ⟨text, htext, hwrites⟩ := writesIndex_of_tabled hwf hsim htabled
    exact load_of_text (FileTree.locateFile_eq_ok.mp hwrites.located).1 hwrites.entry
      (hyaml table text htabled.compiled htext)
  · obtain ⟨-, rfl, -⟩ := hopened
    cases htable

theorem ready_of_opened : Ready c (selected o t) := by
  obtain ⟨place, hsim⟩ := exists_place_of_stack hstack
  exact hopened.ready hwf hsim (load_of_opened hwf hyaml hstack hopened) hstack

/-- Once there is something to annotate from, groups do not fail a run. -/
theorem groupSteps_ne_error (rules? : Option RuleSet) {e : Error} :
    groupSteps rules? (selected o t) (.start o c policy) ≠ .error e := by
  have hready := ready_of_opened hwf hyaml hstack hopened
  obtain ⟨p, hp⟩ := exists_groupSteps rules? (p := .start o c policy) hready
  rw [hp]
  exact nofun

/-- Neither does the summary. -/
theorem annotate_ne_error {rules? : Option RuleSet} {p : Progress}
    (hgroups : groupSteps rules? (selected o t) (.start o c policy) = .ok p) {e : Error} :
    StackSummary.annotate p.catalog o.sim ≠ .error e := by
  have hready := ready_of_opened hwf hyaml hstack hopened
  have he := evolves_of_groupSteps hgroups hready
  obtain ⟨d, hd⟩ := (hready.evolves he).stack
  rw [StackSummary.annotate_eq, hd]
  exact nofun

end

/-! ## Failing atomically -/

/-- A run that fails has changed nothing, or it fails for a file. -/
theorem Breaks.unchanged_or_isFileError (hwf : t.WellFormed) (hyaml : IndexReadsBack o t)
    {e : Error} (h : Breaks o t e t') :
    (t' = t ∧ ((∃ n, e = .stackCount n) ∨ ∃ e', e = .table e')) ∨ IsFileError e := by
  cases h with
  | stack hstack => exact .inl ⟨rfl, .inl (stackCount_of_stackHandle hstack)⟩
  | rules hstack hrules => exact .inl ⟨rfl, .inr ⟨_, rfl⟩⟩
  | compile hstack hcompile =>
      obtain ⟨table, htable⟩ := OffsetTable.exists_compile
        (Catalog.exists_stackHandle_iff.mp hstack) _
      rw [htable] at hcompile
      cases hcompile
  | table hstack hindex htabling he => exact .inr he
  | groups hstack hopened hgroups =>
      exact absurd hgroups (groupSteps_ne_error hwf hyaml hstack hopened _)
  | summary hstack hopened hgroups hsummary =>
      exact absurd hsummary (annotate_ne_error hwf hyaml hstack hopened hgroups)
  | save w hprepare hsave => exact .inr (.inr ⟨_, rfl⟩)

/-- A run that fails because the simulation has not one Stack, or because of its
rules, leaves the tree as it was, an earlier offset table included. No run fails
because something is not found or not supported. Where a run that fails has changed
the tree, it has failed to read or to write a file. -/
theorem annotate_atomic {e : Error} {s : State} (hwf : t.WellFormed)
    (hyaml : IndexReadsBack o t) (hrun : on t (annotate o) = (.error e, s)) :
    (((∃ n, e = .stackCount n) ∨ ∃ e', e = .table e') → s.tree = t)
      ∧ (∀ e', e ≠ .notFound e') ∧ (∀ e', e ≠ .unsupported e')
      ∧ (s.tree ≠ t → (∃ e', e = .load e') ∨ ∃ e', e = .write e') := by
  rcases (breaks_of_error hrun).unchanged_or_isFileError hwf hyaml with
    ⟨htree, ⟨n, rfl⟩ | ⟨e', rfl⟩⟩ | ⟨e', rfl⟩ | ⟨e', rfl⟩
  · exact ⟨fun _ => htree, nofun, nofun, fun hne => absurd htree hne⟩
  · exact ⟨fun _ => htree, nofun, nofun, fun hne => absurd htree hne⟩
  · exact ⟨by simp, nofun, nofun, fun _ => .inl ⟨e', rfl⟩⟩
  · exact ⟨by simp, nofun, nofun, fun _ => .inr ⟨e', rfl⟩⟩

namespace Sample

/-- The sample with an earlier offset table. -/
def earlier : FileTree :=
  (tree.put ["data"] .directory).put ["data", "direct_index.yaml"]
    (.file "kind: Earlier\n".toUTF8)

/-- A run with an offset table and with rules that are not there. -/
def ruleless : Options := { options with rules := some ⟨"/none.csv"⟩ }

/-- What is computed of it. -/
theorem computed_earlier : earlier.WellFormed
    ∧ (Catalog.empty.exclude ruleless.indexFile).scannable earlier ⟨"/"⟩
      = files.map (·.path)
    ∧ catalog.stackHandle = .ok ⟨.stack, 0⟩
    ∧ (RuleSet.select earlier ruleless.rules ruleless.ruleSet).mapError Error.table
      = .error (.table ⟨some ⟨"/none.csv"⟩, .file .missing⟩) := by
  decide +kernel

theorem catalog_earlier : (scanned ruleless earlier).catalog = catalog := by
  obtain ⟨-, hscannable, -⟩ := computed_earlier
  have hnone :
      FileTree.entry? (tree.put ["data"] .directory) ["data", "direct_index.yaml"] = none := rfl
  have hext : tree.Extends earlier := (FileTree.adds_put_directory rfl).toExtends.trans
    (FileTree.extends_put (by rw [hnone]; exact nofun) _)
  refine catalog_scan hscannable (load_of_files hext fun q hq => ?_)
  obtain ⟨hfile, hdata⟩ : q ≠ ["data", "direct_index.yaml"] ∧ q ≠ ["data"] := by
    revert q
    decide
  rw [earlier, FileTree.entry?_put_ne hfile, FileTree.entry?_put_ne hdata]

theorem indexReadsBack : IndexReadsBack ruleless earlier := by
  refine indexReadsBack_of_gives fun t ht => ?_
  rw [Except.mem_toOption, selected, catalog_earlier] at ht
  obtain rfl : table = t := Except.ok.inj (compiled.symm.trans ht)
  exact givesBack_table.2

theorem fails : (on earlier (annotate ruleless)).1
    = .error (.table ⟨some ⟨"/none.csv"⟩, .file .missing⟩) := by
  obtain ⟨-, -, hstack, hrules⟩ := computed_earlier
  obtain ⟨ws, hscan⟩ := (means_scan ruleless ⟨earlier, []⟩ catalog earlier).mpr
    ⟨catalog_earlier.symm, rfl⟩
  have hprepare : exec (prepare ruleless) ⟨earlier, []⟩
      = (.error (.table ⟨some ⟨"/none.csv"⟩, .file .missing⟩), ⟨earlier, ws⟩) := by
    unfold prepare
    rw [exec_bind_of_ok hscan, exec_bind_of_ok (exec_lift hstack _),
      exec_bind_of_ok (exec_tree _)]
    exact exec_bind_of_error (exec_lift hrules _)
  rw [on_eq, annotate, exec_bind_of_error hprepare]

end Sample

/-- Rules that are not there leave the sample as it was, with the earlier table. -/
theorem annotate_atomic_sample : ∃ e s,
    on Sample.earlier (annotate Sample.ruleless) = (.error (.table e), s)
      ∧ s.tree = Sample.earlier := by
  obtain ⟨s, hrun⟩ := exists_on Sample.fails
  obtain ⟨htree, -⟩ :=
    annotate_atomic Sample.computed_earlier.1 Sample.indexReadsBack hrun
  exact ⟨_, s, hrun, htree (.inr ⟨_, rfl⟩)⟩

end SimAnnotate.Run
