import SimAnnotate.Proofs.Run.Course

/-!
# Where a run fails

A run stops at the first step that fails and leaves the tree as it is there.
`Run.Fails` says of an activity with which errors it can fail, and in which trees,
as `Run.Means` says what it comes to where it succeeds; with activities that
follow each other the later one fails where the earlier one has succeeded
(`Fails.bind`). For a whole run this comes to `Run.Breaks`.
-/

namespace SimAnnotate.Run

variable {α β : Type}

/-- Where the activity fails, `F` holds: of the tree before, the error and the tree
then. -/
def Fails (act : Run α) (F : FileTree → Error → FileTree → Prop) : Prop :=
  ∀ s e t', (∃ ws, exec act s = (.error e, ⟨t', ws⟩)) → F s.tree e t'

namespace Fails

variable {act : Run α} {F F' : FileTree → Error → FileTree → Prop}

theorem mono (h : Fails act F) (hF : ∀ t e t', F t e t' → F' t e t') : Fails act F' :=
  fun s e t' hexec => hF s.tree e t' (h s e t' hexec)

/-- Activities that follow each other. -/
theorem bind {R : FileTree → α → FileTree → Prop} (hm : Means act R) (h : Fails act F)
    {f : α → Run β} {G : α → FileTree → Error → FileTree → Prop}
    (hf : ∀ a, Fails (f a) (G a)) :
    Fails (act >>= f) fun t e t' => F t e t' ∨ ∃ a u, R t a u ∧ G a u e t' := by
  rintro s e t' ⟨ws, hexec⟩
  rw [exec_bind] at hexec
  split at hexec
  · next a s' hact =>
      have hR := (hm s a s'.tree).mp ⟨s'.warnings, hact⟩
      exact .inr ⟨a, s'.tree, hR, hf a s' e t' ⟨ws, hexec⟩⟩
  · next e' s' hact =>
      cases hexec
      exact .inl (h s e t' ⟨ws, hact⟩)

end Fails

/-! ## Single activities -/

/-- No error. -/
def Never : FileTree → Error → FileTree → Prop := fun _ _ _ => False

theorem fails_pure (a : α) : Fails (pure a) Never := by
  rintro s e t' ⟨ws, h⟩
  change (Except.ok a, s) = _ at h
  cases h

theorem fails_throw (e : Error) :
    Fails (throw e : Run α) fun t e' t' => e' = e ∧ t' = t := by
  rintro s e' t' ⟨ws, h⟩
  change (Except.error e, s) = _ at h
  cases h
  exact ⟨rfl, rfl⟩

/-- A computation that knows nothing of the tree. -/
theorem fails_lift (x : Except Error α) :
    Fails (liftM x) fun t e t' => x = .error e ∧ t' = t := by
  rintro s e t' ⟨ws, h⟩
  change (x, s) = _ at h
  cases h
  exact ⟨rfl, rfl⟩

theorem fails_tree : Fails tree Never := by
  rintro s e t' ⟨ws, h⟩
  change (Except.ok s.tree, s) = _ at h
  cases h

theorem fails_setTree (u : FileTree) : Fails (setTree u) Never := by
  rintro s e t' ⟨ws, h⟩
  change (Except.ok (), State.mk u s.warnings) = _ at h
  cases h

theorem fails_warn (ws : List Warning) : Fails (warn ws) Never := by
  rintro s e t' ⟨ws', h⟩
  change (Except.ok (), State.mk s.tree (s.warnings ++ ws)) = _ at h
  cases h

theorem fails_change (f : FileTree → Except Error FileTree) :
    Fails (change f) fun t e t' => f t = .error e ∧ t' = t := by
  refine (Fails.bind means_tree fails_tree fun t =>
    Fails.bind (means_lift (f t)) (fails_lift (f t)) fails_setTree).mono fun t e t' => ?_
  rintro (h | ⟨_, _, ⟨rfl, rfl⟩, h | ⟨_, _, -, h⟩⟩)
  · cases h
  · exact h
  · cases h

/-- An activity that leaves the tree. -/
theorem Computes.fails {act : Run α} {x : Except Error α} (h : Computes act x) :
    Fails act fun t e t' => x = .error e ∧ t' = t := by
  rintro s e t' ⟨ws, hact⟩
  obtain ⟨ws', hcomputes⟩ := h s
  rw [hcomputes] at hact
  cases hact
  exact ⟨rfl, rfl⟩

/-! ## The offset table -/

/-- The error of a file that cannot be read, written or taken in. -/
def IsFileError (e : Error) : Prop := (∃ e', e = .load e') ∨ ∃ e', e = .write e'

section

variable {e : Error}

theorem isFileError_of_load {x : Except LoadError α} (h : x.mapError .load = .error e) :
    IsFileError e := by
  obtain ⟨e', -, rfl⟩ := Except.mapError_eq_error.mp h
  exact .inl ⟨e', rfl⟩

theorem isFileError_of_write {x : Except WriteError α} (h : x.mapError .write = .error e) :
    IsFileError e := by
  obtain ⟨e', -, rfl⟩ := Except.mapError_eq_error.mp h
  exact .inr ⟨e', rfl⟩

theorem isFileError_of_file {x : Except FileError α}
    (h : x.mapError fileError = .error e) : IsFileError e := by
  obtain ⟨e', -, rfl⟩ := Except.mapError_eq_error.mp h
  exact .inl ⟨.file e', rfl⟩

end

/-- The trees that writing an offset table goes through. -/
inductive Tabling (o : Options) (table : OffsetTable) (t : FileTree) : FileTree → Prop
  | start : Tabling o table t t
  | cleared {cleared : FileTree} : Cleared o.indexFile t cleared → Tabling o table t cleared
  | made {cleared made : FileTree} : Cleared o.indexFile t cleared →
      cleared.makeDirectories o.dataDirectory = .ok made → Tabling o table t made
  | written {cleared made written : FileTree} : Cleared o.indexFile t cleared →
      cleared.makeDirectories o.dataDirectory = .ok made →
      table.emit made o.indexFile = .ok written → Tabling o table t written

theorem fails_clear (p : Path) :
    Fails (clear p) fun t e t' => IsFileError e ∧ t' = t := by
  have hif : ∀ u : FileTree, Fails
      (if u.exists? p then change fun t => (t.removeFile p).mapError fileError else pure ())
      fun t e t' => IsFileError e ∧ t' = t := by
    intro u
    split
    · exact (fails_change _).mono fun _ _ _ h => ⟨isFileError_of_file h.1, h.2⟩
    · exact (fails_pure ()).mono fun _ _ _ h => h.elim
  refine (Fails.bind means_tree fails_tree hif).mono fun t e t' => ?_
  rintro (h | ⟨_, _, ⟨rfl, rfl⟩, h⟩)
  · cases h
  · exact h

theorem fails_addFile (c : Catalog) (p : Path) :
    Fails (addFile c p) fun t e t' => IsFileError e ∧ t' = t := by
  refine (Fails.bind (means_warn _) (fails_warn _) fun _ =>
    Fails.bind means_tree fails_tree fun t =>
      fails_lift ((c.add t p).mapError Error.load)).mono fun t e t' => ?_
  rintro (h | ⟨_, _, rfl, h | ⟨_, _, ⟨rfl, rfl⟩, hload, rfl⟩⟩)
  · cases h
  · cases h
  · exact ⟨isFileError_of_load hload, rfl⟩

/-- A table does not compile, or it comes into the tree in part or in whole. -/
theorem fails_writeTable (o : Options) (c : Catalog) (groups : List Document) :
    Fails (writeTable o c groups) fun t e t' =>
      (OffsetTable.compile c groups = .error e ∧ t' = t)
        ∨ ∃ table, OffsetTable.compile c groups = .ok table ∧ Tabling o table t t'
          ∧ IsFileError e := by
  refine (Fails.bind (means_warn _) (fails_warn _) fun _ =>
    Fails.bind (means_lift _) (fails_lift _) fun table =>
    Fails.bind (means_clear _) (fails_clear _) fun _ =>
    Fails.bind (means_change _) (fails_change _) fun _ =>
    Fails.bind (means_change _) (fails_change _) fun _ =>
    Fails.bind (means_addFile c _) (fails_addFile c _) fun c' =>
    fails_pure (c', table)).mono fun t e t' => ?_
  rintro (h | ⟨_, _, rfl, h | ⟨table, _, ⟨htable, rfl⟩, h⟩⟩)
  · cases h
  · exact .inl h
  refine .inr ⟨table, htable, ?_⟩
  -- each step that is made leaves the tree a little further
  rcases h with ⟨he, rfl⟩ | ⟨_, cleared, hcleared, h⟩
  · exact ⟨.start, he⟩
  rcases h with ⟨he, rfl⟩ | ⟨_, made, hmade, h⟩
  · exact ⟨.cleared hcleared, isFileError_of_file he⟩
  replace hmade := Except.mapError_eq_ok.mp hmade
  rcases h with ⟨he, rfl⟩ | ⟨_, written, hwritten, h⟩
  · exact ⟨.made hcleared hmade, isFileError_of_write he⟩
  replace hwritten := Except.mapError_eq_ok.mp hwritten
  rcases h with ⟨he, rfl⟩ | ⟨_, _, -, h⟩
  · exact ⟨.written hcleared hmade hwritten, he⟩
  · cases h

theorem fails_policy (o : Options) (c : Catalog) (handles : List Handle) :
    Fails (policy o c handles) fun t e t' => o.index = true
      ∧ ((OffsetTable.compile c (handles.filterMap c.get?) = .error e ∧ t' = t)
        ∨ ∃ table, OffsetTable.compile c (handles.filterMap c.get?) = .ok table
          ∧ Tabling o table t t' ∧ IsFileError e) := by
  unfold policy
  split
  · next hindex =>
      refine (Fails.bind (means_writeTable o c _) (fails_writeTable o c _) fun x =>
        fails_pure (x.1, ReferencePolicy.table x.2)).mono fun t e t' => ?_
      rintro (h | ⟨_, _, -, h⟩)
      · exact ⟨hindex, h⟩
      · cases h
  · exact (fails_pure _).mono fun _ _ _ h => h.elim

/-! ## The summary and saving -/

theorem fails_summarise (o : Options) (p : Progress) : Fails (summarise o p)
    fun t e t' => StackSummary.annotate p.catalog o.sim = .error e ∧ t' = t := by
  refine (Fails.bind (means_warn _) (fails_warn _) fun _ =>
    Fails.bind (means_lift _) (fails_lift _) fun c =>
    fails_pure { p with catalog := c }).mono fun t e t' => ?_
  rintro (h | ⟨_, _, rfl, h | ⟨_, _, -, h⟩⟩)
  · cases h
  · exact h
  · cases h

theorem fails_failWith (e? : Option WriteError) :
    Fails (failWith e?) fun t e t' => (∃ e', e? = some e' ∧ e = .write e') ∧ t' = t := by
  cases e? with
  | none => exact (fails_pure ()).mono fun _ _ _ h => h.elim
  | some e' => exact (fails_throw _).mono fun _ _ _ h => ⟨⟨e', rfl, h.1⟩, h.2⟩

/-- Saving stops at a file that cannot be written. -/
theorem fails_save (c : Catalog) : Fails (save c) fun t e t' =>
    ∃ e', e = .write e' ∧ c.writeFiles t c.flagged.values = (t', some e') := by
  refine (Fails.bind means_tree fails_tree fun t =>
    Fails.bind (means_setTree (c.save t).tree) (fails_setTree _) fun _ =>
    fails_failWith (c.save t).error).mono fun t e t' => ?_
  rintro (h | ⟨_, _, ⟨rfl, rfl⟩, h | ⟨_, _, rfl, ⟨e', herror, rfl⟩, rfl⟩⟩)
  · cases h
  · cases h
  · refine ⟨e', rfl, ?_⟩
    unfold Catalog.save Catalog.saveFiles at herror ⊢
    split at herror
    · cases herror
    · next t₁ e₁ hwrite =>
        cases herror
        rw [hwrite]

/-! ## Runs -/

section

variable (o : Options) (t : FileTree)

/-- There is one Stack, so that a run goes on. -/
def HasStack : Prop := ∃ h, (scanned o t).catalog.stackHandle = .ok h

/-- The groups that a run is about. -/
def selected : List Handle := (scanned o t).catalog.selected o.signalGroups

/-- Where a run can fail: with which error, and which tree it leaves. -/
inductive Breaks : Error → FileTree → Prop
  | stack {e : Error} : (scanned o t).catalog.stackHandle = .error e → Breaks e t
  | rules {e : TableError} : HasStack o t → RuleSet.select t o.rules o.ruleSet = .error e →
      Breaks (.table e) t
  | compile {e : Error} : HasStack o t → OffsetTable.compile (scanned o t).catalog
      ((selected o t).filterMap (scanned o t).catalog.get?) = .error e → Breaks e t
  | table {e : Error} {t' : FileTree} {table : OffsetTable} : HasStack o t →
      o.index = true → Tabling o table t t' → IsFileError e → Breaks e t'
  | groups {rules? : Option RuleSet} {c : Catalog} {policy : ReferencePolicy} {e : Error}
      {t' : FileTree} : HasStack o t →
      Opened o (scanned o t).catalog (selected o t) t c policy t' →
      groupSteps rules? (selected o t) (.start o c policy) = .error e → Breaks e t'
  | summary {rules? : Option RuleSet} {c : Catalog} {policy : ReferencePolicy}
      {p : Progress} {e : Error} {t' : FileTree} : HasStack o t →
      Opened o (scanned o t).catalog (selected o t) t c policy t' →
      groupSteps rules? (selected o t) (.start o c policy) = .ok p →
      StackSummary.annotate p.catalog o.sim = .error e → Breaks e t'
  | save {e : WriteError} {t' : FileTree} (w : Preparation o t) :
      w.progress ∈ (on t (prepare o)).1.toOption →
      w.catalog.writeFiles w.tree w.catalog.flagged.values = (t', some e) →
      Breaks (.write e) t'

end

theorem fails_scan (o : Options) : Fails (scan o) Never := by
  refine (Fails.bind means_tree fails_tree fun t =>
    Fails.bind (means_warn (scanned o t).warnings) (fails_warn _) fun _ =>
    fails_pure (scanned o t).catalog).mono fun t e t' => ?_
  rintro (h | ⟨_, _, -, h | ⟨_, _, -, h⟩⟩)
  · exact h
  · exact h
  · exact h

theorem fails_prepare (o : Options) : Fails (prepare o) fun t e t' => Breaks o t e t' := by
  refine (Fails.bind (means_scan o) (fails_scan o) fun c =>
    Fails.bind (means_lift c.stackHandle) (fails_lift _) fun _ =>
    Fails.bind means_tree fails_tree fun u =>
    Fails.bind (means_lift ((RuleSet.select u o.rules o.ruleSet).mapError Error.table))
      (fails_lift _) fun rules? =>
    Fails.bind (means_policy o c (c.selected o.signalGroups)) (fails_policy o c _) fun x =>
    have hgroups := computes_annotateGroups rules? (c.selected o.signalGroups)
      (.start o x.1 x.2)
    Fails.bind hgroups.means hgroups.fails fun p =>
    fails_summarise o p).mono fun t e t' => ?_
  rintro (h | ⟨_, _, ⟨rfl, rfl⟩, h⟩)
  · cases h
  -- up to the rules the tree is the one that was there
  rcases h with ⟨h, rfl⟩ | ⟨stack, _, ⟨hstack, rfl⟩, h | ⟨_, _, ⟨rfl, rfl⟩, h⟩⟩
  · exact .stack h
  · cases h
  replace hstack : HasStack o _ := ⟨stack, hstack⟩
  rcases h with ⟨h, rfl⟩ | ⟨rules?, _, ⟨-, rfl⟩, h⟩
  · obtain ⟨e', he', rfl⟩ := Except.mapError_eq_error.mp h
    exact .rules hstack he'
  rcases h with ⟨hindex, ⟨h, rfl⟩ | ⟨table, -, htabling, he⟩⟩ | ⟨x, _, hopened, h⟩
  · exact .compile hstack h
  · exact .table hstack hindex htabling he
  rcases h with ⟨h, rfl⟩ | ⟨p, _, ⟨hgroups, rfl⟩, h, rfl⟩
  · exact .groups hstack hopened h
  · exact .summary hstack hopened hgroups h

/-- A run that fails breaks. -/
theorem breaks_of_error {o : Options} {t : FileTree} {e : Error} {s : State}
    (h : on t (annotate o) = (.error e, s)) : Breaks o t e s.tree := by
  have hfails := Fails.bind (means_prepare o) (fails_prepare o) fun p =>
    Fails.bind (means_save p.catalog) (fails_save p.catalog) fun _ => fails_pure p.summary
  rcases hfails ⟨t, []⟩ e s.tree ⟨s.warnings, h⟩ with h | ⟨_, _, ⟨w, rfl, rfl⟩, h | ⟨_, _, -, h⟩⟩
  · exact h
  · obtain ⟨e', rfl, hsave⟩ := h
    obtain ⟨ws, hprepare⟩ := (means_prepare o ⟨t, []⟩ w.progress w.tree).mpr ⟨w, rfl, rfl⟩
    refine .save w ?_ hsave
    rw [on_eq, hprepare]
    rfl
  · exact h.elim

end SimAnnotate.Run
