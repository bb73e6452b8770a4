import SimAnnotate.Proofs.Run.Groups
import SimAnnotate.Proofs.StackSummary

/-!
# The course of a run

A run that succeeds has gone through all of its steps: `Run.Preparation` names
what each of them came to. An activity succeeds exactly when there is such a
course (`means_prepare`, `means_annotate`), so a run is known by its course, and
a course shows that there is a run.
-/

namespace SimAnnotate.Run

/-! ## The offset table -/

/-- `t'` is `t` without the file at `p`. -/
def Cleared (p : Path) (t t' : FileTree) : Prop :=
  if t.exists? p then t.removeFile p = .ok t' else t' = t

theorem means_clear (p : Path) : Means (clear p) fun t _ t' => Cleared p t t' := by
  have hif : ∀ u : FileTree, Means
      (if u.exists? p then change fun t => (t.removeFile p).mapError fileError else pure ())
      fun t _ t' => if u.exists? p then t.removeFile p = .ok t' else t' = t := by
    intro u
    split
    · exact (means_change _).congr fun _ _ _ => Except.mapError_eq_ok
    · exact (means_pure ()).congr fun _ _ _ => by simp
  refine (means_tree.bind hif).congr fun t _ t' => ?_
  constructor
  · rintro ⟨_, _, ⟨rfl, rfl⟩, h⟩
    exact h
  · exact fun h => ⟨t, t, ⟨rfl, rfl⟩, h⟩

theorem means_addFile (c : Catalog) (p : Path) :
    Means (addFile c p) fun t c' t' => c.add t p = .ok c' ∧ t' = t := by
  refine ((means_warn _).bind fun _ => means_tree.bind fun t =>
    means_lift ((c.add t p).mapError Error.load)).congr fun t c' t' => ?_
  constructor
  · rintro ⟨_, _, rfl, _, _, ⟨rfl, rfl⟩, hc, rfl⟩
    exact ⟨Except.mapError_eq_ok.mp hc, rfl⟩
  · rintro ⟨hc, rfl⟩
    exact ⟨(), t', rfl, t', t', ⟨rfl, rfl⟩, Except.mapError_eq_ok.mpr hc, rfl⟩

/-- How an offset table comes in: `t` has a new file with the table then, which is
`t'`, and the catalog has the file. -/
structure Tabled (o : Options) (c : Catalog) (groups : List Document) (t : FileTree)
    (c' : Catalog) (table : OffsetTable) (t' : FileTree) : Prop where
  compiled : OffsetTable.compile c groups = .ok table
  written : ∃ cleared made, Cleared o.indexFile t cleared
    ∧ cleared.makeDirectories o.dataDirectory = .ok made
    ∧ table.emit made o.indexFile = .ok t'
  added : c.add t' o.indexFile = .ok c'

theorem means_writeTable (o : Options) (c : Catalog) (groups : List Document) :
    Means (writeTable o c groups) fun t x t' => Tabled o c groups t x.1 x.2 t' := by
  refine ((means_warn _).bind fun _ => (means_lift _).bind fun table =>
    (means_clear _).bind fun _ => (means_change _).bind fun _ =>
    (means_change _).bind fun _ => (means_addFile c _).bind fun c' =>
    means_pure (c', table)).congr fun t x t' => ?_
  constructor
  · rintro ⟨_, _, rfl, table, _, ⟨htable, rfl⟩, _, cleared, hcleared, _, made, hmade, _, _,
      hemit, c', _, ⟨hc', rfl⟩, rfl, rfl⟩
    exact ⟨htable, ⟨cleared, made, hcleared, Except.mapError_eq_ok.mp hmade,
      Except.mapError_eq_ok.mp hemit⟩, hc'⟩
  · rintro ⟨htable, ⟨cleared, made, hcleared, hmade, hemit⟩, hc'⟩
    exact ⟨(), t, rfl, x.2, t, ⟨htable, rfl⟩, (), cleared, hcleared, (), made,
      Except.mapError_eq_ok.mpr hmade, (), t', Except.mapError_eq_ok.mpr hemit, x.1, t',
      ⟨hc', rfl⟩, rfl, rfl⟩

/-- What the groups are annotated from: a table, where one is wanted. -/
def Opened (o : Options) (c : Catalog) (handles : List Handle) (t : FileTree)
    (c' : Catalog) (policy : ReferencePolicy) (t' : FileTree) : Prop :=
  if o.index then
    ∃ table, policy = .table table ∧ Tabled o c (handles.filterMap c.get?) t c' table t'
  else c' = c ∧ policy = .counter 0 ∧ t' = t

theorem means_policy (o : Options) (c : Catalog) (handles : List Handle) :
    Means (policy o c handles) fun t x t' => Opened o c handles t x.1 x.2 t' := by
  unfold policy Opened
  split
  · refine ((means_writeTable o c _).bind fun x => means_pure (x.1,
      ReferencePolicy.table x.2)).congr fun t x t' => ?_
    constructor
    · rintro ⟨x, _, htabled, rfl, rfl⟩
      exact ⟨x.2, rfl, htabled⟩
    · rintro ⟨table, hpolicy, htabled⟩
      exact ⟨(x.1, table), t', htabled, Prod.ext rfl hpolicy, rfl⟩
  · exact (means_pure _).congr fun t x t' => by simp [Prod.ext_iff, and_assoc]

/-! ## The summary and saving -/

theorem means_summarise (o : Options) (p : Progress) : Means (summarise o p)
    fun t p' t' => (∃ c, StackSummary.annotate p.catalog o.sim = .ok c
      ∧ { p with catalog := c } = p') ∧ t' = t := by
  refine ((means_warn _).bind fun _ => (means_lift _).bind fun c =>
    means_pure { p with catalog := c }).congr fun t p' t' => ?_
  constructor
  · rintro ⟨_, _, rfl, c, _, ⟨hc, rfl⟩, rfl, rfl⟩
    exact ⟨⟨c, hc, rfl⟩, rfl⟩
  · rintro ⟨⟨c, hc, rfl⟩, rfl⟩
    exact ⟨(), t', rfl, c, t', ⟨hc, rfl⟩, rfl, rfl⟩

theorem means_failWith (e? : Option WriteError) :
    Means (failWith e?) fun t _ t' => e? = none ∧ t' = t := by
  cases e? with
  | none => exact (means_pure ()).congr fun _ _ _ => by simp
  | some e => exact (means_throw _).congr fun _ _ _ => by simp

theorem means_save (c : Catalog) :
    Means (save c) fun t _ t' => c.writeFiles t c.flagged.values = (t', none) := by
  have hsaved : ∀ t : FileTree, (c.save t).tree = (c.writeFiles t c.flagged.values).1
      ∧ (c.save t).error = (c.writeFiles t c.flagged.values).2 := fun t => by
    unfold Catalog.save Catalog.saveFiles
    obtain ⟨u, e⟩ := c.writeFiles t c.flagged.values
    cases e <;> exact ⟨rfl, rfl⟩
  refine (means_tree.bind fun t => (means_setTree (c.save t).tree).bind fun _ =>
    means_failWith (c.save t).error).congr fun t _ t' => ?_
  rw [Prod.ext_iff, ← (hsaved t).1, ← (hsaved t).2]
  constructor
  · rintro ⟨_, _, ⟨rfl, rfl⟩, _, _, rfl, herror, rfl⟩
    exact ⟨rfl, herror⟩
  · rintro ⟨rfl, herror⟩
    exact ⟨t, t, ⟨rfl, rfl⟩, (), _, rfl, herror, rfl⟩

/-! ## Runs -/

/-- The steps of preparing a simulation. -/
structure Preparation (o : Options) (t : FileTree) where
  rules? : Option RuleSet
  /-- The documents that groups are annotated among. -/
  opened : Catalog
  policy : ReferencePolicy
  /-- The tree with the offset table. -/
  tree : FileTree
  referred : Progress
  catalog : Catalog
  stack : ∃ h, (scanned o t).catalog.stackHandle = .ok h
  selects : RuleSet.select t o.rules o.ruleSet = .ok rules?
  opens : Opened o (scanned o t).catalog ((scanned o t).catalog.selected o.signalGroups) t
    opened policy tree
  refers : groupSteps rules? ((scanned o t).catalog.selected o.signalGroups)
    (.start o opened policy) = .ok referred
  summarises : StackSummary.annotate referred.catalog o.sim = .ok catalog

/-- What preparing has come to. -/
def Preparation.progress {o : Options} {t : FileTree} (w : Preparation o t) : Progress :=
  { w.referred with catalog := w.catalog }

theorem means_scan (o : Options) :
    Means (scan o) fun t c t' => c = (scanned o t).catalog ∧ t' = t := by
  refine (means_tree.bind fun t => (means_warn (scanned o t).warnings).bind fun _ =>
    means_pure (scanned o t).catalog).congr fun t c t' => ?_
  constructor
  · rintro ⟨_, _, ⟨rfl, rfl⟩, _, _, rfl, rfl, rfl⟩
    exact ⟨rfl, rfl⟩
  · rintro ⟨rfl, rfl⟩
    exact ⟨t', t', ⟨rfl, rfl⟩, (), t', rfl, rfl, rfl⟩

theorem means_prepare (o : Options) : Means (prepare o) fun t p t' =>
    ∃ w : Preparation o t, w.progress = p ∧ w.tree = t' := by
  refine ((means_scan o).bind fun c => (means_lift c.stackHandle).bind fun _ =>
    means_tree.bind fun u => (means_lift ((RuleSet.select u o.rules o.ruleSet).mapError
      Error.table)).bind fun rules? =>
    (means_policy o c (c.selected o.signalGroups)).bind fun x =>
    (computes_annotateGroups rules? (c.selected o.signalGroups)
      (.start o x.1 x.2)).means.bind fun p =>
    means_summarise o p).congr fun t p t' => ?_
  constructor
  · -- the results of the steps, in their order, are the fields of a preparation
    rintro ⟨_, _, ⟨rfl, rfl⟩, h, _, ⟨hstack, rfl⟩, _, _, ⟨rfl, rfl⟩, rules?, _,
      ⟨hrules, rfl⟩, x, _, hopened, p₁, _, ⟨hrefers, rfl⟩, ⟨c', hsummary, rfl⟩, rfl⟩
    exact ⟨⟨rules?, x.1, x.2, _, p₁, c', ⟨h, hstack⟩, Except.mapError_eq_ok.mp hrules, hopened,
      hrefers, hsummary⟩, rfl, rfl⟩
  · rintro ⟨w, rfl, rfl⟩
    obtain ⟨h, hstack⟩ := w.stack
    exact ⟨_, t, ⟨rfl, rfl⟩, h, t, ⟨hstack, rfl⟩, t, t, ⟨rfl, rfl⟩, w.rules?, t,
      ⟨Except.mapError_eq_ok.mpr w.selects, rfl⟩, (w.opened, w.policy), w.tree, w.opens,
      w.referred, w.tree, ⟨w.refers, rfl⟩, ⟨w.catalog, w.summarises, rfl⟩, rfl⟩

theorem means_annotate (o : Options) : Means (annotate o) fun t summary t' =>
    ∃ w : Preparation o t, w.referred.summary = summary
      ∧ w.catalog.writeFiles w.tree w.catalog.flagged.values = (t', none) := by
  refine ((means_prepare o).bind fun p => (means_save p.catalog).bind fun _ =>
    means_pure p.summary).congr fun t summary t' => ?_
  constructor
  · rintro ⟨_, _, ⟨w, rfl, rfl⟩, _, _, hsave, rfl, rfl⟩
    exact ⟨w, rfl, hsave⟩
  · rintro ⟨w, rfl, hsave⟩
    exact ⟨w.progress, w.tree, ⟨w, rfl, rfl⟩, (), t', hsave, rfl, rfl⟩

/-- A run that succeeds has a course. -/
theorem exists_preparation {o : Options} {t : FileTree} {summary : Summary} {s : State}
    (h : on t (annotate o) = (.ok summary, s)) : ∃ w : Preparation o t,
      w.progress ∈ (on t (prepare o)).1.toOption ∧ w.referred.summary = summary
        ∧ w.catalog.writeFiles w.tree w.catalog.flagged.values = (s.tree, none) := by
  obtain ⟨w, hsummary, hsave⟩ := (means_annotate o ⟨t, []⟩ summary s.tree).mp ⟨s.warnings, h⟩
  obtain ⟨ws, hprepare⟩ := (means_prepare o ⟨t, []⟩ w.progress w.tree).mpr ⟨w, rfl, rfl⟩
  refine ⟨w, ?_, hsummary, hsave⟩
  rw [on_eq, hprepare]
  rfl

namespace Preparation

variable {o : Options} {t : FileTree}

/-- A course shows what preparing comes to. -/
theorem on_prepare (w : Preparation o t) : (on t (prepare o)).1 = .ok w.progress := by
  obtain ⟨ws, h⟩ := (means_prepare o ⟨t, []⟩ w.progress w.tree).mpr ⟨w, rfl, rfl⟩
  rw [on_eq, h]

/-- A course shows that there is a run, if the files can be written. -/
theorem exists_on_annotate (w : Preparation o t)
    (h : (w.catalog.writeFiles w.tree w.catalog.flagged.values).2 = none) :
    ∃ s, on t (annotate o) = (.ok w.referred.summary, s)
      ∧ s.tree = (w.catalog.writeFiles w.tree w.catalog.flagged.values).1 := by
  obtain ⟨ws, hrun⟩ := (means_annotate o ⟨t, []⟩ w.referred.summary _).mpr
    ⟨w, rfl, Prod.ext rfl h⟩
  exact ⟨_, hrun, rfl⟩

/-- The course whose steps are computed one after the other, from the documents `c`
that are read. -/
def ofSteps {c : Catalog} {rules? : Option RuleSet} {opened : Catalog}
    {policy : ReferencePolicy} {tree : FileTree} (hscanned : (scanned o t).catalog = c)
    (hstack : ∃ h, c.stackHandle = .ok h)
    (hselects : RuleSet.select t o.rules o.ruleSet = .ok rules?)
    (hopens : Opened o c (c.selected o.signalGroups) t opened policy tree)
    (hrefers : (groupSteps rules? (c.selected o.signalGroups)
      (.start o opened policy)).toOption.isSome = true)
    (hsummary : (StackSummary.annotate ((groupSteps rules? (c.selected o.signalGroups)
      (.start o opened policy)).toOption.get hrefers).catalog o.sim).toOption.isSome = true) :
    Preparation o t where
  rules? := rules?
  opened := opened
  policy := policy
  tree := tree
  referred := (groupSteps rules? (c.selected o.signalGroups)
    (.start o opened policy)).toOption.get hrefers
  catalog := (StackSummary.annotate _ o.sim).toOption.get hsummary
  stack := hscanned ▸ hstack
  selects := hselects
  opens := hscanned ▸ hopens
  refers := by
    rw [hscanned]
    exact Except.eq_ok_get hrefers
  summarises := Except.eq_ok_get hsummary

end Preparation

end SimAnnotate.Run
