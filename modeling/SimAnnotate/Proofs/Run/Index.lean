import SimAnnotate.Proofs.Run.Rescan

/-!
# The offset table and the references agree

A run that writes an offset table compiles it before it gives references, and
looks the places up afterwards, among documents that have changed in between. The
signals that it leaves in the tree carry the places that the written table says,
and two of them carry the same place only when channel and name are the same.
-/

namespace SimAnnotate.Run

open References (referenceKey typeKey nameKey variableType qualifies)

/-- The signals of a document. -/
def signals (d : Document) : List Signal := (d.signalGroup?.map (·.signals)).getD []

/-- A signal of a selected group that is not binary, in the tree before a run and
in the tree after it, with the channel to which the group is wired. -/
structure AnnotatedSignal (o : Options) (t t' : FileTree) where
  handle : Handle
  group : Document
  group' : Document
  position : Nat
  before : Signal
  after : Signal
  channel : Option String
  selected : handle ∈ (scanned o t).catalog.selected o.signalGroups
  found : (scanned o t).catalog.get? handle = some group
  found' : (scanned o t').catalog.get? handle = some group'
  notBinary : References.isBinary group = false
  wired : Wiring.channel? (scanned o t).catalog group = .ok channel
  signal : (signals group)[position]? = some before
  signal' : (signals group')[position]? = some after

namespace AnnotatedSignal

variable {o : Options} {t t' : FileTree}

/-- An input or output, after the rules, of a wired group. -/
def IsReferred (x : AnnotatedSignal o t t') (rules : RuleSet) : Prop :=
  qualifies (rules.apply x.before.annotations) = true ∧ x.channel ≠ none

/-- What the signal says as its reference in the end. -/
def reference? (x : AnnotatedSignal o t t') : Option Yaml.Value :=
  x.after.annotations.get? referenceKey

/-- A signal that is referred carries what `index` says for its name in the channel;
any other has no more than the rules give it. -/
structure Agrees (x : AnnotatedSignal o t t') (rules : RuleSet) (index : List Document) :
    Prop where
  name : x.after.name = x.before.name
  referred : x.IsReferred rules → ∀ channel, x.channel = some channel → ∃ n : Nat,
    OffsetTable.offsetIn? index channel x.before.name = some (.ofNat n)
      ∧ x.reference? = some (.ofNat n)
      ∧ x.after.annotations.get? typeKey = some (.string variableType)
      ∧ x.after.annotations.get? nameKey = some (.string x.before.name)
  others : ¬ x.IsReferred rules → x.after = rules.applySignal x.before

theorem channel_eq (x : AnnotatedSignal o t t') {d : Document} {channel : Option String}
    (hd : (scanned o t).catalog.get? x.handle = some d)
    (hchannel : Wiring.channel? (scanned o t).catalog d = .ok channel) :
    x.channel = channel := by
  have hfound := x.found
  rw [hd] at hfound
  cases hfound
  exact Except.ok.inj (x.wired.symm.trans hchannel)

end AnnotatedSignal

theorem signals_eq {d : Document} {g : SignalGroup} (hg : d.signalGroup? = some g) :
    signals d = g.signals := by
  rw [signals, hg]
  rfl

theorem signals_mapSignals (d : Document) (f : Signal → Signal) :
    signals (d.mapSignals (·.map f)) = (signals d).map f := by
  unfold signals
  rw [Document.signalGroup?_mapSignals]
  cases d.signalGroup? <;> rfl

/-! ## What a run does to one group -/

namespace Preparation

variable {o : Options} {t t' : FileTree} {place : Place} (w : Preparation o t)
  (hwf : t.WellFormed) (hsim : t.locate o.sim = .ok place) (hyaml : w.progress.GivesBack)
  (hsave : w.catalog.writeFiles w.tree w.catalog.flagged.values = (t', none))

include hwf hsim hyaml hsave

variable {rules : RuleSet} (hrules : w.rules? = some rules) {table : OffsetTable}
  (hpolicy : w.policy = .table table)

include hrules hpolicy

/-- Each signal of a selected group gets the place of its name in the channel. -/
theorem get?_placed {h : Handle} {d : Document}
    (hh : h ∈ (scanned o t).catalog.selected o.signalGroups)
    (hd : (scanned o t).catalog.get? h = some d) (hbinary : References.isBinary d = false) :
    ∃ channel, Wiring.channel? (scanned o t).catalog d = .ok channel
      ∧ (scanned o t').catalog.get? h
        = some (d.mapSignals (·.map (References.placeSignal rules table channel))) := by
  have hrefers := w.refers
  rw [hrules] at hrefers
  obtain ⟨channel, hchannel, hget⟩ := get?_of_foldlM (w.ready hwf hsim hyaml)
    (Catalog.nodup_selected _ _) hpolicy hrefers hh (w.get?_opened hwf hsim hyaml hd) hbinary
  refine ⟨channel, (w.channel?_opened hwf hsim hyaml d).symm.trans hchannel, ?_⟩
  have hkept := (StackSummary.evolves_annotate w.summarises).kept h
    (Catalog.ne_stack_of_mem_selected hh)
  rw [w.get?_saved hwf hsim hyaml hsave hd, hkept, hget]

/-- Every signal of a selected group is in the tree after the run. -/
theorem exists_annotatedSignal {h : Handle} {d : Document}
    (hh : h ∈ (scanned o t).catalog.selected o.signalGroups)
    (hd : (scanned o t).catalog.get? h = some d) (hbinary : References.isBinary d = false)
    {i : Nat} {before : Signal} (hbefore : (signals d)[i]? = some before) :
    ∃ x : AnnotatedSignal o t t', x.handle = h ∧ x.position = i ∧ x.before = before := by
  obtain ⟨channel, hchannel, hget⟩ :=
    w.get?_placed hwf hsim hyaml hsave hrules hpolicy hh hd hbinary
  have hafter : (signals (d.mapSignals (·.map (References.placeSignal rules table channel))))[i]?
      = some (References.placeSignal rules table channel before) := by
    rw [signals_mapSignals, List.getElem?_map, hbefore]
    rfl
  exact ⟨⟨h, d, _, i, before, _, channel, hh, hd, hget, hbinary, hchannel, hbefore, hafter⟩,
    rfl, rfl, rfl⟩

theorem after_eq (x : AnnotatedSignal o t t') : x.after = References.given rules
    (References.place? table x.channel x.before) x.before := by
  obtain ⟨channel, hchannel, hget⟩ :=
    w.get?_placed hwf hsim hyaml hsave hrules hpolicy x.selected x.found x.notBinary
  rw [x.wired] at hchannel
  cases hchannel
  rw [x.found'] at hget
  have hsignal := x.signal'
  rw [Option.some.inj hget, signals_mapSignals, List.getElem?_map, x.signal] at hsignal
  rw [← References.placeSignal_eq]
  exact (Option.some.inj hsignal).symm

/-- A signal that is referred has a place, and it is the signal's reference. -/
theorem exists_place_of_isReferred {x : AnnotatedSignal o t t'} (hx : x.IsReferred rules) :
    ∃ channel n, x.channel = some channel ∧ table.lookup channel x.before.name = some n
      ∧ x.after = References.given rules (some n) x.before := by
  obtain ⟨channel, hchannel⟩ := Option.ne_none_iff_exists'.mp hx.2
  have hwired := x.wired
  rw [hchannel] at hwired
  have hmem : x.group ∈ ((scanned o t).catalog.selected o.signalGroups).filterMap
      (scanned o t).catalog.get? := List.mem_filterMap.mpr ⟨x.handle, x.selected, x.found⟩
  obtain ⟨g, hg⟩ := Document.signalGroup?_of_kind
    (((refines_read hwf).kind x.found).trans (Catalog.mem_selected.mp x.selected).1)
  have hsignal := x.signal
  rw [signals_eq hg] at hsignal
  obtain ⟨n, hn⟩ := OffsetTable.place_of_compile (w.tabled hpolicy).compiled hmem hg hwired
    (List.mem_of_getElem? hsignal)
  refine ⟨channel, n, hchannel, hn, ?_⟩
  rw [w.after_eq hwf hsim hyaml hsave hrules hpolicy x, hchannel]
  change References.given rules (table.lookup channel x.before.name) x.before = _
  rw [hn]

/-- A signal agrees with the documents of the table. -/
theorem agrees (x : AnnotatedSignal o t t') :
    x.Agrees rules (Listing.filed o.indexFile table.documents) := by
  have hafter := w.after_eq hwf hsim hyaml hsave hrules hpolicy x
  refine ⟨?_, fun hx channel hchannel => ?_, fun hx => ?_⟩
  · rw [hafter, References.name_given]
  · obtain ⟨channel', n, hchannel', hn, hgiven⟩ :=
      w.exists_place_of_isReferred hwf hsim hyaml hsave hrules hpolicy hx
    rw [hchannel] at hchannel'
    cases hchannel'
    have hindex := OffsetTable.offsetIn?_documents hn
    have hfiled := OffsetTable.offsetIn?_map (f := fun d => { d with file := some o.indexFile })
      (fun _ => rfl) (fun _ => rfl) table.documents channel x.before.name
    have hget := References.get?_given rules x.before (n := n) hx.1
    rw [← hgiven] at hget
    exact ⟨n, hfiled.trans hindex, hget⟩
  · rw [hafter]
    -- it is no input or output, or its group has no channel
    by_cases hqualifies : qualifies (rules.apply x.before.annotations) = true
    · have hchannel : x.channel = none := by
        by_contra hne
        exact hx ⟨hqualifies, hne⟩
      rw [hchannel]
      exact References.given_none rules x.before
    · exact References.given_of_not_qualifies rules _ x.before
        (Bool.eq_false_iff.mpr hqualifies)

/-- References are the same where channel and name are, and only there. -/
theorem reference?_eq_iff {x y : AnnotatedSignal o t t'} (hx : x.IsReferred rules)
    (hy : y.IsReferred rules) : x.reference? = y.reference?
      ↔ x.channel = y.channel ∧ x.before.name = y.before.name := by
  obtain ⟨channel, n, hchannel, hn, hgiven⟩ :=
    w.exists_place_of_isReferred hwf hsim hyaml hsave hrules hpolicy hx
  obtain ⟨channel', n', hchannel', hn', hgiven'⟩ :=
    w.exists_place_of_isReferred hwf hsim hyaml hsave hrules hpolicy hy
  have hget := (References.get?_given rules x.before (n := n) hx.1).1
  have hget' := (References.get?_given rules y.before (n := n') hy.1).1
  rw [AnnotatedSignal.reference?, AnnotatedSignal.reference?, hgiven, hgiven', hget, hget',
    hchannel, hchannel']
  -- places are given once, so the same place comes from the same entry of the table
  constructor
  · intro heq
    have hint : (n : Int) = n' := by simpa [Yaml.Value.ofNat] using heq
    have hplace : n = n' := by omega
    subst hplace
    obtain ⟨rfl, hname⟩ :=
      OffsetTable.place_inj_of_compile (w.tabled hpolicy).compiled hn hn'
    exact ⟨rfl, hname⟩
  · rintro ⟨heq, hname⟩
    cases heq
    rw [hname, hn'] at hn
    cases hn
    rfl

end Preparation

/-! ## What a run leaves -/

/-- After a run that writes an offset table, every signal of every selected group that
is not binary is there, and all of them agree with the table that is in its file: an
input or output of a wired group has the table's place for its name in the channel,
its type and its name as annotations, any other signal gets no reference, and two
references are the same exactly when channel and name are. -/
theorem annotate_agrees {o : Options} {t : FileTree} {rules : RuleSet}
    {summary : Summary} {s : State} (hwf : t.WellFormed) (hindex : o.index = true)
    (hrules : RuleSet.select t o.rules o.ruleSet = .ok (some rules))
    (hyaml : ∀ p ∈ (on t (prepare o)).1.toOption, p.GivesBack)
    (hrun : on t (annotate o) = (.ok summary, s)) :
    (∀ h ∈ (scanned o t).catalog.selected o.signalGroups, ∀ d,
        (scanned o t).catalog.get? h = some d → References.isBinary d = false →
        ∀ i before, (signals d)[i]? = some before → ∃ x : AnnotatedSignal o t s.tree,
          x.handle = h ∧ x.position = i ∧ x.before = before)
      ∧ ∃ index, Document.load s.tree o.indexFile = .ok index
        ∧ (∀ x : AnnotatedSignal o t s.tree, x.Agrees rules index)
        ∧ ∀ x y : AnnotatedSignal o t s.tree, x.IsReferred rules → y.IsReferred rules →
          (x.reference? = y.reference?
            ↔ x.channel = y.channel ∧ x.before.name = y.before.name) := by
  obtain ⟨w, hprogress, -, hsave⟩ := exists_preparation hrun
  obtain ⟨place, hsim⟩ := w.exists_place
  have hyaml := hyaml w.progress hprogress
  obtain ⟨table, -, hpolicy, -, -⟩ := w.written hwf hsim hindex
  have hrules : w.rules? = some rules := Except.ok.inj (w.selects.symm.trans hrules)
  refine ⟨fun h hh d hd hbinary i before hbefore => ?_,
    Listing.filed o.indexFile table.documents, ?_, ?_, ?_⟩
  · exact w.exists_annotatedSignal hwf hsim hyaml hsave hrules hpolicy hh hd hbinary hbefore
  · exact w.load_indexFile_saved hwf hsim hyaml hsave (by rw [hpolicy]; rfl) (.refl _)
  · exact w.agrees hwf hsim hyaml hsave hrules hpolicy
  · exact fun x y => w.reference?_eq_iff hwf hsim hyaml hsave hrules hpolicy

/-- The groups of the sample with their channels. -/
def Sample.wired : List (Handle × Document × String) :=
  [(⟨.signalGroup, 0⟩, { first with file := some ⟨"/b.yml"⟩ }, "c"),
    (⟨.signalGroup, 1⟩, { second with file := some ⟨"/sub/c.yml"⟩ }, "d")]

/-- Both groups have an input of the same name in front. -/
theorem Sample.input_of_wired : ∀ x ∈ wired, x.1 ∈ catalog.selected options.signalGroups
    ∧ catalog.get? x.1 = some x.2.1 ∧ References.isBinary x.2.1 = false
    ∧ (signals x.2.1)[0]? = some (signal "a" "input")
    ∧ Wiring.channel? catalog x.2.1 = .ok (some x.2.2) := by
  decide +kernel

/-- The inputs of one name in the two channels of the sample carry what the table says,
each its own place. -/
theorem annotate_agrees_sample : ∃ summary s index,
    on Sample.tree (annotate Sample.options) = (.ok summary, s)
      ∧ Document.load s.tree Sample.options.indexFile = .ok index
      ∧ ∃ x y : AnnotatedSignal Sample.options Sample.tree s.tree,
        x.before = Sample.signal "a" "input" ∧ y.before = Sample.signal "a" "input"
          ∧ x.channel = some "c" ∧ y.channel = some "d"
          ∧ x.IsReferred Sample.rules ∧ y.IsReferred Sample.rules
          ∧ x.Agrees Sample.rules index ∧ y.Agrees Sample.rules index
          ∧ x.reference? ≠ y.reference? := by
  obtain ⟨summary, s, hrun, hyaml, -⟩ := Sample.runs
  obtain ⟨hall, index, hindex, hagrees, hdistinct⟩ :=
    annotate_agrees Sample.wellFormed rfl Sample.selects hyaml hrun
  -- both groups have an input in front and a channel
  have hinput : ∀ g ∈ Sample.wired, ∃ x : AnnotatedSignal Sample.options Sample.tree s.tree,
      x.before = Sample.signal "a" "input" ∧ x.channel = some g.2.2
        ∧ x.IsReferred Sample.rules := by
    intro g hg
    obtain ⟨hselected, hget, hbinary, hsignal, hchannel⟩ := Sample.input_of_wired g hg
    rw [← Sample.catalog_scanned] at hselected hget hchannel
    obtain ⟨x, hhandle, -, hbefore⟩ := hall _ hselected _ hget hbinary 0 _ hsignal
    have hwired := x.channel_eq (by rw [hhandle, hget]) hchannel
    refine ⟨x, hbefore, hwired, ?_, ?_⟩
    · rw [hbefore]
      decide
    · rw [hwired]
      exact nofun
  obtain ⟨x, hbefore, hchannel, hx⟩ := hinput _ List.mem_cons_self
  obtain ⟨y, hbefore', hchannel', hy⟩ := hinput _ (List.mem_cons_of_mem _ List.mem_cons_self)
  refine ⟨summary, s, index, hrun, hindex, x, y, hbefore, hbefore', hchannel, hchannel', hx, hy,
    hagrees x, hagrees y, fun heq => ?_⟩
  have hsame := ((hdistinct x y hx hy).mp heq).1
  rw [hchannel, hchannel'] at hsame
  exact absurd (Option.some.inj hsame) (by decide)

end SimAnnotate.Run
