import SimAnnotate.References
import SimAnnotate.StackSummary

/-!
# What stays of a document

Labels and annotations of a document can change while it is in a catalog, and so
can the annotations of its signals; nothing else ever does. `Document.outline` is
what is left without annotations, `Document.bare` what is left without labels
as well. Giving references and summarising keep the outline.
-/

namespace SimAnnotate

namespace Signal

/-- The signal without its annotations. -/
def outline (s : Signal) : Signal := { s with annotations := ∅ }

end Signal

namespace Document

/-- The document without its annotations and those of its signals. -/
def outline (d : Document) : Document :=
  (d.withAnnotations ∅).mapSignals (·.map Signal.outline)

/-- The outline without labels. -/
def bare (d : Document) : Document := d.outline.withLabels ∅

/-! ## Changes, field by field -/

section

variable (d : Document) (f : List Signal → List Signal)

@[simp] theorem metadata_mapSignals : (d.mapSignals f).metadata = d.metadata := by
  cases d with | mk m spec file => cases spec <;> rfl

@[simp] theorem file_mapSignals : (d.mapSignals f).file = d.file := by
  cases d with | mk m spec file => cases spec <;> rfl

@[simp] theorem kind_mapSignals : (d.mapSignals f).kind = d.kind := by
  cases d with | mk m spec file => cases spec <;> rfl

@[simp] theorem name_mapSignals : (d.mapSignals f).name = d.name := by
  simp [name]

@[simp] theorem stack?_mapSignals : (d.mapSignals f).stack? = d.stack? := by
  cases d with | mk m spec file => cases spec <;> rfl

@[simp] theorem model?_mapSignals : (d.mapSignals f).model? = d.model? := by
  cases d with | mk m spec file => cases spec <;> rfl

@[simp] theorem signalGroup?_mapSignals :
    (d.mapSignals f).signalGroup?
      = d.signalGroup?.map fun g => { g with signals := f g.signals } := by
  cases d with | mk m spec file => cases spec <;> rfl

@[simp] theorem withAnnotations_mapSignals (a : Annotations) :
    (d.mapSignals f).withAnnotations a = (d.withAnnotations a).mapSignals f := by
  cases d with | mk m spec file => cases spec <;> rfl

theorem mapSignals_mapSignals (g : List Signal → List Signal) :
    (d.mapSignals f).mapSignals g = d.mapSignals fun s => g (f s) := by
  cases d with | mk m spec file => cases spec <;> rfl

theorem mapSignals_congr {f g : List Signal → List Signal}
    (h : ∀ x, d.signalGroup? = some x → f x.signals = g x.signals) :
    d.mapSignals f = d.mapSignals g := by
  obtain ⟨m, spec, file⟩ := d
  cases spec with
  | signalGroup x => simp only [mapSignals, h x rfl]
  | stack s => rfl
  | model m => rfl
  | other k v => rfl

end

section

variable (d : Document) (a : Annotations)

@[simp] theorem kind_withAnnotations : (d.withAnnotations a).kind = d.kind := rfl

@[simp] theorem name_withAnnotations : (d.withAnnotations a).name = d.name := rfl

@[simp] theorem file_withAnnotations : (d.withAnnotations a).file = d.file := rfl

@[simp] theorem stack?_withAnnotations :
    (d.withAnnotations a).stack? = d.stack? := rfl

@[simp] theorem model?_withAnnotations :
    (d.withAnnotations a).model? = d.model? := rfl

@[simp] theorem signalGroup?_withAnnotations :
    (d.withAnnotations a).signalGroup? = d.signalGroup? := rfl

@[simp] theorem labels_withAnnotations :
    (d.withAnnotations a).metadata.labels = d.metadata.labels := rfl

end

/-! ## What the outline shows -/

section

variable (d : Document)

@[simp] theorem kind_outline : d.outline.kind = d.kind := by simp [outline]

@[simp] theorem name_outline : d.outline.name = d.name := by simp [outline]

@[simp] theorem file_outline : d.outline.file = d.file := by simp [outline]

@[simp] theorem labels_outline :
    d.outline.metadata.labels = d.metadata.labels := by simp [outline]

@[simp] theorem stack?_outline : d.outline.stack? = d.stack? := by
  simp [outline]

@[simp] theorem model?_outline : d.outline.model? = d.model? := by
  simp [outline]

@[simp] theorem signalGroup?_outline :
    d.outline.signalGroup? = d.signalGroup?.map fun g =>
      { g with signals := g.signals.map Signal.outline } := by
  simp [outline]

@[simp] theorem kind_bare : d.bare.kind = d.kind := d.kind_outline

@[simp] theorem file_bare : d.bare.file = d.file := d.file_outline

end

theorem outline_withAnnotations (d : Document) (a : Annotations) :
    (d.withAnnotations a).outline = d.outline := by
  simp [outline, withAnnotations]

/-- New signals keep the outline when they keep their own. -/
theorem outline_mapSignals {d : Document} {g : SignalGroup}
    (hg : d.signalGroup? = some g) {signals : List Signal}
    (h : signals.map Signal.outline = g.signals.map Signal.outline) :
    (d.mapSignals fun _ => signals).outline = d.outline := by
  rw [outline, outline, withAnnotations_mapSignals, mapSignals_mapSignals]
  refine mapSignals_congr _ fun x hx => ?_
  rw [signalGroup?_withAnnotations, hg] at hx
  cases hx
  exact h

theorem bare_of_outline {d d' : Document} (h : d.outline = d'.outline) :
    d.bare = d'.bare := by rw [bare, bare, h]

theorem kind_of_bare {d d' : Document} (h : d.bare = d'.bare) :
    d.kind = d'.kind := by rw [← d.kind_bare, h, d'.kind_bare]

theorem file_of_bare {d d' : Document} (h : d.bare = d'.bare) :
    d.file = d'.file := by rw [← d.file_bare, h, d'.file_bare]

/-- A document of the kind of Stacks is one. -/
theorem stack?_of_kind {d : Document} (h : d.kind = .stack) : ∃ s, d.stack? = some s := by
  obtain ⟨m, spec, file⟩ := d
  cases spec with
  | stack s => exact ⟨s, rfl⟩
  | signalGroup g => cases h
  | model m => cases h
  | other k v => cases h

/-- A document of the kind of signal groups is one. -/
theorem signalGroup?_of_kind {d : Document} (h : d.kind = .signalGroup) :
    ∃ g, d.signalGroup? = some g := by
  obtain ⟨m, spec, file⟩ := d
  cases spec with
  | signalGroup g => exact ⟨g, rfl⟩
  | stack s => cases h
  | model m => cases h
  | other k v => cases h

end Document

/-! ## References and summaries -/

namespace References

@[simp] theorem outline_applySignal (rules : RuleSet) (s : Signal) :
    (rules.applySignal s).outline = s.outline := rfl

@[simp] theorem outline_refer (s : Signal) (n : Nat) :
    (refer s n).outline = s.outline := rfl

theorem outline_placeSignal (rules : RuleSet) (t : OffsetTable)
    (channel : Option String) (s : Signal) :
    (placeSignal rules t channel s).outline = s.outline := by
  unfold placeSignal
  dsimp only
  split
  · split <;> simp
  · simp

theorem outline_countSignals (rules : RuleSet) (last : Nat)
    (signals : List Signal) :
    (countSignals rules last signals).1.map Signal.outline
      = signals.map Signal.outline := by
  induction signals generalizing last with
  | nil => rfl
  | cons s rest ih =>
      unfold countSignals
      dsimp only
      split <;> simp [ih]

/-- Giving references changes annotations only. -/
theorem outline_referSignals (rules : RuleSet) (channel : Option String)
    (signals : List Signal) (policy : ReferencePolicy) :
    (referSignals rules channel signals policy).signals.map Signal.outline
      = signals.map Signal.outline := by
  cases policy with
  | counter last => exact outline_countSignals rules last signals
  | table t =>
      simp only [referSignals, List.map_map]
      exact List.map_congr_left fun s _ => outline_placeSignal rules t channel s

end References

theorem StackSummary.outline_summarise (files : List String) (d : Document) :
    (summarise files d).outline = d.outline :=
  Document.outline_withAnnotations d _

end SimAnnotate
