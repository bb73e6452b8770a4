import SimAnnotate.Proofs.Document.Outline

/-!
# What wiring and offset tables need of a document

`Document.core` is what is left of a document without annotations, without the fields
that its records do not know and without its file: names, labels, channels and the names
of signals. Documents with the same outline have the same core.
-/

namespace SimAnnotate

def Channel.core (ch : Channel) : Channel := { ch with extra := ∅ }

namespace Model

def core (m : Model) : Model := ⟨m.channels.map (·.map Channel.core), ∅⟩

end Model

namespace ModelInstance

def core (i : ModelInstance) : ModelInstance :=
  ⟨i.name, ⟨i.model.name, ∅⟩, i.channels.map (·.map Channel.core), ∅⟩

end ModelInstance

namespace Stack

def core (s : Stack) : Stack := ⟨s.models.map (·.map ModelInstance.core), ∅⟩

end Stack

def Signal.core (s : Signal) : Signal := .ofName s.name

namespace SignalGroup

def core (g : SignalGroup) : SignalGroup := ⟨g.signals.map Signal.core, ∅⟩

end SignalGroup

/-- Documents of kinds that are not known are all core. -/
def Spec.core : Spec → Spec
  | .stack s => .stack s.core
  | .signalGroup g => .signalGroup g.core
  | .model m => .model m.core
  | .other k v => .other k v

namespace Document

def core (d : Document) : Document :=
  ⟨⟨d.metadata.name, d.metadata.labels, ∅⟩, d.spec.core, none⟩

variable (d : Document)

@[simp] theorem name_core : d.core.name = d.name := rfl

@[simp] theorem labels_core : d.core.metadata.labels = d.metadata.labels := rfl

@[simp] theorem signalGroup?_core :
    d.core.signalGroup? = d.signalGroup?.map SignalGroup.core := by
  cases d with | mk m spec file => cases spec <;> rfl

@[simp] theorem core_outline : d.outline.core = d.core := by
  obtain ⟨m, spec, file⟩ := d
  cases spec with
  | signalGroup g =>
      have hsignals : (g.signals.map Signal.outline).map Signal.core
          = g.signals.map Signal.core := by
        rw [List.map_map]
        rfl
      change Document.mk _ (.signalGroup ⟨(g.signals.map _).map _, ∅⟩) none = _
      rw [hsignals]
      rfl
  | stack s => rfl
  | model m => rfl
  | other k v => rfl

variable {d}

theorem core_of_outline {d' : Document} (h : d'.outline = d.outline) : d'.core = d.core := by
  rw [← core_outline, h, core_outline]

theorem map_core_of_outline {ds ds' : List Document}
    (h : ds'.map outline = ds.map outline) : ds'.map core = ds.map core := by
  have hcore : ∀ ds : List Document, (ds.map outline).map core = ds.map core := fun ds => by
    rw [List.map_map]
    exact List.map_congr_left fun d _ => d.core_outline
  rw [← hcore, h, hcore]

end Document

end SimAnnotate
