import SimAnnotate.Document.Text
import SimAnnotate.Proofs.Document.Record

/-!
# Documents as they are read

A document is sound when no value in it repeats a key and no field that a
record does not know has the name of one that it does, or a tag. These are the
documents that reading gives (`Document.sound_of_parse`), and the ones that can
be written and read again.
-/

namespace SimAnnotate

open Yaml (Value)
open Decode (channelRecord modelRecord referenceRecord instanceRecord stackRecord
  signalRecord signalGroupRecord metadataRecord frameRecord)

/-! ## Sound records -/

/-- No value repeats a key. -/
def Annotations.Sound (a : Annotations) : Prop :=
  ∀ key v, a.get? key = some v → v.repeatsKey = false

namespace Annotations

theorem sound_empty : Sound ∅ := nofun

theorem Sound.insert {a : Annotations} (h : Sound a) (key : String) {v : Value}
    (hv : v.repeatsKey = false) : Sound (OrderedMap.insert a key v) := by
  intro key' v' hv'
  by_cases hkey : key' = key
  · rw [hkey, OrderedMap.get?_insert_self] at hv'
    cases hv'
    exact hv
  · rw [OrderedMap.get?_insert_ne a v hkey] at hv'
    exact h key' v' hv'

theorem Sound.insertAll {a : Annotations} (ha : Sound a) {es : List (String × Value)}
    (h : ∀ e ∈ es, e.2.repeatsKey = false) : Sound (OrderedMap.insertAll a es) := by
  induction es generalizing a with
  | nil => exact ha
  | cons e rest ih =>
      exact ih (ha.insert e.1 (h e List.mem_cons_self))
        fun e he => h e (List.mem_cons_of_mem _ he)

end Annotations

def Channel.Sound (c : Channel) : Prop := channelRecord.Keeps c.extra

structure Model.Sound (m : Model) : Prop where
  channels : ∀ c ∈ m.channelList, c.Sound
  extra : modelRecord.Keeps m.extra

def ModelReference.Sound (r : ModelReference) : Prop := referenceRecord.Keeps r.extra

structure ModelInstance.Sound (i : ModelInstance) : Prop where
  model : i.model.Sound
  channels : ∀ c ∈ i.channelList, c.Sound
  extra : instanceRecord.Keeps i.extra

structure Stack.Sound (s : Stack) : Prop where
  instances : ∀ i ∈ s.instances, i.Sound
  extra : stackRecord.Keeps s.extra

structure Signal.Sound (s : Signal) : Prop where
  annotations : Annotations.Sound s.annotations
  extra : signalRecord.Keeps s.extra

structure SignalGroup.Sound (g : SignalGroup) : Prop where
  signals : ∀ s ∈ g.signals, s.Sound
  extra : signalGroupRecord.Keeps g.extra

def Spec.Sound : Spec → Prop
  | .stack s => s.Sound
  | .signalGroup g => g.Sound
  | .model m => m.Sound
  | .other _ _ => True

structure Document.Sound (d : Document) : Prop where
  annotations : Annotations.Sound d.metadata.annotations
  spec : d.spec.Sound

/-! ## Changes of sound documents -/

namespace Document.Sound

variable {d : Document} (h : d.Sound)

include h

theorem group {g : SignalGroup} (hg : d.signalGroup? = some g) : g.Sound := by
  have hspec := h.spec
  obtain ⟨m, spec, file⟩ := d
  cases spec with
  | signalGroup g' =>
      cases hg
      exact hspec
  | stack s => cases hg
  | model m => cases hg
  | other k v => cases hg

theorem mapSignals {f : List Signal → List Signal}
    (hf : ∀ g, d.signalGroup? = some g → ∀ s ∈ f g.signals, s.Sound) :
    (d.mapSignals f).Sound := by
  have hgroup := fun g => h.group (g := g)
  obtain ⟨m, spec, file⟩ := d
  cases spec with
  | signalGroup g => exact ⟨h.annotations, hf g rfl, (hgroup g rfl).extra⟩
  | stack s => exact h
  | model m => exact h
  | other k v => exact h

theorem withAnnotations {a : Annotations} (ha : Annotations.Sound a) :
    (d.withAnnotations a).Sound := ⟨ha, h.spec⟩

end Document.Sound

/-! ## What is read is sound -/

namespace Decode

theorem repeatsKey_of_value {v w : Value} (h : value v = .ok w) :
    w.repeatsKey = false := by
  unfold value at h
  split at h
  · cases h
  · next hrep =>
      cases h
      exact Bool.eq_false_iff.mpr hrep

theorem sound_of_map {v : Value} {a : Annotations} (h : map v = .ok a) :
    Annotations.Sound a := by
  unfold map at h
  split at h
  · obtain ⟨es, hes, rfl⟩ := Except.map_eq_ok.mp h
    refine Annotations.sound_empty.insertAll fun e he => ?_
    obtain ⟨e', -, hentry⟩ := List.exists_of_mem_mapM hes he
    obtain ⟨key, -, hentry⟩ := Except.bind_eq_ok.mp hentry
    obtain ⟨w, hw, hentry⟩ := Except.bind_eq_ok.mp hentry
    cases hentry
    exact repeatsKey_of_value hw
  · cases h
    exact Annotations.sound_empty
  · cases h

/-- What holds of every item that is read holds of a sequence's. -/
theorem forall_of_sequence {α : Type} {P : α → Prop} {read : Value → Decoded α}
    (hread : ∀ v x, v.repeatsKey = false → read v = .ok x → P x)
    {v : Value} {xs : List α} (hv : v.repeatsKey = false)
    (h : sequence read v = .ok xs) : ∀ x ∈ xs, P x := by
  unfold sequence at h
  rw [← Value.repeatsKey_untag] at hv
  split at h
  · next vs hvs =>
      rw [hvs] at hv
      intro x hx
      obtain ⟨w, hw, hwx⟩ := List.exists_of_mem_mapM h hx
      exact hread w x (Value.repeatsKey_sequence.mp hv w hw) hwx
  · cases h
    simp
  · cases h

theorem forall_of_optional {α : Type} {P : α → Prop} {read : Value → Decoded α}
    {v : Value} (hread : ∀ x, read v = .ok x → P x) {o : Option α}
    (h : optional read v = .ok o) : ∀ x ∈ o, P x := by
  unfold optional at h
  split at h
  · cases h
    simp
  · obtain ⟨x, hx, rfl⟩ := Except.map_eq_ok.mp h
    intro x' hx'
    cases hx'
    exact hread x hx

theorem sound_of_channelRecord {v : Value} {c : Channel} (hv : v.repeatsKey = false)
    (h : channelRecord.read v = .ok c) : c.Sound := by
  refine Record.read_induction_of_repeatsKey hv h
    Record.keeps_empty ?_ ?_
  · intro name read v x y hfield _ hx hy
    simp only [channelRecord] at hfield
    split at hfield <;> cases hfield
    all_goals
      obtain ⟨o, -, hy⟩ := Except.bind_eq_ok.mp hy
      cases hy
      exact hx
  · intro keep name v x hkeep hfield htag hrep hx
    cases hkeep
    exact hx.insert hfield htag hrep

/-- Channels that are read are sound. -/
theorem sound_of_channels {v : Value} {cs : Option (List Channel)}
    (hv : v.repeatsKey = false) (h : channels v = .ok cs) :
    ∀ c ∈ cs.getD [], c.Sound := by
  have hsome := forall_of_optional
    (fun cs hcs => forall_of_sequence (fun v c hv hc => sound_of_channelRecord hv hc)
      hv hcs) h
  cases cs with
  | none => simp
  | some cs => exact hsome cs rfl

theorem sound_of_modelRecord {v : Value} {m : Model} (hv : v.repeatsKey = false)
    (h : modelRecord.read v = .ok m) : m.Sound := by
  refine Record.read_induction_of_repeatsKey hv h
    ⟨fun _ hmem => absurd hmem List.not_mem_nil, Record.keeps_empty⟩ ?_ ?_
  · intro name read v x y hfield hrep hx hy
    simp only [modelRecord] at hfield
    split at hfield <;> cases hfield
    obtain ⟨cs, hcs, hy⟩ := Except.bind_eq_ok.mp hy
    cases hy
    exact ⟨sound_of_channels hrep hcs, hx.extra⟩
  · intro keep name v x hkeep hfield htag hrep hx
    cases hkeep
    exact ⟨hx.channels, hx.extra.insert hfield htag hrep⟩

theorem sound_of_referenceRecord {v : Value} {r : ModelReference}
    (hv : v.repeatsKey = false) (h : referenceRecord.read v = .ok r) : r.Sound := by
  refine Record.read_induction_of_repeatsKey hv h
    Record.keeps_empty ?_ ?_
  · intro name read v x y hfield _ hx hy
    simp only [referenceRecord] at hfield
    split at hfield <;> cases hfield
    obtain ⟨s, -, hy⟩ := Except.bind_eq_ok.mp hy
    cases hy
    exact hx
  · intro keep name v x hkeep hfield htag hrep hx
    cases hkeep
    exact hx.insert hfield htag hrep

theorem sound_of_instanceRecord {v : Value} {i : ModelInstance}
    (hv : v.repeatsKey = false) (h : instanceRecord.read v = .ok i) : i.Sound := by
  refine Record.read_induction_of_repeatsKey hv h
    ⟨Record.keeps_empty, fun _ hmem => absurd hmem List.not_mem_nil,
      Record.keeps_empty⟩ ?_ ?_
  · -- a field brings what is sound and leaves the other two
    intro name read v x y hfield hrep hx hy
    simp only [instanceRecord] at hfield
    split at hfield <;> cases hfield
    · obtain ⟨s, -, hy⟩ := Except.bind_eq_ok.mp hy
      cases hy
      exact ⟨hx.model, hx.channels, hx.extra⟩
    · obtain ⟨r, hr, hy⟩ := Except.bind_eq_ok.mp hy
      cases hy
      exact ⟨sound_of_referenceRecord hrep hr, hx.channels, hx.extra⟩
    · obtain ⟨cs, hcs, hy⟩ := Except.bind_eq_ok.mp hy
      cases hy
      exact ⟨hx.model, sound_of_channels hrep hcs, hx.extra⟩
  · intro keep name v x hkeep hfield htag hrep hx
    cases hkeep
    exact ⟨hx.model, hx.channels, hx.extra.insert hfield htag hrep⟩

theorem sound_of_stackRecord {v : Value} {s : Stack} (hv : v.repeatsKey = false)
    (h : stackRecord.read v = .ok s) : s.Sound := by
  refine Record.read_induction_of_repeatsKey hv h
    ⟨fun _ hmem => absurd hmem List.not_mem_nil, Record.keeps_empty⟩ ?_ ?_
  · intro name read v x y hfield hrep hx hy
    simp only [stackRecord] at hfield
    split at hfield <;> cases hfield
    obtain ⟨is, his, hy⟩ := Except.bind_eq_ok.mp hy
    cases hy
    have hsome := forall_of_optional
      (fun is his => forall_of_sequence
        (fun v i hv hi => sound_of_instanceRecord hv hi) hrep his) his
    refine ⟨?_, hx.extra⟩
    cases is with
    | none => simp [Stack.instances]
    | some is => exact hsome is rfl
  · intro keep name v x hkeep hfield htag hrep hx
    cases hkeep
    exact ⟨hx.instances, hx.extra.insert hfield htag hrep⟩

theorem sound_of_signalRecord {v : Value} {s : Signal} (hv : v.repeatsKey = false)
    (h : signalRecord.read v = .ok s) : s.Sound := by
  refine Record.read_induction_of_repeatsKey hv h
    ⟨Annotations.sound_empty, Record.keeps_empty⟩ ?_ ?_
  · intro name read v x y hfield _ hx hy
    simp only [signalRecord] at hfield
    split at hfield <;> cases hfield
    · obtain ⟨s, -, hy⟩ := Except.bind_eq_ok.mp hy
      cases hy
      exact ⟨hx.annotations, hx.extra⟩
    · obtain ⟨a, ha, hy⟩ := Except.bind_eq_ok.mp hy
      cases hy
      exact ⟨sound_of_map ha, hx.extra⟩
  · intro keep name v x hkeep hfield htag hrep hx
    cases hkeep
    exact ⟨hx.annotations, hx.extra.insert hfield htag hrep⟩

theorem sound_of_signalGroupRecord {v : Value} {g : SignalGroup}
    (hv : v.repeatsKey = false) (h : signalGroupRecord.read v = .ok g) : g.Sound := by
  refine Record.read_induction_of_repeatsKey hv h
    ⟨fun _ hmem => absurd hmem List.not_mem_nil, Record.keeps_empty⟩ ?_ ?_
  · intro name read v x y hfield hrep hx hy
    simp only [signalGroupRecord] at hfield
    split at hfield <;> cases hfield
    obtain ⟨ss, hss, hy⟩ := Except.bind_eq_ok.mp hy
    cases hy
    exact ⟨forall_of_sequence (fun v s hv hs => sound_of_signalRecord hv hs) hrep hss,
      hx.extra⟩
  · intro keep name v x hkeep hfield htag hrep hx
    cases hkeep
    exact ⟨hx.signals, hx.extra.insert hfield htag hrep⟩

theorem sound_of_spec {kind : String} {v : Value} {s : Spec}
    (hv : v.repeatsKey = false) (h : spec kind v = .ok s) : s.Sound := by
  unfold spec at h
  split at h
  · obtain ⟨s, hs, rfl⟩ := Except.map_eq_ok.mp h
    exact sound_of_stackRecord hv hs
  · obtain ⟨g, hg, rfl⟩ := Except.map_eq_ok.mp h
    exact sound_of_signalGroupRecord hv hg
  · obtain ⟨m, hm, rfl⟩ := Except.map_eq_ok.mp h
    exact sound_of_modelRecord hv hm
  · cases h
    trivial

theorem sound_of_metadataRecord {v : Value} {m : Metadata}
    (h : metadataRecord.read v = .ok m) : Annotations.Sound m.annotations := by
  refine Record.read_induction (P := fun m : Metadata =>
    Annotations.Sound m.annotations) (Q := fun _ => True) ?_ ?_ h
    (fun _ _ _ _ => trivial) Annotations.sound_empty
  · -- name and labels leave the annotations
    intro name read v x y hfield _ hx hy
    simp only [metadataRecord] at hfield
    split at hfield <;> cases hfield
    · obtain ⟨s, -, hy⟩ := Except.bind_eq_ok.mp hy
      cases hy
      exact hx
    · obtain ⟨l, -, hy⟩ := Except.bind_eq_ok.mp hy
      cases hy
      exact hx
    · obtain ⟨a, ha, hy⟩ := Except.bind_eq_ok.mp hy
      cases hy
      exact sound_of_map ha
  · intro keep name v x hkeep
    cases hkeep

/-- What a frame holds. -/
structure Frame.Sound (f : Frame) : Prop where
  metadata : ∀ m ∈ f.metadata, Annotations.Sound m.annotations
  spec : f.spec.repeatsKey = false

theorem sound_of_frameRecord {v : Value} {f : Frame}
    (h : frameRecord.read v = .ok f) : f.Sound := by
  refine Record.read_induction (P := Frame.Sound) (Q := fun _ => True) ?_ ?_ h
    (fun _ _ _ _ => trivial) ⟨by simp [frameRecord], rfl⟩
  · intro name read v x y hfield _ hx hy
    simp only [frameRecord] at hfield
    split at hfield <;> cases hfield
    · obtain ⟨o, -, hy⟩ := Except.bind_eq_ok.mp hy
      cases hy
      exact ⟨hx.metadata, hx.spec⟩
    · obtain ⟨o, ho, hy⟩ := Except.bind_eq_ok.mp hy
      cases hy
      exact ⟨forall_of_optional (fun m hm => sound_of_metadataRecord hm) ho, hx.spec⟩
    · obtain ⟨w, hw, hy⟩ := Except.bind_eq_ok.mp hy
      cases hy
      exact ⟨hx.metadata, repeatsKey_of_value hw⟩
  · intro keep name v x hkeep
    cases hkeep

end Decode

namespace Document

theorem sound_of_ofValue {n : Nat} {v : Value} {d : Document}
    (h : ofValue n v = .ok d) : d.Sound ∧ d.file = none := by
  obtain ⟨f, hf, h⟩ := Except.bind_eq_ok.mp h
  have hframe := Decode.sound_of_frameRecord (Except.mapError_eq_ok.mp hf)
  split at h
  · cases h
  · obtain ⟨s, hs, h⟩ := Except.bind_eq_ok.mp h
    cases h
    refine ⟨⟨?_, Decode.sound_of_spec hframe.spec (Except.mapError_eq_ok.mp hs)⟩, rfl⟩
    cases hm : f.metadata with
    | none => exact Annotations.sound_empty
    | some m => exact hframe.metadata m hm

/-- What is read from a text is sound and in no file. -/
theorem sound_of_parse {text : String} {ds : List Document}
    (h : parse text = .ok ds) : ∀ d ∈ ds, d.Sound ∧ d.file = none := by
  obtain ⟨ds', hds, h⟩ := Except.bind_eq_ok.mp h
  split at h
  · cases h
    intro d hd
    obtain ⟨⟨v, n⟩, -, hv⟩ := List.exists_of_mem_mapM hds hd
    exact sound_of_ofValue hv
  · cases h

end Document

end SimAnnotate
