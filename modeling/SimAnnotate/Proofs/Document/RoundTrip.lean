import SimAnnotate.Proofs.Document.Sound

/-!
# Reading what a document is written as

A sound record, written and read, is the record again; this is shown from the
inside out, and `Document.ofValue_encode` says it of documents. Reading takes
tags over with one mark less each time, so what is written must be free of
marks to spare: a value that `dropMarks` leaves as it is.
-/

namespace SimAnnotate

open Yaml (Value)
open Decode (channelRecord modelRecord referenceRecord instanceRecord stackRecord
  signalRecord signalGroupRecord metadataRecord frameRecord)

/-! ## Values, sequences and maps -/

/-- No value has a mark to spare. -/
def Annotations.Taken (a : Annotations) : Prop :=
  ∀ key v, a.get? key = some v → v.dropMarks = v

namespace Decode

theorem value_eq_ok {v : Value} (hrep : v.repeatsKey = false)
    (htaken : v.dropMarks = v) : value v = .ok v := by
  rw [value, htaken, hrep]
  rfl

theorem map_encode {a : Annotations} (hsound : Annotations.Sound a)
    (htaken : Annotations.Taken a) : map (Encode.map a) = .ok a := by
  have hentry : ∀ e ∈ a.entries,
      mapEntry (.string e.1, e.2) = .ok e := by
    intro e he
    have hget := OrderedMap.mem_entries_iff.mp he
    unfold mapEntry
    dsimp only
    rw [value_eq_ok (hsound e.1 e.2 hget) (htaken e.1 e.2 hget)]
    rfl
  have hentries : (Encode.fields a).mapM mapEntry = .ok a.entries := by
    rw [Encode.fields, List.mapM_map]
    have h := List.mapM_eq_ok_map (g := id) hentry
    rwa [List.map_id] at h
  simp only [map, Encode.map, Value.untag]
  rw [hentries]
  exact congrArg Except.ok a.ofList_entries

theorem labels_encode (l : Labels) : labels (Encode.labels l) = .ok l := by
  have hvalues : ∀ key v, (l.map fun _ s => Value.string s).get? key = some v →
      ∃ s, v = .string s := by
    intro key v hv
    rw [OrderedMap.get?_map, Option.map_eq_some_iff] at hv
    obtain ⟨s, -, rfl⟩ := hv
    exact ⟨s, rfl⟩
  -- labels are written as a map of strings, and read as such a map first
  have hmap : map (Encode.labels l) = .ok (l.map fun _ s => Value.string s) := by
    have h := map_encode (a := l.map fun _ s => Value.string s)
      (fun key v hv => by
        obtain ⟨s, rfl⟩ := hvalues key v hv
        exact Value.repeatsKey_string s)
      (fun key v hv => by
        obtain ⟨s, rfl⟩ := hvalues key v hv
        rfl)
    rw [← h, Encode.map, Encode.fields, Encode.labels, OrderedMap.map, List.map_map]
    rfl
  have hlabels : (l.map fun _ s => Value.string s).entries.mapM label
      = .ok l.entries := by
    rw [OrderedMap.map, List.mapM_map]
    have hlabel : ∀ e ∈ l.entries, label (e.1, .string e.2) = .ok (id e) :=
      fun _ _ => rfl
    have h := List.mapM_eq_ok_map hlabel
    rwa [List.map_id] at h
  rw [labels, hmap, Except.ok_bind, hlabels, Except.ok_bind, OrderedMap.ofList_entries]
  rfl

theorem sequence_encode {α : Type} {read : Value → Decoded α} {encode : α → Value}
    {xs : List α} (h : ∀ x ∈ xs, read (encode x) = .ok x) :
    sequence read (.sequence (xs.map encode)) = .ok xs := by
  have h := List.mapM_eq_ok_map (g := id) h
  rw [List.map_id] at h
  simp only [sequence, Value.untag, List.mapM_map]
  exact h

end Decode

namespace Encode

theorem repeatsKey_map {a : Annotations} (h : Annotations.Sound a) :
    (map a).repeatsKey = false := by
  refine Value.repeatsKey_mapping (fun e he => ?_) (fun e he => ?_) ?_
  · obtain ⟨f, -, rfl⟩ := List.mem_map.mp he
    exact ⟨f.1, rfl⟩
  · obtain ⟨f, hf, rfl⟩ := List.mem_map.mp he
    exact h f.1 f.2 (OrderedMap.mem_entries_iff.mp hf)
  · have hinj : Function.Injective Value.string := fun _ _ => Value.string.inj
    have hkeys := List.Nodup.map hinj a.nodup
    simpa [fields, Function.comp_def] using hkeys

theorem repeatsKey_labels (l : Labels) : (labels l).repeatsKey = false := by
  refine Value.repeatsKey_mapping (fun e he => ?_) (fun e he => ?_) ?_
  · obtain ⟨f, -, rfl⟩ := List.mem_map.mp he
    exact ⟨f.1, rfl⟩
  · obtain ⟨f, -, rfl⟩ := List.mem_map.mp he
    exact Value.repeatsKey_string f.2
  · have hinj : Function.Injective Value.string := fun _ _ => Value.string.inj
    have hkeys := List.Nodup.map hinj l.nodup
    simpa [Function.comp_def] using hkeys

theorem repeatsKey_sequence {α : Type} {encode : α → Value} {xs : List α}
    (h : ∀ x ∈ xs, (encode x).repeatsKey = false) :
    (Value.sequence (xs.map encode)).repeatsKey = false := by
  rw [Value.repeatsKey_sequence]
  intro v hv
  obtain ⟨x, hx, rfl⟩ := List.mem_map.mp hv
  exact h x hx

end Encode

/-! ## Records -/

namespace Decode

theorem returns_channel {c : Channel} (h : c.Sound) :
    channelRecord.Returns Encode.channel c := by
  -- the record fills from its start, one field after the other
  have hname : channelRecord.Fills [] ["name"]
      (Encode.optional "name" .string c.name)
      channelRecord.start ⟨c.name, none, none, ∅⟩ :=
    .optional rfl (fun hnone => by rw [hnone]; rfl)
      fun s hs => ⟨by rw [hs]; rfl, Value.repeatsKey_string s⟩
  have halias : channelRecord.Fills [] ["alias"]
      (Encode.optional "alias" .string c.aliasName)
      ⟨c.name, none, none, ∅⟩ ⟨c.name, c.aliasName, none, ∅⟩ :=
    .optional rfl (fun hnone => by rw [hnone])
      fun s hs => ⟨by rw [hs]; rfl, Value.repeatsKey_string s⟩
  have hselectors : channelRecord.Fills [] ["selectors"]
      (Encode.optional "selectors" Encode.labels c.selectors)
      ⟨c.name, c.aliasName, none, ∅⟩ ⟨c.name, c.aliasName, c.selectors, ∅⟩ := by
    refine .optional rfl (fun hnone => by rw [hnone]) fun l hl => ⟨?_, ?_⟩
    · have hread : optional labels (Encode.labels l) = .ok (some l) := by
        change (labels (Encode.labels l)).map some = _
        rw [labels_encode]
        rfl
      dsimp only
      rw [hread, hl]
      rfl
    · exact Encode.repeatsKey_labels l
  have hfills := (hname.append halias (by decide)).append hselectors (by decide)
  exact hfills.returns_fields (f := fun m => { c with extra := m }) (by decide) rfl
    (fun _ _ _ => rfl) h rfl rfl

theorem channels_encode {cs : List Channel} (h : ∀ c ∈ cs, c.Sound) :
    channels (Encode.channels cs) = .ok (some cs)
      ∧ (Encode.channels cs).repeatsKey = false := by
  constructor
  · have hread : sequence channelRecord.read (Encode.channels cs) = .ok cs :=
      sequence_encode fun c hc => (returns_channel (h c hc)).read
    change (sequence channelRecord.read (Encode.channels cs)).map some = _
    rw [hread]
    rfl
  · exact Encode.repeatsKey_sequence fun c hc => (returns_channel (h c hc)).repeatsKey

theorem returns_model {m : Model} (h : m.Sound) :
    modelRecord.Returns Encode.model m := by
  have hchannels : modelRecord.Fills [] ["channels"]
      (Encode.optional "channels" Encode.channels m.channels)
      modelRecord.start ⟨m.channels, ∅⟩ := by
    refine .optional rfl (fun hnone => by rw [hnone]; rfl) fun cs hcs => ?_
    have hsound := h.channels
    rw [Model.channelList, hcs, Option.getD_some] at hsound
    obtain ⟨hread, hrep⟩ := channels_encode hsound
    refine ⟨?_, hrep⟩
    rw [hread, hcs]
    rfl
  exact hchannels.returns_fields (f := fun e => { m with extra := e }) (by decide) rfl
    (fun _ _ _ => rfl) h.extra rfl rfl

theorem returns_reference {r : ModelReference} (h : r.Sound) :
    referenceRecord.Returns Encode.reference r := by
  have hname : referenceRecord.Fills ["name"] ["name"]
      (Encode.field "name" (.string r.name)) referenceRecord.start ⟨r.name, ∅⟩ :=
    .field rfl rfl (Value.repeatsKey_string r.name)
  exact hname.returns_fields (f := fun e => { r with extra := e }) (by decide) rfl
    (fun _ _ _ => rfl) h rfl rfl

theorem returns_instance {i : ModelInstance} (h : i.Sound) :
    instanceRecord.Returns Encode.modelInstance i := by
  have hmodel := returns_reference h.model
  have hname : instanceRecord.Fills ["name"] ["name"]
      (Encode.field "name" (.string i.name))
      instanceRecord.start ⟨i.name, default, none, ∅⟩ :=
    .field rfl rfl (Value.repeatsKey_string i.name)
  have hreference : instanceRecord.Fills ["model"] ["model"]
      (Encode.field "model" (Encode.reference i.model))
      ⟨i.name, default, none, ∅⟩ ⟨i.name, i.model, none, ∅⟩ := by
    refine .field rfl ?_ hmodel.repeatsKey
    dsimp only
    rw [hmodel.read]
    rfl
  have hchannels : instanceRecord.Fills [] ["channels"]
      (Encode.optional "channels" Encode.channels i.channels)
      ⟨i.name, i.model, none, ∅⟩ ⟨i.name, i.model, i.channels, ∅⟩ := by
    refine .optional rfl (fun hnone => by rw [hnone]) fun cs hcs => ?_
    have hsound := h.channels
    rw [ModelInstance.channelList, hcs, Option.getD_some] at hsound
    obtain ⟨hread, hrep⟩ := channels_encode hsound
    refine ⟨?_, hrep⟩
    dsimp only
    rw [hread, hcs]
    rfl
  have hfills := (hname.append hreference (by decide)).append hchannels (by decide)
  exact hfills.returns_fields (f := fun e => { i with extra := e }) (by decide) rfl
    (fun _ _ _ => rfl) h.extra rfl rfl

theorem returns_stack {s : Stack} (h : s.Sound) :
    stackRecord.Returns Encode.stack s := by
  have hmodels : stackRecord.Fills [] ["models"]
      (Encode.optional "models" (fun is => .sequence (is.map Encode.modelInstance))
        s.models) stackRecord.start ⟨s.models, ∅⟩ := by
    refine .optional rfl (fun hnone => by rw [hnone]; rfl) fun is his => ?_
    have hsound := h.instances
    rw [Stack.instances, his, Option.getD_some] at hsound
    have hread : optional (sequence instanceRecord.read)
        (.sequence (is.map Encode.modelInstance)) = .ok (some is) := by
      change (sequence _ _).map some = _
      rw [sequence_encode fun i hi => (returns_instance (hsound i hi)).read]
      rfl
    refine ⟨?_, Encode.repeatsKey_sequence fun i hi =>
      (returns_instance (hsound i hi)).repeatsKey⟩
    rw [hread, his]
    rfl
  exact hmodels.returns_fields (f := fun e => { s with extra := e }) (by decide) rfl
    (fun _ _ _ => rfl) h.extra rfl rfl

theorem returns_signal {s : Signal} (h : s.Sound)
    (htaken : Annotations.Taken s.annotations) :
    signalRecord.Returns Encode.signal s := by
  have hname : signalRecord.Fills ["signal"] ["signal"]
      (Encode.field "signal" (.string s.name))
      signalRecord.start ⟨s.name, ∅, ∅⟩ :=
    .field rfl rfl (Value.repeatsKey_string s.name)
  have hannotations : signalRecord.Fills [] ["annotations"]
      (Encode.unlessEmpty "annotations" Encode.map s.annotations)
      ⟨s.name, ∅, ∅⟩ ⟨s.name, s.annotations, ∅⟩ := by
    refine .unlessEmpty rfl (fun hempty => by rw [hempty]) ?_
      (Encode.repeatsKey_map h.annotations)
    dsimp only
    rw [map_encode h.annotations htaken]
    rfl
  have hfills := hname.append hannotations (by decide)
  exact hfills.returns_fields (f := fun e => { s with extra := e }) (by decide) rfl
    (fun _ _ _ => rfl) h.extra rfl rfl

theorem returns_signalGroup {g : SignalGroup} (h : g.Sound)
    (htaken : ∀ s ∈ g.signals, Annotations.Taken s.annotations) :
    signalGroupRecord.Returns Encode.signalGroup g := by
  have hsignal : ∀ s ∈ g.signals, signalRecord.Returns Encode.signal s :=
    fun s hs => returns_signal (h.signals s hs) (htaken s hs)
  have hsignals : signalGroupRecord.Fills ["signals"] ["signals"]
      (Encode.field "signals" (.sequence (g.signals.map Encode.signal)))
      signalGroupRecord.start ⟨g.signals, ∅⟩ := by
    refine .field rfl ?_ (Encode.repeatsKey_sequence fun s hs => (hsignal s hs).repeatsKey)
    rw [sequence_encode fun s hs => (hsignal s hs).read]
    rfl
  exact hsignals.returns_fields (f := fun e => { g with extra := e }) (by decide) rfl
    (fun _ _ _ => rfl) h.extra rfl rfl

theorem returns_metadata {m : Metadata} (h : Annotations.Sound m.annotations)
    (htaken : Annotations.Taken m.annotations) :
    metadataRecord.Returns Encode.metadata m := by
  have hname : metadataRecord.Fills ["name"] ["name"]
      (Encode.field "name" (.string m.name))
      metadataRecord.start ⟨m.name, ∅, ∅⟩ :=
    .field rfl rfl (Value.repeatsKey_string m.name)
  -- what is empty is left out, which is how the start has it
  have hlabels : metadataRecord.Fills [] ["labels"]
      (Encode.unlessEmpty "labels" Encode.labels m.labels)
      ⟨m.name, ∅, ∅⟩ ⟨m.name, m.labels, ∅⟩ := by
    refine .unlessEmpty rfl (fun hempty => by rw [hempty]) ?_
      (Encode.repeatsKey_labels m.labels)
    dsimp only
    rw [labels_encode]
    rfl
  have hannotations : metadataRecord.Fills [] ["annotations"]
      (Encode.unlessEmpty "annotations" Encode.map m.annotations)
      ⟨m.name, m.labels, ∅⟩ m := by
    refine .unlessEmpty rfl (fun hempty => by rw [← hempty]) ?_
      (Encode.repeatsKey_map h)
    dsimp only
    rw [map_encode h htaken]
    rfl
  have hfills := (hname.append hlabels (by decide)).append hannotations (by decide)
  exact hfills.returns (by decide) rfl

end Decode

/-! ## Documents -/

namespace Encode

/-- A field of a value without marks to spare has none. -/
theorem taken_of_mem {es : List (Value × Value)}
    (h : (Value.mapping es).dropMarks = .mapping es) {k v : Value}
    (he : (k, v) ∈ es) : v.dropMarks = v :=
  (Value.dropMarks_mapping.mp h (k, v) he).2

theorem taken_of_map {a : Annotations} (h : (map a).dropMarks = map a) :
    Annotations.Taken a := by
  intro key v hv
  have he := OrderedMap.mem_entries_iff.mpr hv
  exact taken_of_mem h (List.mem_map_of_mem he)

/-- Annotations that are written among other fields. -/
theorem taken_of_unlessEmpty {es : List (Value × Value)}
    (h : (Value.mapping es).dropMarks = .mapping es) {name : String} {a : Annotations}
    (hes : ∀ e ∈ unlessEmpty name map a, e ∈ es) : Annotations.Taken a := by
  -- empty annotations are not written, but there is nothing to say of them
  by_cases ha : a.isEmpty = true
  · rw [OrderedMap.isEmpty_iff.mp ha]
    exact nofun
  · refine taken_of_map (taken_of_mem h (hes (.string name, map a) ?_))
    rw [unlessEmpty, if_neg ha]
    exact List.mem_singleton_self _

theorem taken_of_metadata {m : Metadata} (h : (metadata m).dropMarks = metadata m) :
    Annotations.Taken m.annotations :=
  taken_of_unlessEmpty h fun _ he => List.mem_append_right _ he

theorem taken_of_signal {s : Signal} (h : (signal s).dropMarks = signal s) :
    Annotations.Taken s.annotations :=
  taken_of_unlessEmpty h fun _ he =>
    List.mem_append_left _ (List.mem_append_right _ he)

theorem taken_of_signalGroup {g : SignalGroup}
    (h : (signalGroup g).dropMarks = signalGroup g) :
    ∀ s ∈ g.signals, Annotations.Taken s.annotations := by
  intro s hs
  have hsignals := taken_of_mem h (k := .string "signals")
    (v := .sequence (g.signals.map signal))
    (List.mem_append_left _ (List.mem_singleton_self _))
  exact taken_of_signal (Value.dropMarks_sequence.mp hsignals _ (List.mem_map_of_mem hs))

end Encode

namespace Document

/-- The content of a document, written and read. -/
theorem spec_encode {d : Document} (h : d.spec.Sound) {v : Value}
    (hv : Encode.spec? d.spec = some v) (htaken : v.dropMarks = v) :
    Decode.spec d.kind.text v = .ok d.spec ∧ v.repeatsKey = false := by
  obtain ⟨m, spec, file⟩ := d
  cases spec with
  | stack s =>
      cases hv
      have hs := Decode.returns_stack h
      refine ⟨?_, hs.repeatsKey⟩
      change (stackRecord.read (Encode.stack s)).map Spec.stack = _
      rw [hs.read]
      rfl
  | signalGroup g =>
      cases hv
      have hg := Decode.returns_signalGroup h (Encode.taken_of_signalGroup htaken)
      refine ⟨?_, hg.repeatsKey⟩
      change (signalGroupRecord.read (Encode.signalGroup g)).map Spec.signalGroup = _
      rw [hg.read]
      rfl
  | model m =>
      cases hv
      have hm := Decode.returns_model h
      refine ⟨?_, hm.repeatsKey⟩
      change (modelRecord.read (Encode.model m)).map Spec.model = _
      rw [hm.read]
      rfl
  -- an unknown kind is never written
  | other k w => cases hv

/-- A document, written and read, is the document again, in no file. -/
theorem ofValue_encode {d : Document} (h : d.Sound) {v : Value}
    (hv : d.encode? = some v) (htaken : v.dropMarks = v) (n : Nat) :
    ofValue n v = .ok { d with file := none } := by
  obtain ⟨w, hw, rfl⟩ := Option.map_eq_some_iff.mp hv
  have htakenM := Encode.taken_of_mem htaken (k := .string "metadata")
    (v := Encode.metadata d.metadata) (by simp [Encode.field])
  have htakenS := Encode.taken_of_mem htaken (k := .string "spec") (v := w)
    (by simp [Encode.field])
  have hmetadata := Decode.returns_metadata h.annotations
    (Encode.taken_of_metadata htakenM)
  obtain ⟨hspec, hrep⟩ := spec_encode h.spec hw htakenS
  -- the frame, field by field
  have hk : frameRecord.Fills ["kind"] ["kind"]
      (Encode.field "kind" (.string d.kind.text)) frameRecord.start
      ⟨some d.kind.text, none, .null⟩ :=
    .field rfl rfl (Value.repeatsKey_string _)
  have hm : frameRecord.Fills ["metadata"] ["metadata"]
      (Encode.field "metadata" (Encode.metadata d.metadata))
      ⟨some d.kind.text, none, .null⟩
      ⟨some d.kind.text, some d.metadata, .null⟩ := by
    refine .field rfl ?_ hmetadata.repeatsKey
    have hread : Decode.optional metadataRecord.read (Encode.metadata d.metadata)
        = .ok (some d.metadata) := by
      change (metadataRecord.read _).map some = _
      rw [hmetadata.read]
      rfl
    dsimp only
    rw [hread]
    rfl
  have hs : frameRecord.Fills ["spec"] ["spec"] (Encode.field "spec" w)
      ⟨some d.kind.text, some d.metadata, .null⟩
      ⟨some d.kind.text, some d.metadata, w⟩ := by
    refine .field rfl ?_ hrep
    dsimp only
    rw [Decode.value_eq_ok hrep htakenS]
    rfl
  have hframe := ((hk.append hm (by decide)).append hs (by decide)).read (by decide)
  rw [ofValue, hframe]
  simp only [Except.mapError, Except.ok_bind, hspec, Option.getD_some]
  rfl

end Document

end SimAnnotate
