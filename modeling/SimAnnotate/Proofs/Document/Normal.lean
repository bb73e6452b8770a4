import SimAnnotate.Proofs.Document.Following
import SimAnnotate.Proofs.Document.Text

/-!
# What is written of a document that was read

Each record of a document follows its form, from the channels outwards, so a document
is written as the normal form of the value that it was read from
(`Document.encode_of_ofValue`): known fields in order, all others behind them, nothing
lost but marks of tags.
-/

namespace SimAnnotate

open Yaml (Value)
open Yaml.Value (dropEntryMarks)

namespace Encode

@[simp] theorem optional_map {α : Type} (name : String) (encode : α → Value) (o : Option α) :
    optional name id (o.map encode) = optional name encode o := by
  cases o <;> rfl

@[simp] theorem optional_nonempty? {α : Type} (name : String)
    (encode : OrderedMap String α → Value) (m : OrderedMap String α) :
    optional name id (Decode.nonempty? encode m) = unlessEmpty name encode m := by
  unfold Decode.nonempty? unlessEmpty
  split <;> rfl

@[simp] theorem optional_some (name : String) (v : Value) :
    optional name id (some v) = field name v := rfl

end Encode

/-! ## The records of documents -/

namespace Decode

def channelView (name : String) (c : Channel) : Option Value :=
  match name with
  | "name" => c.name.map .string
  | "alias" => c.aliasName.map .string
  | "selectors" => c.selectors.map Encode.labels
  | _ => none

theorem writes_channel :
    channelRecord.Writes Form.channelFields channelView Channel.extra where
  declared name := by
    change _ ↔ name ∈ ["name", "alias", "selectors"]
    simp only [channelRecord]
    split <;> simp_all
  start f hf _ := by
    simp only [Form.channelFields, List.mem_cons, List.not_mem_nil, or_false] at hf
    rcases hf with rfl | rfl | rfl <;> rfl
  extra_start := rfl
  -- each field is written as the normal form of the value that was read
  field f hf read v x y hfield huntagged hrep hread := by
    simp only [Form.channelFields, List.mem_cons, List.not_mem_nil, or_false] at hf
    rcases hf with rfl | rfl | rfl <;> cases hfield <;>
      obtain ⟨o, ho, hread⟩ := Except.bind_eq_ok.mp hread <;> cases hread
    · exact write_optional follows_string huntagged hrep ho
    · exact write_optional follows_string huntagged hrep ho
    · exact write_optional follows_labels huntagged hrep ho
  -- to read one field leaves what is written of the others
  frame name read v x y hfield hread := by
    simp only [channelRecord] at hfield
    split at hfield <;> cases hfield
    all_goals
      obtain ⟨o, -, hread⟩ := Except.bind_eq_ok.mp hread
      cases hread
      refine ⟨fun other hother => ?_, rfl⟩
      unfold channelView
      split <;> first | rfl | exact absurd rfl hother
  keep keep name v x hkeep := by
    cases hkeep
    exact ⟨fun _ => rfl, rfl⟩

theorem follows_channel : Form.channel.Follows channelRecord.read Encode.channel :=
  writes_channel.follows rfl _ fun c => by
    simp [Encode.channel, Form.channelFields, channelView, Form.Field.optional]

theorem follows_channels {name : String} {v : Value} {cs : Option (List Channel)}
    (huntagged : (Form.items Form.channel).untagged true v = true)
    (hrep : v.repeatsKey = false) (hread : channels v = .ok cs) :
    cs.map Encode.channels
      = (Form.Field.optional name (.items .channel)).write (some v.dropMarks) :=
  write_optional (follows_sequence follows_channel) huntagged hrep hread

def modelView (name : String) (m : Model) : Option Value :=
  match name with
  | "channels" => m.channels.map Encode.channels
  | _ => none

theorem writes_model : modelRecord.Writes Form.modelFields modelView Model.extra where
  declared name := by
    change _ ↔ name ∈ ["channels"]
    simp only [modelRecord]
    split <;> simp_all
  start f hf _ := by
    rw [List.mem_singleton.mp hf]
    rfl
  extra_start := rfl
  field f hf read v x y hfield huntagged hrep hread := by
    obtain rfl := List.mem_singleton.mp hf
    cases hfield
    obtain ⟨cs, hcs, hread⟩ := Except.bind_eq_ok.mp hread
    cases hread
    exact follows_channels huntagged hrep hcs
  frame name read v x y hfield hread := by
    simp only [modelRecord] at hfield
    split at hfield <;> cases hfield
    obtain ⟨cs, -, hread⟩ := Except.bind_eq_ok.mp hread
    cases hread
    refine ⟨fun other hother => ?_, rfl⟩
    unfold modelView
    split <;> first | rfl | exact absurd rfl hother
  keep keep name v x hkeep := by
    cases hkeep
    exact ⟨fun _ => rfl, rfl⟩

theorem follows_model : Form.model.Follows modelRecord.read Encode.model :=
  writes_model.follows rfl _ fun m => by
    simp [Encode.model, Form.modelFields, modelView, Form.Field.optional]

def referenceView (name : String) (r : ModelReference) : Option Value :=
  match name with
  | "name" => some (.string r.name)
  | _ => none

theorem writes_reference :
    referenceRecord.Writes Form.referenceFields referenceView ModelReference.extra where
  declared name := by
    change _ ↔ name ∈ ["name"]
    simp only [referenceRecord]
    split <;> simp_all
  start f hf hrequired := by
    rw [List.mem_singleton.mp hf] at hrequired
    -- a name has to be there, so nothing is written of the start
    exact absurd (List.mem_singleton_self _) hrequired
  extra_start := rfl
  field f hf read v x y hfield huntagged hrep hread := by
    obtain rfl := List.mem_singleton.mp hf
    cases hfield
    obtain ⟨s, hs, hread⟩ := Except.bind_eq_ok.mp hread
    cases hread
    exact congrArg some (follows_string v s huntagged hrep hs)
  frame name read v x y hfield hread := by
    simp only [referenceRecord] at hfield
    split at hfield <;> cases hfield
    obtain ⟨s, -, hread⟩ := Except.bind_eq_ok.mp hread
    cases hread
    refine ⟨fun other hother => ?_, rfl⟩
    unfold referenceView
    split <;> first | rfl | exact absurd rfl hother
  keep keep name v x hkeep := by
    cases hkeep
    exact ⟨fun _ => rfl, rfl⟩

theorem follows_reference : Form.reference.Follows referenceRecord.read Encode.reference :=
  writes_reference.follows rfl _ fun r => by
    simp [Encode.reference, Form.referenceFields, referenceView, Form.Field.required]

def instanceView (name : String) (i : ModelInstance) : Option Value :=
  match name with
  | "name" => some (.string i.name)
  | "model" => some (Encode.reference i.model)
  | "channels" => i.channels.map Encode.channels
  | _ => none

theorem writes_instance :
    instanceRecord.Writes Form.instanceFields instanceView ModelInstance.extra where
  declared name := by
    change _ ↔ name ∈ ["name", "model", "channels"]
    simp only [instanceRecord]
    split <;> simp_all
  start f hf hrequired := by
    simp only [Form.instanceFields, List.mem_cons, List.not_mem_nil, or_false] at hf
    rcases hf with rfl | rfl | rfl
    · -- name and model have to be there
      exact absurd (by decide) hrequired
    · exact absurd (by decide) hrequired
    · rfl
  extra_start := rfl
  field f hf read v x y hfield huntagged hrep hread := by
    simp only [Form.instanceFields, List.mem_cons, List.not_mem_nil, or_false] at hf
    rcases hf with rfl | rfl | rfl <;> cases hfield <;>
      obtain ⟨o, ho, hread⟩ := Except.bind_eq_ok.mp hread <;> cases hread
    · exact congrArg some (follows_string v o huntagged hrep ho)
    · exact congrArg some (follows_reference v o huntagged hrep ho)
    · exact follows_channels huntagged hrep ho
  frame name read v x y hfield hread := by
    simp only [instanceRecord] at hfield
    split at hfield <;> cases hfield
    all_goals
      obtain ⟨o, -, hread⟩ := Except.bind_eq_ok.mp hread
      cases hread
      refine ⟨fun other hother => ?_, rfl⟩
      unfold instanceView
      split <;> first | rfl | exact absurd rfl hother
  keep keep name v x hkeep := by
    cases hkeep
    exact ⟨fun _ => rfl, rfl⟩

theorem follows_instance :
    Form.modelInstance.Follows instanceRecord.read Encode.modelInstance :=
  writes_instance.follows rfl _ fun i => by
    simp [Encode.modelInstance, Form.instanceFields, instanceView, Form.Field.required,
      Form.Field.optional]

def stackView (name : String) (s : Stack) : Option Value :=
  match name with
  | "models" => s.models.map fun is => .sequence (is.map Encode.modelInstance)
  | _ => none

theorem writes_stack : stackRecord.Writes Form.stackFields stackView Stack.extra where
  declared name := by
    change _ ↔ name ∈ ["models"]
    simp only [stackRecord]
    split <;> simp_all
  start f hf _ := by
    rw [List.mem_singleton.mp hf]
    rfl
  extra_start := rfl
  field f hf read v x y hfield huntagged hrep hread := by
    obtain rfl := List.mem_singleton.mp hf
    cases hfield
    obtain ⟨is, his, hread⟩ := Except.bind_eq_ok.mp hread
    cases hread
    exact write_optional (follows_sequence follows_instance) huntagged hrep his
  frame name read v x y hfield hread := by
    simp only [stackRecord] at hfield
    split at hfield <;> cases hfield
    obtain ⟨is, -, hread⟩ := Except.bind_eq_ok.mp hread
    cases hread
    refine ⟨fun other hother => ?_, rfl⟩
    unfold stackView
    split <;> first | rfl | exact absurd rfl hother
  keep keep name v x hkeep := by
    cases hkeep
    exact ⟨fun _ => rfl, rfl⟩

theorem follows_stack : Form.stack.Follows stackRecord.read Encode.stack :=
  writes_stack.follows rfl _ fun s => by
    simp [Encode.stack, Form.stackFields, stackView, Form.Field.optional]

def signalView (name : String) (s : Signal) : Option Value :=
  match name with
  | "signal" => some (.string s.name)
  | "annotations" => nonempty? Encode.map s.annotations
  | _ => none

theorem writes_signal : signalRecord.Writes Form.signalFields signalView Signal.extra where
  declared name := by
    change _ ↔ name ∈ ["signal", "annotations"]
    simp only [signalRecord]
    split <;> simp_all
  start f hf hrequired := by
    simp only [Form.signalFields, List.mem_cons, List.not_mem_nil, or_false] at hf
    rcases hf with rfl | rfl
    · exact absurd (by decide) hrequired
    · rfl
  extra_start := rfl
  field f hf read v x y hfield huntagged hrep hread := by
    simp only [Form.signalFields, List.mem_cons, List.not_mem_nil, or_false] at hf
    rcases hf with rfl | rfl <;> cases hfield <;>
      obtain ⟨o, ho, hread⟩ := Except.bind_eq_ok.mp hread <;> cases hread
    · exact congrArg some (follows_string v o huntagged hrep ho)
    · -- no annotations and a field without annotations are written alike
      exact write_unlessEmpty follows_map map_eq_empty_iff huntagged hrep ho
  frame name read v x y hfield hread := by
    simp only [signalRecord] at hfield
    split at hfield <;> cases hfield
    all_goals
      obtain ⟨o, -, hread⟩ := Except.bind_eq_ok.mp hread
      cases hread
      refine ⟨fun other hother => ?_, rfl⟩
      unfold signalView
      split <;> first | rfl | exact absurd rfl hother
  keep keep name v x hkeep := by
    cases hkeep
    exact ⟨fun _ => rfl, rfl⟩

theorem follows_signal : Form.signal.Follows signalRecord.read Encode.signal :=
  writes_signal.follows rfl _ fun s => by
    simp [Encode.signal, Form.signalFields, signalView, Form.Field.required,
      Form.Field.unlessEmpty]

def signalGroupView (name : String) (g : SignalGroup) : Option Value :=
  match name with
  | "signals" => some (.sequence (g.signals.map Encode.signal))
  | _ => none

theorem writes_signalGroup :
    signalGroupRecord.Writes Form.signalGroupFields signalGroupView SignalGroup.extra where
  declared name := by
    change _ ↔ name ∈ ["signals"]
    simp only [signalGroupRecord]
    split <;> simp_all
  start f hf _ := by
    rw [List.mem_singleton.mp hf]
    rfl
  extra_start := rfl
  field f hf read v x y hfield huntagged hrep hread := by
    obtain rfl := List.mem_singleton.mp hf
    cases hfield
    obtain ⟨ss, hss, hread⟩ := Except.bind_eq_ok.mp hread
    cases hread
    exact congrArg some (follows_sequence follows_signal v ss huntagged hrep hss)
  frame name read v x y hfield hread := by
    simp only [signalGroupRecord] at hfield
    split at hfield <;> cases hfield
    obtain ⟨ss, -, hread⟩ := Except.bind_eq_ok.mp hread
    cases hread
    refine ⟨fun other hother => ?_, rfl⟩
    unfold signalGroupView
    split <;> first | rfl | exact absurd rfl hother
  keep keep name v x hkeep := by
    cases hkeep
    exact ⟨fun _ => rfl, rfl⟩

theorem follows_signalGroup :
    Form.signalGroup.Follows signalGroupRecord.read Encode.signalGroup :=
  writes_signalGroup.follows rfl _ fun g => by
    simp [Encode.signalGroup, Form.signalGroupFields, signalGroupView, Form.Field.orElse]

def metadataView (name : String) (m : Metadata) : Option Value :=
  match name with
  | "name" => some (.string m.name)
  | "labels" => nonempty? Encode.labels m.labels
  | "annotations" => nonempty? Encode.map m.annotations
  | _ => none

theorem writes_metadata :
    metadataRecord.Writes Form.metadataFields metadataView fun _ => ∅ where
  declared name := by
    change _ ↔ name ∈ ["name", "labels", "annotations"]
    simp only [metadataRecord]
    split <;> simp_all
  start f hf _ := by
    simp only [Form.metadataFields, List.mem_cons, List.not_mem_nil, or_false] at hf
    rcases hf with rfl | rfl | rfl <;> rfl
  extra_start := rfl
  field f hf read v x y hfield huntagged hrep hread := by
    simp only [Form.metadataFields, List.mem_cons, List.not_mem_nil, or_false] at hf
    rcases hf with rfl | rfl | rfl <;> cases hfield <;>
      obtain ⟨o, ho, hread⟩ := Except.bind_eq_ok.mp hread <;> cases hread
    · exact congrArg some (follows_string v o huntagged hrep ho)
    · exact write_unlessEmpty follows_labels labels_eq_empty_iff huntagged hrep ho
    · exact write_unlessEmpty follows_map map_eq_empty_iff huntagged hrep ho
  frame name read v x y hfield hread := by
    simp only [metadataRecord] at hfield
    split at hfield <;> cases hfield
    all_goals
      obtain ⟨o, -, hread⟩ := Except.bind_eq_ok.mp hread
      cases hread
      refine ⟨fun other hother => ?_, rfl⟩
      unfold metadataView
      split <;> first | rfl | exact absurd rfl hother
  -- other fields are not kept
  keep _ _ _ _ hkeep := by cases hkeep

theorem follows_metadata : Form.metadata.Follows metadataRecord.read Encode.metadata :=
  writes_metadata.follows rfl _ fun m => by
    have hnone : Encode.fields ∅ = [] := rfl
    simp [Encode.metadata, Form.metadataFields, metadataView, Form.Field.orElse,
      Form.Field.unlessEmpty, hnone]

/-- The fields of a frame; its content is still a value. -/
def frameFields : List Form.Field :=
  [.optional "kind" .plain, .optional "metadata" .metadata, .orElse "spec" .plain .null]

def frameView (name : String) (f : Frame) : Option Value :=
  match name with
  | "kind" => f.kind.map .string
  | "metadata" => f.metadata.map Encode.metadata
  | "spec" => some f.spec
  | _ => none

theorem writes_frame : frameRecord.Writes frameFields frameView fun _ => ∅ where
  declared name := by
    change _ ↔ name ∈ ["kind", "metadata", "spec"]
    simp only [frameRecord]
    split <;> simp_all
  start f hf _ := by
    simp only [frameFields, List.mem_cons, List.not_mem_nil, or_false] at hf
    rcases hf with rfl | rfl | rfl <;> rfl
  extra_start := rfl
  field f hf read v x y hfield huntagged hrep hread := by
    simp only [frameFields, List.mem_cons, List.not_mem_nil, or_false] at hf
    rcases hf with rfl | rfl | rfl <;> cases hfield <;>
      obtain ⟨o, ho, hread⟩ := Except.bind_eq_ok.mp hread <;> cases hread
    · exact write_optional follows_string huntagged hrep ho
    · exact write_optional follows_metadata huntagged hrep ho
    · -- the spec is not read here: its form comes with the kind
      exact congrArg some (value_eq_ok_dropMarks ho)
  frame name read v x y hfield hread := by
    simp only [frameRecord] at hfield
    split at hfield <;> cases hfield
    all_goals
      obtain ⟨o, -, hread⟩ := Except.bind_eq_ok.mp hread
      cases hread
      refine ⟨fun other hother => ?_, rfl⟩
      unfold frameView
      split <;> first | rfl | exact absurd rfl hother
  keep _ _ _ _ hkeep := by cases hkeep

end Decode

/-! ## Documents -/

namespace Document

/-- The content of a document of a known kind follows its form. -/
theorem encode_spec_of_read {kind : String} {v w : Value} {s : Spec}
    (huntagged : (Form.spec (Kind.ofString kind)).untagged true v = true)
    (hrep : v.repeatsKey = false) (hread : Decode.spec kind v = .ok s)
    (hw : Encode.spec? s = some w) :
    w = (Form.spec (Kind.ofString kind)).normal v.dropMarks := by
  unfold Decode.spec at hread
  split at hread
  · next hkind =>
      obtain ⟨s, hs, rfl⟩ := Except.map_eq_ok.mp hread
      cases hw
      rw [hkind] at huntagged ⊢
      exact Decode.follows_stack v s huntagged hrep hs
  · next hkind =>
      obtain ⟨g, hg, rfl⟩ := Except.map_eq_ok.mp hread
      cases hw
      rw [hkind] at huntagged ⊢
      exact Decode.follows_signalGroup v g huntagged hrep hg
  · next hkind =>
      obtain ⟨m, hm, rfl⟩ := Except.map_eq_ok.mp hread
      cases hw
      rw [hkind] at huntagged ⊢
      exact Decode.follows_model v m huntagged hrep hm
  · -- a spec of an unknown kind is never written
    cases hread
    cases hw

theorem kind_of_spec {kind : String} {v : Value} {s : Spec} (h : Decode.spec kind v = .ok s)
    (m : Metadata) (file : Option Path) :
    Kind.ofString kind = Document.kind ⟨m, s, file⟩ := by
  unfold Decode.spec at h
  split at h
  · next hkind =>
      obtain ⟨s, -, rfl⟩ := Except.map_eq_ok.mp h
      exact hkind
  · next hkind =>
      obtain ⟨g, -, rfl⟩ := Except.map_eq_ok.mp h
      exact hkind
  · next hkind =>
      obtain ⟨m, -, rfl⟩ := Except.map_eq_ok.mp h
      exact hkind
  · next hkind =>
      cases h
      exact hkind

/-- What stands in a field; null when there is no such field. -/
def part (es : List (Value × Value)) (name : String) : Value :=
  (es.lookup (.string name)).getD .null

/-- A frame without tags on what is read. -/
theorem untagged_frame {kind : Kind} {v : Value}
    (h : (Form.document kind).untagged true v = true) :
    (Form.record Decode.frameFields false
      (show ["kind", "metadata", "spec"].Nodup by decide)).untagged true v = true := by
  cases v with
  | mapping es =>
      simp only [Form.document, Form.record, Form.entries, Form.hasEntries,
        Form.untaggedEntries, Form.documentFields, Decode.frameFields, Form.Field.optional,
        Form.Field.orElse, List.all_cons, List.all_nil, Bool.and_true, Bool.and_eq_true,
        Option.all_eq_true] at h ⊢
      obtain ⟨hkeys, hkind, hmetadata, hspec⟩ := h
      refine ⟨hkeys, hkind, hmetadata, fun w hw => ?_⟩
      have htagged := (Form.spec kind).isTagged_of_untagged _ _ (hspec w hw)
      simpa [Form.plain] using htagged
  | _ => exact h

/-- The parts of a frame that was read. -/
theorem read_frame {kind : Kind} {v : Value} {f : Decode.Frame}
    (huntagged : (Form.document kind).untagged true v = true) (hrep : v.repeatsKey = false)
    (h : Decode.frameRecord.read v = .ok f) :
    ∃ es, (v = .mapping es ∨ v = .null ∧ es = [])
      ∧ (∀ name, f.kind = some name → es.lookup (.string "kind") = some (.string name))
      ∧ Encode.metadata (f.metadata.getD default)
          = Form.metadata.normal (part es "metadata").dropMarks
      ∧ f.spec = (part es "spec").dropMarks := by
  obtain ⟨es, hv, hviews, -⟩ :=
    Decode.writes_frame.read_fields rfl (untagged_frame huntagged) hrep h
  simp only [Decode.frameFields, List.mem_cons, List.not_mem_nil, or_false, forall_eq_or_imp,
    forall_eq] at hviews
  obtain ⟨hkind, hmetadata, hspec⟩ := hviews
  refine ⟨es, hv, fun name hname => ?_, ?_, ?_⟩
  · -- a kind was read, so its field is there and holds this string
    simp only [Decode.frameView, Form.Field.optional, Form.plain, hname] at hkind
    cases hk : es.lookup (Value.string "kind") with
    | none =>
        rw [hk] at hkind
        cases hkind
    | some w =>
        rw [hk] at hkind
        simp only [Option.map_some] at hkind
        split at hkind
        · cases hkind
        · rw [Option.some.injEq] at hkind
          rw [Value.dropMarks_eq_string.mp hkind.symm]
  · -- metadata that are missing or null were read as none, which are written as the default
    simp only [Decode.frameView, Form.Field.optional] at hmetadata
    unfold part
    cases hm : es.lookup (Value.string "metadata") with
    | none =>
        rw [hm, Option.map_none, Option.map_eq_none_iff] at hmetadata
        rw [hmetadata]
        rfl
    | some w =>
        rw [hm] at hmetadata
        simp only [Option.map_some] at hmetadata
        split at hmetadata
        · next hnull =>
            rw [Option.map_eq_none_iff] at hmetadata
            rw [hmetadata, Option.getD_some, hnull]
            rfl
        · obtain ⟨m, hm, hnormal⟩ := Option.map_eq_some_iff.mp hmetadata
          rw [hm]
          exact hnormal
  · -- the spec was taken as it stands, with null for a missing field
    simp only [Decode.frameView, Form.Field.orElse, Form.plain, Option.some.injEq] at hspec
    rw [hspec, part]
    cases es.lookup (Value.string "spec") <;> rfl

theorem text_ofString (name : String) : (Kind.ofString name).text = name := by
  unfold Kind.ofString
  split <;> rfl

theorem untagged_part {kind : Kind} {es : List (Value × Value)}
    (h : (Form.document kind).untagged true (.mapping es) = true) :
    (Form.spec kind).untagged true (part es "spec") = true := by
  simp only [Form.document, Form.record, Form.entries, Form.hasEntries,
    Form.untaggedEntries, Form.documentFields, Form.Field.orElse, List.all_cons,
    List.all_nil, Bool.and_true, Bool.and_eq_true, Option.all_eq_true] at h
  unfold part
  cases hw : es.lookup (Value.string "spec") with
  | none => cases kind <;> rfl
  | some w => exact h.2.2.2 w hw

/-- The normal form of a document, part by part. -/
theorem normal_document {kind : Kind} {es : List (Value × Value)} {name : String}
    (hkind : es.lookup (.string "kind") = some (.string name)) :
    (Form.document kind).normal (.mapping es) = .mapping
      [(.string "kind", .string name),
        (.string "metadata", Form.metadata.normal (part es "metadata")),
        (.string "spec", (Form.spec kind).normal (part es "spec"))] := by
  change Value.mapping (Form.recordEntries (Form.documentFields kind) false es) = _
  simp [Form.recordEntries, Form.declared, Form.documentFields, Form.Field.optional,
    Form.Field.orElse, Form.plain, hkind, part, Encode.field]

/-- Where nothing has a mark to spare, no part has. -/
theorem dropMarks_part {es : List (Value × Value)}
    (h : (Value.mapping es).dropMarks = .mapping es) (name : String) :
    (part es name).dropMarks = part es name := by
  unfold part
  cases hw : es.lookup (Value.string name) with
  | none => rfl
  | some w =>
      have hes : dropEntryMarks es = es := by
        rw [Value.dropMarks] at h
        exact Value.mapping.inj h
      have hlookup := Value.lookup_dropEntryMarks es name
      rw [hes, hw, Option.map_some, Option.some.injEq] at hlookup
      exact hlookup.symm

theorem exists_spec? {d : Document} (h : ∀ k, d.kind ≠ .other k) :
    ∃ w, Encode.spec? d.spec = some w := by
  have hknown := isKnown_iff.mpr h
  rw [isKnown, encode?, Option.isSome_map] at hknown
  exact Option.isSome_iff_exists.mp hknown

/-- A document is written as the normal form of the value that it was read from, but
for the marks of tags: what metadata says has lost one, what the content says two. Without
marks to spare nothing is lost, and a normal form is its own. -/
theorem encode_of_ofValue {n : Nat} {v : Value} {d : Document} (h : ofValue n v = .ok d)
    (hknown : ∀ k, d.kind ≠ .other k) (hrep : v.repeatsKey = false)
    (huntagged : (Form.document d.kind).untagged true v = true) :
    (∃ es, v = .mapping es
        ∧ es.lookup (.string "kind") = some (.string d.kind.text)
        ∧ d.encode? = some (.mapping
          [(.string "kind", .string d.kind.text),
            (.string "metadata", Form.metadata.normal (part es "metadata").dropMarks),
            (.string "spec",
              (Form.spec d.kind).normal (part es "spec").dropMarks.dropMarks)]))
      ∧ (v.dropMarks = v → d.encode? = some ((Form.document d.kind).normal v))
      ∧ ∀ w, (Form.document d.kind).normal ((Form.document d.kind).normal w)
          = (Form.document d.kind).normal w := by
  obtain ⟨f, hf, h⟩ := Except.bind_eq_ok.mp h
  have hf := Except.mapError_eq_ok.mp hf
  obtain ⟨es, hv, hkind, hmetadata, hspec⟩ := read_frame huntagged hrep hf
  split at h
  · cases h
  next name hname =>
    obtain ⟨s, hs, h⟩ := Except.bind_eq_ok.mp h
    have hs := Except.mapError_eq_ok.mp hs
    cases h
    have hk := kind_of_spec hs (f.metadata.getD default) none
    have htext : name = (Kind.ofString name).text := (text_ofString name).symm
    rw [← hk] at huntagged hknown ⊢
    have hlookup := hkind name hname
    -- a value with a kind is a mapping
    obtain rfl : v = .mapping es := by
      rcases hv with hv | ⟨-, rfl⟩
      · exact hv
      · cases hlookup
    have hencode : encode? ⟨f.metadata.getD default, s, none⟩ = some (.mapping
        [(.string "kind", .string (Kind.ofString name).text),
          (.string "metadata", Form.metadata.normal (part es "metadata").dropMarks),
          (.string "spec", (Form.spec (Kind.ofString name)).normal
            (part es "spec").dropMarks.dropMarks)]) := by
      obtain ⟨w, hw⟩ := exists_spec? (d := ⟨f.metadata.getD default, s, none⟩) (hk ▸ hknown)
      rw [hspec] at hs
      have hpart := (Form.spec _).untagged_dropMarks _ _ (untagged_part huntagged)
      have hrep := hspec ▸ (Decode.sound_of_frameRecord hf).spec
      have hnormal := encode_spec_of_read hpart hrep hs hw
      rw [encode?, hw, ← hk, hmetadata, hnormal]
      rfl
    refine ⟨⟨es, rfl, htext ▸ hlookup, hencode⟩, fun hmarks => ?_,
      (Form.document _).normal_normal⟩
    rw [hencode, normal_document (htext ▸ hlookup)]
    simp only [dropMarks_part hmarks]

/-- A group whose fields stand in another order, with nulls, a tag inside an annotation
and a label that is no string. -/
theorem encode_of_ofValue_group :
    let tagged : Value := .tagged "t" (.ofNat 1)
    let first : Value := .mapping [(.string "x", .null), (.string "annotations", .null),
      (.string "signal", .string "a")]
    let second : Value := .mapping
      [(.string "annotations", .mapping [(.string "k", tagged)]), (.string "signal", .string "b")]
    let v : Value := .mapping
      [(.string "spec", .mapping [(.string "y", .ofNat 2),
          (.string "signals", .sequence [first, second])]),
        (.string "metadata", .mapping [(.string "labels",
          .mapping [(.string "l", .bool true), (.string "m", .null)])]),
        (.string "kind", .string "SignalGroup")]
    let d : Document := ⟨⟨"", .ofList [("l", "true"), ("m", "")], ∅⟩,
      .signalGroup ⟨[⟨"a", ∅, .ofList [("x", .null)]⟩,
        ⟨"b", .ofList [("k", tagged)], ∅⟩], .ofList [("y", .ofNat 2)]⟩, none⟩
    let w : Value := .mapping
      [(.string "kind", .string "SignalGroup"),
        (.string "metadata", .mapping [(.string "name", .string ""), (.string "labels",
          .mapping [(.string "l", .string "true"), (.string "m", .string "")])]),
        (.string "spec", .mapping [(.string "signals", .sequence
            [.mapping [(.string "signal", .string "a"), (.string "x", .null)],
              .mapping [(.string "signal", .string "b"),
                (.string "annotations", .mapping [(.string "k", tagged)])]]),
          (.string "y", .ofNat 2)])]
    ofValue 0 v = .ok d ∧ (∀ k, d.kind ≠ .other k) ∧ v.repeatsKey = false
      ∧ (Form.document d.kind).untagged true v = true ∧ v.dropMarks = v
      ∧ (Form.document d.kind).normal v = w ∧ d.encode? = some w := by
  intro tagged first second v d w
  have h : ofValue 0 v = .ok d := by decide
  have hknown : ∀ k, d.kind ≠ .other k := nofun
  have hrep : v.repeatsKey = false := by decide
  have huntagged : (Form.document d.kind).untagged true v = true := by decide
  have hmarks : v.dropMarks = v := by decide
  have hnormal : (Form.document d.kind).normal v = w := by decide
  have hencode := (encode_of_ofValue h hknown hrep huntagged).2.1 hmarks
  exact ⟨h, hknown, hrep, huntagged, hmarks, hnormal, hnormal ▸ hencode⟩

/-- Without a word on keys and marks this fails: of two keys that differ by a tag the
later one replaces the other, and annotations of signals lose two marks. -/
theorem encode_of_tagged_key :
    let model (spec : Value) : Value := .mapping
      [(.string "kind", .string "Model"),
        (.string "metadata", .mapping [(.string "name", .string "m")]), (.string "spec", spec)]
    let v := model (.mapping
      [(.tagged "t" (.string "foo"), .ofNat 1), (.string "foo", .ofNat 2)])
    let d : Document := ⟨⟨"m", ∅, ∅⟩, .model ⟨none, .ofList [("foo", .ofNat 2)]⟩, none⟩
    let group (tag : String) : Value := .mapping
      [(.string "kind", .string "SignalGroup"),
        (.string "metadata", .mapping [(.string "name", .string "g")]),
        (.string "spec", .mapping [(.string "signals", .sequence
          [.mapping [(.string "signal", .string "s"),
            (.string "annotations", .mapping [(.string "a", .tagged tag (.ofNat 1))])]])])]
    let e : Document := ⟨⟨"g", ∅, ∅⟩, .signalGroup
      ⟨[⟨"s", .ofList [("a", .tagged "!a" (.ofNat 1))], ∅⟩], ∅⟩, none⟩
    (ofValue 0 v = .ok d ∧ v.repeatsKey = false
        ∧ (Form.document .model).untagged false v = true
        ∧ (Form.document .model).normal v = v
        ∧ d.encode? = some (model (.mapping [(.string "foo", .ofNat 2)]))
        ∧ d.encode? ≠ some ((Form.document .model).normal v))
      ∧ ofValue 0 (group "!!!a") = .ok e ∧ (group "!!!a").repeatsKey = false
        ∧ (Form.document .signalGroup).untagged true (group "!!!a") = true
        ∧ (Form.document .signalGroup).normal (group "!!!a") = group "!!!a"
        ∧ e.encode? = some (group "!a")
        ∧ e.encode? ≠ some ((Form.document .signalGroup).normal (group "!!!a")) := by
  decide

end Document

end SimAnnotate
