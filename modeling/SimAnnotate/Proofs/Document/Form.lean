import Mathlib.Data.List.Nodup
import SimAnnotate.Document.Decode
import SimAnnotate.Document.Encode
import SimAnnotate.Proofs.Yaml.Value

/-!
# Normal forms of values

The values that say the same of a document differ in the order of a record's fields,
in nulls and empty maps that may be left out, and in how labels are spelled. A `Form`
chooses one of them, its normal form, by rules on values alone: nothing here reads or
writes a document.

A form also says where tags do not count (`untagged`), and carries its laws, so that
what is normal stays as it is.
-/

namespace SimAnnotate

open Yaml (Value)
open Yaml.Value (isTagged dropItemMarks dropEntryMarks)

/-- What values of one sort come to. -/
structure Form where
  normal : Value → Value
  /-- No tag is on a record, a sequence or a declared field, and with `keys` none on the
  key of a record or a map. -/
  untagged (keys : Bool) : Value → Bool
  normal_normal : ∀ v, normal (normal v) = normal v
  null_of_normal : ∀ v, normal v = .null → v = .null
  isTagged_of_untagged : ∀ keys v, untagged keys v = true → v.isTagged = false
  untagged_dropMarks : ∀ keys v, untagged keys v = true → untagged keys v.dropMarks = true

/-- A declared field of a record. -/
structure Form.Field where
  name : String
  form : Form
  /-- The value that is written for the one that stands there; either may be absent. -/
  write : Option Value → Option Value
  write_write : ∀ o, write (write o) = write o

namespace Form

/-! ## Fields -/

namespace Field

variable (name : String) (form : Form)

/-- A field that is always there. -/
def required : Field where
  name := name
  form := form
  write o := o.map form.normal
  write_write o := by cases o <;> simp [form.normal_normal]

/-- A field that may be left out, for which null also stands. -/
def optional : Field where
  name := name
  form := form
  write
    | some v => if v = .null then none else some (form.normal v)
    | none => none
  write_write o := by
    cases o with
    | none => rfl
    | some v =>
        by_cases hv : v = .null
        · simp [hv]
        · have hnormal : form.normal v ≠ .null := fun h => hv (form.null_of_normal v h)
          simp [hv, hnormal, form.normal_normal]

/-- A field that is written with a default when it is left out. -/
def orElse (default : Value) : Field where
  name := name
  form := form
  write o := some (form.normal (o.getD default))
  write_write o := by simp [form.normal_normal]

/-- A map that is left out when it is empty. -/
def unlessEmpty : Field where
  name := name
  form := form
  write
    | some v => if form.normal v = .mapping [] then none else some (form.normal v)
    | none => none
  write_write o := by
    cases o with
    | none => rfl
    | some v => by_cases hv : form.normal v = .mapping [] <;> simp [hv, form.normal_normal]

end Field

/-! ## Scalars, maps and sequences -/

/-- A value that stays as it is. -/
def plain : Form where
  normal v := v
  untagged _ v := !v.isTagged
  normal_normal _ := rfl
  null_of_normal _ h := h
  isTagged_of_untagged _ v h := by simpa using h
  untagged_dropMarks _ v h := by simpa using h

/-- Other entries in a mapping; null is an empty one. -/
def onEntries (f : List (Value × Value) → List (Value × Value)) : Value → Value
  | .mapping es => .mapping (f es)
  | .null => .mapping (f [])
  | v => v

/-- A mapping with entries such as `p` says; other values have no tag in front. -/
def hasEntries (p : List (Value × Value) → Bool) : Value → Bool
  | .mapping es => p es
  | v => !v.isTagged

/-- The form of a mapping by rules on its entries. -/
def entries (f : List (Value × Value) → List (Value × Value))
    (p : Bool → List (Value × Value) → Bool) (hf : ∀ es, f (f es) = f es)
    (hp : ∀ keys es, p keys es = true → p keys (dropEntryMarks es) = true) : Form where
  normal := onEntries f
  untagged keys := hasEntries (p keys)
  normal_normal v := by cases v <;> simp [onEntries, hf]
  null_of_normal v h := by cases v <;> simp_all [onEntries]
  isTagged_of_untagged keys v h := by cases v <;> simp_all [hasEntries, isTagged]
  untagged_dropMarks keys v h := by
    cases v with
    | mapping es => exact hp keys es h
    | tagged t w => cases h
    | _ => simp [hasEntries, Value.dropMarks, isTagged]

/-- No key has a tag in front, where this counts. -/
def plainKeys (keys : Bool) (es : List (Value × Value)) : Bool :=
  !keys || es.all (!·.1.isTagged)

theorem plainKeys_dropEntryMarks {keys : Bool} {es : List (Value × Value)}
    (h : plainKeys keys es = true) : plainKeys keys (dropEntryMarks es) = true := by
  unfold plainKeys at h ⊢
  rw [Value.dropEntryMarks_eq_map, List.all_map]
  simpa [Function.comp_def] using h

/-- A map with values of any sort. -/
def map : Form :=
  entries id plainKeys (fun _ => rfl) fun _ _ => plainKeys_dropEntryMarks

/-- The string form of a label. -/
def labelText (v : Value) : Value := ((Decode.labelText? v).map Value.string).getD v

theorem labelText_labelText (v : Value) : labelText (labelText v) = labelText v := by
  unfold labelText
  cases h : Decode.labelText? v with
  | none => simp [h]
  | some s => rfl

/-- A map with labels for values. -/
def labels : Form :=
  entries (List.map fun e => (e.1, labelText e.2)) plainKeys
    (fun es => by simp [Function.comp_def, labelText_labelText])
    fun _ _ => plainKeys_dropEntryMarks

/-- A sequence; null is an empty one. -/
def items (form : Form) : Form where
  normal
    | .sequence xs => .sequence (xs.map form.normal)
    | .null => .sequence []
    | v => v
  untagged keys
    | .sequence xs => xs.all (form.untagged keys)
    | v => !v.isTagged
  normal_normal v := by cases v <;> simp [Function.comp_def, form.normal_normal]
  null_of_normal v h := by cases v <;> simp_all
  isTagged_of_untagged keys v h := by cases v <;> simp_all [isTagged]
  untagged_dropMarks keys v h := by
    cases v with
    | sequence xs =>
        simp only [Value.dropMarks, Value.dropItemMarks_eq_map, List.all_map, List.all_eq_true]
          at h ⊢
        exact fun x hx => form.untagged_dropMarks keys x (h x hx)
    | tagged t w => cases h
    | _ => simp [Value.dropMarks, isTagged]

/-! ## Records -/

section

variable (fields : List Field) (keeps : Bool)

/-- The key is that of a declared field. -/
def declares (key : Value) : Bool := fields.any fun f => key == .string f.name

/-- The declared fields, written in order for what `read` finds. -/
def declared (read : Field → Option Value) : List (Value × Value) :=
  fields.flatMap fun f => Encode.optional f.name id (f.write (read f))

/-- The other fields. -/
def others (es : List (Value × Value)) : List (Value × Value) :=
  es.filter fun e => !declares fields e.1

def recordEntries (es : List (Value × Value)) : List (Value × Value) :=
  declared fields (fun f => es.lookup (.string f.name))
    ++ if keeps then others fields es else []

def untaggedEntries (keys : Bool) (es : List (Value × Value)) : Bool :=
  plainKeys keys es
    && fields.all fun f => (es.lookup (.string f.name)).all (f.form.untagged keys)

variable {fields keeps}

theorem declares_of_mem {f : Field} (hf : f ∈ fields) :
    declares fields (.string f.name) = true :=
  List.any_eq_true.mpr ⟨f, hf, beq_self_eq_true _⟩

theorem declares_of_mem_declared {read : Field → Option Value} {e : Value × Value}
    (he : e ∈ declared fields read) : declares fields e.1 = true := by
  obtain ⟨f, hf, he⟩ := List.mem_flatMap.mp he
  cases hw : f.write (read f) with
  | none =>
      rw [hw] at he
      cases he
  | some v =>
      rw [hw] at he
      rw [List.mem_singleton.mp he]
      exact declares_of_mem hf

theorem lookup_others {f : Field} (hf : f ∈ fields) (es : List (Value × Value)) :
    (others fields es).lookup (.string f.name) = none := by
  rw [List.lookup_eq_none_iff]
  intro e he
  have hother := (List.mem_filter.mp he).2
  rw [bne_iff_ne]
  rintro heq
  rw [← heq, declares_of_mem hf] at hother
  cases hother

theorem lookup_declared (hfields : (fields.map Field.name).Nodup)
    (read : Field → Option Value) {f : Field} (hf : f ∈ fields) :
    (declared fields read).lookup (.string f.name) = f.write (read f) := by
  induction fields with
  | nil => cases hf
  | cons g rest ih =>
      rw [List.map_cons, List.nodup_cons] at hfields
      rw [declared, List.flatMap_cons, List.lookup_append]
      rcases List.mem_cons.mp hf with rfl | hf
      · cases hw : f.write (read f) with
        | some v => simp [Encode.optional, Encode.field]
        | none =>
            -- the name does not come again
            have hnone : (declared rest read).lookup (.string f.name) = none := by
              rw [List.lookup_eq_none_iff]
              intro e he
              rw [bne_iff_ne]
              intro heq
              have hdeclares := declares_of_mem_declared he
              obtain ⟨g, hg, hname⟩ := List.any_eq_true.mp hdeclares
              rw [← heq, beq_iff_eq, Value.string.injEq] at hname
              exact hfields.1 (hname ▸ List.mem_map_of_mem hg)
            exact hnone
      · have hne : f.name ≠ g.name := fun heq =>
          hfields.1 (heq ▸ List.mem_map_of_mem hf)
        have hnone : (Encode.optional g.name id (g.write (read g))).lookup
            (Value.string f.name) = none := by
          cases g.write (read g) <;> simp [Encode.optional, Encode.field, hne]
        rw [hnone, Option.none_or]
        exact ih hfields.2 hf

theorem lookup_recordEntries (hfields : (fields.map Field.name).Nodup)
    (es : List (Value × Value)) {f : Field} (hf : f ∈ fields) :
    (recordEntries fields keeps es).lookup (.string f.name)
      = f.write (es.lookup (.string f.name)) := by
  have hnone : (if keeps then others fields es else []).lookup (Value.string f.name)
      = none := by
    split
    · exact lookup_others hf es
    · rfl
  rw [recordEntries, List.lookup_append, hnone, Option.or_none, lookup_declared hfields _ hf]

theorem others_recordEntries (es : List (Value × Value)) :
    others fields (recordEntries fields keeps es)
      = if keeps then others fields es else [] := by
  have hdeclared : others fields
      (declared fields fun f => es.lookup (.string f.name)) = [] := by
    refine List.filter_eq_nil_iff.mpr fun e he => ?_
    rw [declares_of_mem_declared he]
    exact Bool.false_ne_true
  rw [recordEntries, others, List.filter_append]
  rw [others] at hdeclared
  rw [hdeclared, List.nil_append]
  split
  · exact List.filter_filter.trans (by simp [others])
  · rfl

theorem recordEntries_recordEntries (hfields : (fields.map Field.name).Nodup)
    (es : List (Value × Value)) :
    recordEntries fields keeps (recordEntries fields keeps es)
      = recordEntries fields keeps es := by
  have hdeclared : declared fields (fun f =>
        (recordEntries fields keeps es).lookup (.string f.name))
      = declared fields fun f => es.lookup (.string f.name) := by
    unfold declared
    rw [List.flatMap_congr]
    intro f hf
    dsimp only
    rw [lookup_recordEntries hfields es hf, f.write_write]
  rw [recordEntries, hdeclared, others_recordEntries, recordEntries]
  cases keeps <;> rfl

theorem untaggedEntries_dropEntryMarks {keys : Bool} {es : List (Value × Value)}
    (h : untaggedEntries fields keys es = true) :
    untaggedEntries fields keys (dropEntryMarks es) = true := by
  simp only [untaggedEntries, Bool.and_eq_true, List.all_eq_true, Option.all_eq_true,
    Value.lookup_dropEntryMarks, Option.map_eq_some_iff] at h ⊢
  refine ⟨plainKeys_dropEntryMarks h.1, ?_⟩
  rintro f hf v ⟨w, hw, rfl⟩
  exact f.form.untagged_dropMarks keys w (h.2 f hf w hw)

variable (fields keeps)

/-- A record: the declared fields in order, and behind them the other fields, where
the record keeps them. Null is an empty record. -/
def record (hfields : (fields.map Field.name).Nodup) : Form :=
  entries (recordEntries fields keeps) (untaggedEntries fields)
    (recordEntries_recordEntries hfields) fun _ _ => untaggedEntries_dropEntryMarks

end

/-! ## The forms of documents -/

def channelFields : List Field :=
  [.optional "name" plain, .optional "alias" plain, .optional "selectors" labels]

def channel : Form := record channelFields true (by decide)

def modelFields : List Field := [.optional "channels" (items channel)]

def model : Form := record modelFields true (by decide)

def referenceFields : List Field := [.required "name" plain]

def reference : Form := record referenceFields true (by decide)

def instanceFields : List Field :=
  [.required "name" plain, .required "model" reference,
    .optional "channels" (items channel)]

def modelInstance : Form := record instanceFields true (by decide)

def stackFields : List Field := [.optional "models" (items modelInstance)]

def stack : Form := record stackFields true (by decide)

def signalFields : List Field := [.required "signal" plain, .unlessEmpty "annotations" map]

def signal : Form := record signalFields true (by decide)

def signalGroupFields : List Field := [.orElse "signals" (items signal) .null]

def signalGroup : Form := record signalGroupFields true (by decide)

def metadataFields : List Field :=
  [.orElse "name" plain (.string ""), .unlessEmpty "labels" labels,
    .unlessEmpty "annotations" map]

def metadata : Form := record metadataFields false (by decide)

/-- The form of the content; that of a kind that is not known stays as it is. -/
def spec : Kind → Form
  | .stack => stack
  | .signalGroup => signalGroup
  | .model => model
  | .other _ => plain

def documentFields (kind : Kind) : List Field :=
  [.optional "kind" plain, .orElse "metadata" metadata .null,
    .orElse "spec" (spec kind) .null]

def document (kind : Kind) : Form :=
  record (documentFields kind) false (show ["kind", "metadata", "spec"].Nodup by decide)

end Form

end SimAnnotate
