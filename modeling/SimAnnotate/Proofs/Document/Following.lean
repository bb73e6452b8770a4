import SimAnnotate.Proofs.Document.Form
import SimAnnotate.Proofs.Document.Record

/-!
# Readers and writers that follow a form

Reading a value and writing the result gives the value's normal form, but for the
marks that reading drops: `Form.Follows` says so of one reader and its writer.

A record follows its form when its fields do. `Record.Writes` says what each field
writes, and that it leaves the others alone; `Written` is what then holds of a record
of which some entries are read, and one entry keeps it (`Writes.written_step`).
-/

/-- What stands behind a key that comes once. -/
theorem List.lookup_of_mem {α β : Type*} [BEq α] [LawfulBEq α] {es : List (α × β)}
    (hes : (es.map Prod.fst).Nodup) {e : α × β} (he : e ∈ es) : es.lookup e.1 = some e.2 := by
  induction es with
  | nil => cases he
  | cons f rest ih =>
      rw [List.map_cons, List.nodup_cons] at hes
      rcases List.mem_cons.mp he with rfl | he
      · exact List.lookup_cons_self
      · have hne : (e.1 == f.1) = false :=
          beq_eq_false_iff_ne.mpr fun heq => hes.1 (heq ▸ List.mem_map_of_mem he)
        rw [List.lookup_cons, hne]
        exact ih hes.2 he

namespace SimAnnotate

open Yaml (Value)
open Yaml.Value (dropEntryMarks)

/-- What is written of a value that was read is the value's normal form, with a mark
less in front of each tag. -/
def Form.Follows {α : Type} (form : Form) (read : Value → Decoded α) (encode : α → Value) :
    Prop :=
  ∀ v x, form.untagged true v = true → v.repeatsKey = false → read v = .ok x →
    encode x = form.normal v.dropMarks

namespace Decode

/-! ## Strings, maps and sequences -/

theorem eq_string_of_stringFor {expected : String} {v : Value} {s : String}
    (hv : v.isTagged = false) (h : stringFor expected v = .ok s) : v = .string s := by
  rw [stringFor, Value.untag_of_isTagged hv] at h
  cases v <;> cases h
  rfl

theorem follows_string : Form.plain.Follows string .string := by
  intro v s huntagged _ h
  rw [eq_string_of_stringFor (Form.plain.isTagged_of_untagged _ _ huntagged) h]
  exact (Value.dropMarks_string s).symm

theorem value_eq_ok_dropMarks {v w : Value} (h : value v = .ok w) : w = v.dropMarks := by
  unfold value at h
  split at h
  · cases h
  · exact (Except.ok.inj h).symm

theorem follows_map : Form.map.Follows map Encode.map := by
  intro v m huntagged hrep h
  have htagged := Form.map.isTagged_of_untagged _ _ huntagged
  rw [map, Value.untag_of_isTagged htagged] at h
  cases v with
  | mapping es =>
      obtain ⟨fs, hfs, rfl⟩ := Except.map_eq_ok.mp h
      have hkeys : ∀ e ∈ es, e.1.isTagged = false := by
        simpa [Form.map, Form.entries, Form.hasEntries, Form.plainKeys] using huntagged
      -- a key without a tag that is read as a string is that string
      have hentry : ∀ e ∈ es, ∀ f, mapEntry e = .ok f →
          (Value.string f.1, f.2) = (e.1.dropMarks, e.2.dropMarks) ∧ e.1 = .string f.1 := by
        intro e he f hf
        obtain ⟨key, hkey, hf⟩ := Except.bind_eq_ok.mp hf
        obtain ⟨w, hw, hf⟩ := Except.bind_eq_ok.mp hf
        cases hf
        have hstring := eq_string_of_stringFor (hkeys e he) hkey
        rw [hstring, value_eq_ok_dropMarks hw, Value.dropMarks_string]
        exact ⟨rfl, rfl⟩
      -- so keys that do not repeat give names that do not, and the map keeps all in order
      have hnodup : (fs.map Prod.fst).Nodup := by
        have hfst := List.map_eq_map_of_mapM hfs
          (g := fun f => Value.string f.1) (k := Prod.fst)
          fun e he f hf => (hentry e he f hf).2.symm
        have hstrings : ∀ e ∈ es, ∃ name, e.1 = .string name := by
          intro e he
          have hmem := hfst ▸ List.mem_map_of_mem (f := Prod.fst) he
          obtain ⟨f, -, hf⟩ := List.mem_map.mp hmem
          exact ⟨f.1, hf.symm⟩
        have hes : ((fs.map Prod.fst).map Value.string).Nodup := by
          rw [List.map_map]
          exact hfst ▸ Value.nodup_keys hrep hstrings
        exact hes.of_map Value.string
      have hmap := List.map_eq_map_of_mapM hfs fun e he f hf => (hentry e he f hf).1
      rw [Encode.map, Encode.fields, OrderedMap.entries_ofList hnodup, hmap,
        ← Value.dropEntryMarks_eq_map]
      rfl
  | null =>
      cases h
      rfl
  | _ => cases h

theorem labelText_of_label {e : String × Value} {f : String × String}
    (h : label e = .ok f) : f.1 = e.1 ∧ Form.labelText e.2 = .string f.2 := by
  unfold label at h
  split at h
  · next s hs =>
      cases h
      exact ⟨rfl, by rw [Form.labelText, hs]; rfl⟩
  · cases h

theorem follows_labels : Form.labels.Follows labels Encode.labels := by
  intro v l huntagged hrep h
  obtain ⟨m, hm, h⟩ := Except.bind_eq_ok.mp h
  obtain ⟨fs, hfs, h⟩ := Except.bind_eq_ok.mp h
  cases h
  have hnodup : (fs.map Prod.fst).Nodup := by
    rw [List.map_eq_map_of_mapM hfs fun e _ f hf => (labelText_of_label hf).1]
    exact m.nodup
  have hlabels : Encode.labels (OrderedMap.ofList fs)
      = Form.labels.normal (.mapping (Encode.fields m)) := by
    have hvalues := List.map_eq_map_of_mapM hfs
      (g := fun f => (Value.string f.1, Value.string f.2))
      (k := fun e => (Value.string e.1, Form.labelText e.2))
      fun e _ f hf => by
        have hf := labelText_of_label hf
        rw [hf.1, hf.2]
    rw [Encode.labels, OrderedMap.entries_ofList hnodup, hvalues]
    simp [Form.labels, Form.entries, Form.onEntries, Encode.fields, Function.comp_def]
  -- labels are a map first
  have hmap : Value.mapping (Encode.fields m) = Form.map.normal v.dropMarks :=
    follows_map v m huntagged hrep hm
  rw [hlabels, hmap]
  cases v.dropMarks <;> rfl

theorem follows_sequence {α : Type} {form : Form} {read : Value → Decoded α}
    {encode : α → Value} (h : form.Follows read encode) :
    form.items.Follows (sequence read) fun xs => .sequence (xs.map encode) := by
  intro v xs huntagged hrep hread
  have htagged := form.items.isTagged_of_untagged _ _ huntagged
  rw [sequence, Value.untag_of_isTagged htagged] at hread
  cases v with
  | sequence vs =>
      have huntagged : ∀ v ∈ vs, form.untagged true v = true := by
        simpa [Form.items] using huntagged
      dsimp only
      rw [List.map_eq_map_of_mapM hread fun v hv x hx =>
        h v x (huntagged v hv) (Value.repeatsKey_sequence.mp hrep v hv) hx]
      simp [Form.items, Value.dropMarks, Value.dropItemMarks_eq_map, Function.comp_def]
  | null =>
      cases hread
      rfl
  | _ => cases hread

theorem write_optional {α : Type} {form : Form} {read : Value → Decoded α}
    {encode : α → Value} (h : form.Follows read encode) {name : String} {v : Value}
    {o : Option α} (huntagged : form.untagged true v = true) (hrep : v.repeatsKey = false)
    (hread : optional read v = .ok o) :
    o.map encode = (Form.Field.optional name form).write (some v.dropMarks) := by
  by_cases hv : v = .null
  · subst hv
    cases hread
    rfl
  · have hread : (read v).map some = .ok o := by
      cases v <;> first | exact absurd rfl hv | exact hread
    obtain ⟨x, hx, rfl⟩ := Except.map_eq_ok.mp hread
    have hdrop : v.dropMarks ≠ .null := fun hnull => hv (Value.dropMarks_eq_null.mp hnull)
    rw [Option.map_some, h v x huntagged hrep hx]
    exact (if_neg hdrop).symm

/-- What is written of a map that is left out when it is empty. -/
def nonempty? {α : Type} (encode : OrderedMap String α → Value) (m : OrderedMap String α) :
    Option Value :=
  if m.isEmpty then none else some (encode m)

theorem write_unlessEmpty {α : Type} {form : Form}
    {read : Value → Decoded (OrderedMap String α)} {encode : OrderedMap String α → Value}
    (h : form.Follows read encode) (hempty : ∀ m, encode m = .mapping [] ↔ m.isEmpty)
    {name : String} {v : Value} {m : OrderedMap String α}
    (huntagged : form.untagged true v = true) (hrep : v.repeatsKey = false)
    (hread : read v = .ok m) :
    nonempty? encode m = (Form.Field.unlessEmpty name form).write (some v.dropMarks) := by
  have hnormal := h v m huntagged hrep hread
  simp only [nonempty?, Form.Field.unlessEmpty, ← hnormal, hempty]

theorem map_eq_empty_iff (m : OrderedMap String Value) :
    Encode.map m = .mapping [] ↔ m.isEmpty := by
  simp [Encode.map, Encode.fields, OrderedMap.isEmpty]

theorem labels_eq_empty_iff (l : Labels) : Encode.labels l = .mapping [] ↔ l.isEmpty := by
  simp [Encode.labels, OrderedMap.isEmpty]

/-! ## Records -/

namespace Record

open Form (Field)

variable {σ : Type}

/-- What the fields of a record write, one by one: `view` gives what is written of the
declared field of a name, and `extra` the fields that are kept. -/
structure Writes (r : Record σ) (fields : List Field) (view : String → σ → Option Value)
    (extra : σ → Fields) : Prop where
  declared : ∀ name, (r.field? name).isSome ↔ name ∈ fields.map Field.name
  start : ∀ f ∈ fields, f.name ∉ r.required → view f.name r.start = f.write none
  extra_start : extra r.start = ∅
  field : ∀ f ∈ fields, ∀ read v x y, r.field? f.name = some read →
    f.form.untagged true v = true → v.repeatsKey = false → read v x = .ok y →
      view f.name y = f.write (some v.dropMarks)
  frame : ∀ name read v x y, r.field? name = some read → read v x = .ok y →
    (∀ other, other ≠ name → view other y = view other x) ∧ extra y = extra x
  keep : ∀ keep name v x, r.keep? = some keep →
    (∀ other, view other (keep name v x) = view other x)
      ∧ extra (keep name v x) = (extra x).insert name v

/-- What is known of a record when some entries are read. -/
structure Written (r : Record σ) (fields : List Field) (view : String → σ → Option Value)
    (extra : σ → Fields) (es : List (Value × Value)) (s : List String × σ) : Prop where
  seen : ∀ name ∈ s.1, es.lookup (.string name) ≠ none
  views : ∀ f ∈ fields, view f.name s.2 = match es.lookup (.string f.name) with
    | some v => f.write (some v.dropMarks)
    | none => view f.name r.start
  others : Encode.fields (extra s.2)
    = if r.keep?.isSome then Form.others fields (dropEntryMarks es) else []

variable {r : Record σ} {fields : List Field} {view : String → σ → Option Value}
  {extra : σ → Fields}

namespace Writes

theorem written_start (w : r.Writes fields view extra) :
    r.Written fields view extra [] ([], r.start) where
  seen := by simp
  views _ _ := rfl
  others := by
    rw [w.extra_start]
    split <;> rfl

section

variable {es : List (Value × Value)} {s s' : List String × σ} {name : String} {v : Value}

theorem lookup_append_of_ne {other : String} (hne : other ≠ name) :
    (es ++ [(Value.string name, v)]).lookup (.string other) = es.lookup (.string other) := by
  have hkey : (Value.string other == Value.string name) = false :=
    beq_eq_false_iff_ne.mpr fun h => hne (Value.string.inj h)
  rw [List.lookup_append, List.lookup_cons, hkey]
  exact Option.or_none

theorem lookup_append_self (hnew : es.lookup (.string name) = none) :
    (es ++ [(Value.string name, v)]).lookup (.string name) = some v := by
  simp [List.lookup_append, hnew]

/-- A declared field. -/
theorem written_field (w : r.Writes fields view extra)
    (h : r.Written fields view extra es s) (hnew : es.lookup (.string name) = none)
    {read : Value → σ → Decoded σ} (hfield : r.field? name = some read)
    (huntagged : ∀ f ∈ fields, f.name = name → f.form.untagged true v = true)
    (hrep : v.repeatsKey = false) {y : σ} (hread : read v s.2 = .ok y) :
    r.Written fields view extra (es ++ [(.string name, v)]) (name :: s.1, y) := by
  have hname := (w.declared name).mp (Option.isSome_iff_exists.mpr ⟨read, hfield⟩)
  obtain ⟨f, hf, rfl⟩ := List.mem_map.mp hname
  obtain ⟨hothers, hextra⟩ := w.frame f.name read v s.2 y hfield hread
  constructor
  · intro other hother
    by_cases hne : other = f.name
    · rw [hne, lookup_append_self hnew]
      exact nofun
    · rw [lookup_append_of_ne hne]
      exact h.seen other ((List.mem_cons.mp hother).resolve_left hne)
  · intro g hg
    by_cases hne : g.name = f.name
    · -- fields of one name have the same reader
      have hfield' : r.field? g.name = some read := by rw [hne, hfield]
      rw [hne, lookup_append_self hnew, ← hne]
      exact w.field g hg read v s.2 y hfield' (huntagged g hg hne) hrep hread
    · rw [lookup_append_of_ne hne, ← h.views g hg]
      exact hothers g.name hne
  · have hdeclares := Form.declares_of_mem hf
    simp [hextra, h.others, Value.dropEntryMarks_eq_map, Form.others, hdeclares]

/-- A field that is kept. -/
theorem written_keep (w : r.Writes fields view extra)
    (h : r.Written fields view extra es s) (hnew : es.lookup (.string name) = none)
    (hfield : r.field? name = none) {keep : String → Value → σ → σ}
    (hkeep : r.keep? = some keep) (htag : v.hasTag = false) :
    r.Written fields view extra (es ++ [(.string name, v)]) (s.1, keep name v s.2) := by
  have hundeclared : ∀ f ∈ fields, f.name ≠ name := by
    intro f hf hname
    have hsome := (w.declared name).mpr (List.mem_map.mpr ⟨f, hf, hname⟩)
    rw [hfield] at hsome
    cases hsome
  have hdeclares : Form.declares fields (.string name) = false := by
    rw [Form.declares, List.any_eq_false]
    intro f hf heq
    rw [beq_iff_eq, Value.string.injEq] at heq
    exact hundeclared f hf heq.symm
  obtain ⟨hviews, hextra⟩ := w.keep keep name v s.2 hkeep
  have hothers := h.others
  rw [hkeep, Option.isSome_some, if_pos rfl] at hothers
  -- what is kept already has come before
  have hname : name ∉ (extra s.2).keys := by
    intro hmem
    obtain ⟨e, he, hkey⟩ := List.mem_map.mp hmem
    have hmem : (Value.string e.1, e.2) ∈ Form.others fields (dropEntryMarks es) :=
      hothers ▸ List.mem_map_of_mem he
    have hlookup := Value.lookup_dropEntryMarks es name
    rw [hnew, Option.map_none, List.lookup_eq_none_iff] at hlookup
    have hne := hlookup _ (List.mem_filter.mp hmem).1
    rw [hkey, bne_self_eq_false] at hne
    cases hne
  constructor
  · intro other hother
    have hne : other ≠ name := by
      rintro rfl
      exact h.seen other hother hnew
    rw [lookup_append_of_ne hne]
    exact h.seen other hother
  · intro f hf
    rw [lookup_append_of_ne (hundeclared f hf), ← h.views f hf]
    exact hviews f.name
  · have hinsert : Encode.fields ((extra s.2).insert name v)
        = Encode.fields (extra s.2) ++ [(.string name, v)] := by
      rw [Encode.fields, OrderedMap.entries_insert_of_not_mem hname, List.map_append]
      rfl
    rw [hextra, hinsert, hothers, hkeep]
    simp [Value.dropEntryMarks_eq_map, Form.others, hdeclares,
      Value.dropMarks_of_hasTag v htag]

/-- A field that is neither declared nor kept. -/
theorem written_skip (w : r.Writes fields view extra)
    (h : r.Written fields view extra es s) (hfield : r.field? name = none)
    (hkeep : r.keep? = none) :
    r.Written fields view extra (es ++ [(.string name, v)]) s := by
  constructor
  · intro other hother hnone
    rw [List.lookup_append, Option.or_eq_none_iff] at hnone
    exact h.seen other hother hnone.1
  · intro f hf
    have hne : f.name ≠ name := by
      intro hname
      have hsome := (w.declared name).mpr (List.mem_map.mpr ⟨f, hf, hname⟩)
      rw [hfield] at hsome
      cases hsome
    rw [lookup_append_of_ne hne]
    exact h.views f hf
  · rw [h.others, hkeep]
    rfl

/-- One entry. -/
theorem written_step (w : r.Writes fields view extra)
    (h : r.Written fields view extra es s) {e : Value × Value}
    (hkey : e.1.isTagged = false) (hnew : es.lookup e.1 = none)
    (huntagged : ∀ f ∈ fields, e.1 = .string f.name → f.form.untagged true e.2 = true)
    (hrep : e.2.repeatsKey = false) (hstep : r.step s e = .ok s') :
    r.Written fields view extra (es ++ [e]) s' := by
  obtain ⟨name, hname, hstep⟩ := Except.bind_eq_ok.mp hstep
  obtain ⟨k, v⟩ := e
  obtain rfl : k = .string name := eq_string_of_stringFor hkey hname
  split at hstep
  · -- a declared field is read, unless it was read before
    next read hfield =>
      split at hstep
      · cases hstep
      · obtain ⟨y, hread, hstep⟩ := Except.bind_eq_ok.mp hstep
        cases hstep
        exact w.written_field h hnew hfield
          (fun f hf hname => huntagged f hf (hname ▸ rfl)) hrep hread
  · -- any other field is kept or passed over
    next hfield =>
      split at hstep
      · next keep hkeep =>
          split at hstep
          · cases hstep
          · next htag =>
              cases hstep
              exact w.written_keep h hnew hfield hkeep (Bool.eq_false_iff.mpr htag)
      · next hkeep =>
          cases hstep
          exact w.written_skip h hfield hkeep

end

/-- All entries. -/
theorem written_foldlM (w : r.Writes fields view extra) {done es : List (Value × Value)}
    {s s' : List String × σ} (h : r.Written fields view extra done s)
    (hkeys : ∀ e ∈ es, e.1.isTagged = false) (hnodup : ((done ++ es).map Prod.fst).Nodup)
    (huntagged : ∀ e ∈ es, ∀ f ∈ fields, e.1 = .string f.name →
      f.form.untagged true e.2 = true)
    (hrep : ∀ e ∈ es, e.2.repeatsKey = false) (hfold : es.foldlM r.step s = .ok s') :
    r.Written fields view extra (done ++ es) s' := by
  -- the entries that are done grow by one in each step
  induction es generalizing done s with
  | nil =>
      cases hfold
      rwa [List.append_nil]
  | cons e rest ih =>
      rw [List.foldlM_cons] at hfold
      obtain ⟨t, ht, hfold⟩ := Except.bind_eq_ok.mp hfold
      have hnew : done.lookup e.1 = none := by
        rw [List.lookup_eq_none_iff]
        intro d hd
        rw [List.map_append, List.nodup_append] at hnodup
        have hne := hnodup.2.2 d.1 (List.mem_map_of_mem hd) e.1 List.mem_cons_self
        exact bne_iff_ne.mpr hne.symm
      have hstep := w.written_step h (hkeys e List.mem_cons_self) hnew
        (huntagged e List.mem_cons_self) (hrep e List.mem_cons_self) ht
      rw [List.append_cons] at hnodup ⊢
      exact ih hstep (fun e he => hkeys e (List.mem_cons_of_mem _ he)) hnodup
        (fun e he => huntagged e (List.mem_cons_of_mem _ he))
        (fun e he => hrep e (List.mem_cons_of_mem _ he)) hfold

theorem exists_string_of_step {s s' : List String × σ} {e : Value × Value}
    (hkey : e.1.isTagged = false) (hstep : r.step s e = .ok s') :
    ∃ name, e.1 = .string name := by
  obtain ⟨name, hname, -⟩ := Except.bind_eq_ok.mp hstep
  exact ⟨name, eq_string_of_stringFor hkey hname⟩

theorem exists_string_of_foldlM {es : List (Value × Value)} {s s' : List String × σ}
    (hkeys : ∀ e ∈ es, e.1.isTagged = false) (hfold : es.foldlM r.step s = .ok s') :
    ∀ e ∈ es, ∃ name, e.1 = .string name := by
  induction es generalizing s with
  | nil => simp
  | cons e rest ih =>
      rw [List.foldlM_cons] at hfold
      obtain ⟨t, ht, hfold⟩ := Except.bind_eq_ok.mp hfold
      intro e' he'
      rcases List.mem_cons.mp he' with rfl | he'
      · exact exists_string_of_step (hkeys e' List.mem_cons_self) ht
      · exact ih (fun e he => hkeys e (List.mem_cons_of_mem _ he)) hfold e' he'

/-- A record that was read, field by field. -/
theorem read_fields (w : r.Writes fields view extra) {keeps : Bool}
    (hkeeps : r.keep?.isSome = keeps) {hfields : (fields.map Field.name).Nodup} {v : Value}
    {x : σ} (huntagged : (Form.record fields keeps hfields).untagged true v = true)
    (hrep : v.repeatsKey = false) (h : r.read v = .ok x) :
    ∃ es, (v = .mapping es ∨ v = .null ∧ es = [])
      ∧ (∀ f ∈ fields, view f.name x
          = f.write ((es.lookup (.string f.name)).map Value.dropMarks))
      ∧ Encode.fields (extra x)
          = if keeps then Form.others fields (dropEntryMarks es) else [] := by
  have htagged := (Form.record fields keeps hfields).isTagged_of_untagged _ _ huntagged
  obtain ⟨es, hes, h⟩ := Except.bind_eq_ok.mp h
  obtain ⟨s, hfold, h⟩ := Except.bind_eq_ok.mp h
  have hv : v = .mapping es ∨ v = .null ∧ es = [] := by
    rw [entries?, Value.untag_of_isTagged htagged] at hes
    cases v <;> cases hes
    · exact .inr ⟨rfl, rfl⟩
    · exact .inl rfl
  have hwritten : r.Written fields view extra es s := by
    rcases hv with rfl | ⟨-, rfl⟩
    · simp only [Form.record, Form.entries, Form.hasEntries, Form.untaggedEntries,
        Form.plainKeys, Bool.not_true, Bool.false_or, Bool.and_eq_true, List.all_eq_true,
        Bool.not_eq_true', Option.all_eq_true] at huntagged
      have hnodup := Value.nodup_keys hrep (exists_string_of_foldlM huntagged.1 hfold)
      have hlookup : ∀ e ∈ es, es.lookup e.1 = some e.2 := fun e he =>
        List.lookup_of_mem hnodup he
      exact w.written_foldlM w.written_start huntagged.1 hnodup
        (fun e he f hf hname => huntagged.2 f hf e.2 (hname ▸ hlookup e he))
        (fun e he => Value.repeatsKey_of_mem hrep he) hfold
    · cases hfold
      exact w.written_start
  dsimp only at h
  split at h
  · cases h
  · next hrequired =>
      cases h
      refine ⟨es, hv, fun f hf => ?_, by rw [hwritten.others, hkeeps]⟩
      rw [hwritten.views f hf]
      cases hf' : es.lookup (.string f.name) with
      | some v => rfl
      | none =>
          -- a required field has been seen
          refine w.start f hf fun hmem => ?_
          have hseen := List.find?_eq_none.mp hrequired f.name hmem
          simp only [decide_not, Bool.not_eq_true', decide_eq_false_iff_not, not_not]
            at hseen
          exact hwritten.seen f.name hseen hf'

/-- A record follows its form when each of its fields does. -/
theorem follows (w : r.Writes fields view extra) {keeps : Bool}
    (hkeeps : r.keep?.isSome = keeps) (hfields : (fields.map Field.name).Nodup)
    {encode : σ → Value}
    (hencode : ∀ x, encode x = .mapping
      ((fields.flatMap fun f => Encode.optional f.name id (view f.name x))
        ++ Encode.fields (extra x))) :
    (Form.record fields keeps hfields).Follows r.read encode := by
  intro v x huntagged hrep h
  obtain ⟨es, hv, hviews, hothers⟩ := w.read_fields hkeeps huntagged hrep h
  have hnormal : (Form.record fields keeps hfields).normal v.dropMarks
      = .mapping (Form.recordEntries fields keeps (dropEntryMarks es)) := by
    rcases hv with rfl | ⟨rfl, rfl⟩
    · rfl
    · rfl
  rw [hencode, hothers, hnormal, Form.recordEntries, Form.declared]
  congr 2
  refine List.flatMap_congr fun f hf => ?_
  rw [hviews f hf, Value.lookup_dropEntryMarks]

end Writes

end Record

end Decode

end SimAnnotate
