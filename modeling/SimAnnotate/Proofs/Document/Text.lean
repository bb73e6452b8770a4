import Mathlib.Data.Option.Basic
import SimAnnotate.Proofs.Document.RoundTrip

/-!
# Texts of documents

What `Document.printAll` writes and when it fails, and that reading the text
gives the documents again. Of YAML itself this needs that the text gives back
the values it was written for, `Yaml.Stream.Gives`.
-/

namespace SimAnnotate

open Yaml (Value Stream)

/-- Reading the text gives these values back, and taking one of them over
changes nothing in it. -/
structure Yaml.Stream.Gives (text : String) (vs : List Value) : Prop where
  read : Stream.read text = ⟨vs, true⟩
  taken : ∀ v ∈ vs, v.dropMarks = v

instance (text : String) (vs : List Value) : Decidable (Stream.Gives text vs) :=
  decidable_of_iff (Stream.read text = ⟨vs, true⟩ ∧ ∀ v ∈ vs, v.dropMarks = v)
    ⟨fun h => ⟨h.1, h.2⟩, fun h => ⟨h.read, h.taken⟩⟩

theorem Yaml.Stream.read_ofList (cs : List Char) :
    Stream.read (String.ofList cs) = Stream.ofChars cs :=
  congrArg Stream.ofChars String.toList_ofList

/-- Where the characters of the text are known they are read. -/
instance (cs : List Char) (vs : List Value) :
    Decidable (Stream.Gives (String.ofList cs) vs) :=
  decidable_of_iff (Stream.ofChars cs = ⟨vs, true⟩ ∧ ∀ v ∈ vs, v.dropMarks = v)
    ⟨fun h => ⟨(Stream.read_ofList cs).trans h.1, h.2⟩,
      fun h => ⟨(Stream.read_ofList cs).symm.trans h.read, h.taken⟩⟩

namespace Document

/-! ## Writing -/

/-- Whether a document has a kind that can be written. -/
def isKnown (d : Document) : Bool := d.encode?.isSome

/-- Whether the document's value can be written. -/
def isWritable (d : Document) : Bool := d.encode?.all Value.isWritable

/-- Why the document's value cannot be written. -/
def unwritable? (d : Document) : Option Yaml.Unwritable := d.encode?.bind Value.unwritable?

theorem isKnown_iff {d : Document} : d.isKnown = true ↔ ∀ k, d.kind ≠ .other k := by
  obtain ⟨m, spec, file⟩ := d
  cases spec <;> simp [isKnown, encode?, Encode.spec?, kind]

theorem print_eq_ok {d : Document} {text : String} :
    d.print = .ok text ↔
      ∃ v, d.encode? = some v ∧ v.isWritable = true ∧ v.print = text := by
  unfold print
  cases d.encode? with
  | none => simp
  | some v => cases hv : v.unwritable? <;> simp [Value.isWritable, hv]

theorem exists_print_iff {d : Document} :
    (∃ text, d.print = .ok text) ↔ d.isKnown = true ∧ d.isWritable = true := by
  simp only [print_eq_ok, isKnown, isWritable]
  cases d.encode? <;> simp

/-- A document without a text has a kind that is not known or a value that
cannot be written. -/
theorem print_eq_error {d : Document} {e : PrintError} :
    d.print = .error e ↔ (∃ k, d.kind = .other k ∧ e = .unknownKind k)
      ∨ (d.isKnown = true ∧ ∃ cause, d.unwritable? = some cause ∧ e = .unwritable cause) := by
  unfold print unwritable?
  cases hd : d.encode? with
  | none =>
      -- the kind alone decides whether there is a value
      have hkind : ∃ k, d.kind = .other k := by
        by_contra h
        have hknown := isKnown_iff.mpr fun k hk => h ⟨k, hk⟩
        rw [isKnown, hd] at hknown
        cases hknown
      obtain ⟨k, hk⟩ := hkind
      simp [isKnown, hd, hk, Kind.text, eq_comm]
  | some v =>
      have hknown : d.isKnown = true := by rw [isKnown, hd]; rfl
      have hkind : ¬ ∃ k, d.kind = .other k ∧ e = .unknownKind k :=
        fun ⟨k, hk, _⟩ => isKnown_iff.mp hknown k hk
      cases hv : v.unwritable? with
      | none => simp [hv, hkind]
      | some cause => simp [hv, hkind, hknown, eq_comm]

theorem printAll_eq_ok {ds : List Document} {text : String} :
    printAll ds = .ok text ↔ ∃ texts, ds.mapM print = .ok texts
      ∧ separator.intercalate texts = text := by
  unfold printAll
  simp [Except.bind_eq_ok, pure, Except.pure]

/-- The characters of a document's text, if it has one. -/
def chars? (d : Document) : Option (List Char) :=
  (d.encode?.filter (·.isWritable)).map Yaml.Print.text

theorem toOption_print (d : Document) : d.print.toOption = d.chars?.map String.ofList := by
  unfold print chars?
  cases d.encode? with
  | none => rfl
  | some v =>
      cases hv : v.unwritable? with
      | none => simp [Value.isWritable, hv, Value.print, Except.toOption]
      | some cause => simp [Value.isWritable, hv, Except.toOption]

theorem toOption_mapM_print (ds : List Document) :
    (ds.mapM print).toOption = (ds.mapM chars?).map (·.map String.ofList) := by
  induction ds with
  | nil => rfl
  | cons d rest ih =>
      have hd := toOption_print d
      rw [List.mapM_cons, List.mapM_cons]
      -- one document without a text leaves all without
      cases hprint : d.print with
      | error e =>
          rw [hprint] at hd
          rw [Option.map_eq_none_iff.mp hd.symm]
          rfl
      | ok text =>
          rw [hprint] at hd
          obtain ⟨cs, hcs, rfl⟩ := Option.map_eq_some_iff.mp hd.symm
          rw [hcs]
          cases hrest : rest.mapM print with
          | error e =>
              rw [hrest] at ih
              simp [Option.map_eq_none_iff.mp ih.symm, Except.toOption, bind, Except.bind]
          | ok texts =>
              rw [hrest] at ih
              obtain ⟨css, hcss, rfl⟩ := Option.map_eq_some_iff.mp ih.symm
              simp [hcss, Except.toOption, bind, Except.bind, pure, Except.pure]

/-- The text of several documents, from its characters. -/
theorem toOption_printAll (ds : List Document) : (printAll ds).toOption
    = (ds.mapM chars?).map fun css => String.ofList (separator.toList.intercalate css) := by
  have h := toOption_mapM_print ds
  unfold printAll
  cases hprint : ds.mapM print with
  | error e =>
      rw [hprint] at h
      rw [Option.map_eq_none_iff.mp h.symm]
      rfl
  | ok texts =>
      rw [hprint] at h
      obtain ⟨css, hcss, rfl⟩ := Option.map_eq_some_iff.mp h.symm
      rw [hcss]
      refine congrArg some (String.toList_inj.mp ?_)
      simp [String.toList_intercalate, Function.comp_def]

theorem gives_printAll_iff {ds : List Document} {vs : List Value} :
    (∀ text ∈ (printAll ds).toOption, Stream.Gives text vs) ↔ ∀ css ∈ ds.mapM chars?,
      Stream.Gives (String.ofList (separator.toList.intercalate css)) vs := by
  rw [toOption_printAll]
  exact Option.forall_mem_map

/-- Documents are written when each of them can be. -/
theorem exists_printAll_iff {ds : List Document} :
    (∃ text, printAll ds = .ok text) ↔
      ∀ d ∈ ds, d.isKnown = true ∧ d.isWritable = true := by
  have htexts : (∃ text, printAll ds = .ok text) ↔ ∃ texts, ds.mapM print = .ok texts := by
    simp only [printAll_eq_ok]
    exact ⟨fun ⟨_, texts, h, _⟩ => ⟨texts, h⟩, fun ⟨texts, h⟩ => ⟨_, texts, h, rfl⟩⟩
  rw [htexts, List.exists_mapM_iff]
  simp only [exists_print_iff]

/-- The first document that cannot be written decides the error. -/
theorem printAll_eq_error {ds : List Document} {e : PrintError} :
    printAll ds = .error e ↔ ∃ before d after, ds = before ++ d :: after
      ∧ (∀ x ∈ before, x.isKnown = true ∧ x.isWritable = true)
      ∧ d.print = .error e := by
  have hprint : printAll ds = .error e ↔ ds.mapM print = .error e := by
    unfold printAll
    cases ds.mapM print <;> simp [pure, Except.pure]
  rw [hprint, List.mapM_eq_error]
  simp only [exists_print_iff]

/-! ## Reading -/

/-- Documents that are read from the values they are written as. -/
theorem ofValues_encode {ds : List Document} (h : ∀ d ∈ ds, d.Sound)
    (hknown : ∀ d ∈ ds, d.isKnown = true)
    (htaken : ∀ v ∈ ds.filterMap encode?, v.dropMarks = v) :
    ofValues (ds.filterMap encode?) = .ok (ds.map fun d => { d with file := none }) := by
  -- reading drops null values, and no document is written as one
  have hnull : (ds.filterMap encode?).filter (!·.isNull) = ds.filterMap encode? := by
    rw [List.filter_eq_self]
    intro v hv
    obtain ⟨d, -, hd⟩ := List.mem_filterMap.mp hv
    obtain ⟨w, -, rfl⟩ := Option.map_eq_some_iff.mp hd
    rfl
  rw [ofValues, hnull]
  -- positions are for errors only, so the induction starts at any
  generalize 0 = n
  clear hnull
  induction ds generalizing n with
  | nil => rfl
  | cons d rest ih =>
      obtain ⟨v, hv⟩ := Option.isSome_iff_exists.mp (hknown d List.mem_cons_self)
      rw [List.filterMap_cons_some hv] at htaken ⊢
      have hd := ofValue_encode (h d List.mem_cons_self) hv
        (htaken v List.mem_cons_self) n
      have hrest := ih (fun d hd => h d (List.mem_cons_of_mem _ hd))
        (fun d hd => hknown d (List.mem_cons_of_mem _ hd))
        (fun v hv => htaken v (List.mem_cons_of_mem _ hv)) (n + 1)
      rw [List.zipIdx_cons, List.mapM_cons]
      dsimp only
      rw [hd, Except.ok_bind, hrest]
      rfl

/-- A text that gives the values of documents is read as the documents. -/
theorem parse_of_gives {ds : List Document} {text : String}
    (h : ∀ d ∈ ds, d.Sound) (hknown : ∀ d ∈ ds, d.isKnown = true)
    (htext : Stream.Gives text (ds.filterMap encode?)) :
    parse text = .ok (ds.map fun d => { d with file := none }) := by
  rw [parse, htext.read, ofStream]
  simp only [ofValues_encode h hknown htext.taken, Except.ok_bind]
  rfl

/-! ## Reading, writing and reading -/

/-- Documents that were read from a text can be written exactly when all of them
are of known kinds and have values that can be written; else the first that is
not decides the error. What is written is read as the same documents. -/
theorem printAll_of_parse {text : String} {ds : List Document}
    (h : parse text = .ok ds) :
    ((∃ out, printAll ds = .ok out) ↔
        (∀ d ∈ ds, ∀ k, d.kind ≠ .other k) ∧ ∀ d ∈ ds, d.isWritable = true)
      ∧ (∀ e, printAll ds = .error e ↔ ∃ before d after, ds = before ++ d :: after
          ∧ (∀ x ∈ before, (∀ k, x.kind ≠ .other k) ∧ x.isWritable = true)
          ∧ ((∃ k, d.kind = .other k ∧ e = .unknownKind k)
            ∨ ((∀ k, d.kind ≠ .other k)
              ∧ ∃ cause, d.unwritable? = some cause ∧ e = .unwritable cause)))
      ∧ ∀ out, printAll ds = .ok out → Stream.Gives out (ds.filterMap encode?) →
          parse out = .ok ds := by
  refine ⟨?_, fun e => ?_, fun out hout hgives => ?_⟩
  · simp only [exists_printAll_iff, isKnown_iff, forall_and]
  · simp only [printAll_eq_error, print_eq_error, isKnown_iff]
  · have hsound := sound_of_parse h
    have hknown := exists_printAll_iff.mp ⟨out, hout⟩
    have hfile : (ds.map fun d => { d with file := none }) = ds := by
      have heq : ∀ d ∈ ds, { d with file := none } = id d := by
        intro d hd
        have hnone := (hsound d hd).2
        cases d
        cases hnone
        rfl
      rw [List.map_congr_left heq, List.map_id]
    rw [parse_of_gives (fun d hd => (hsound d hd).1) (fun d hd => (hknown d hd).1) hgives,
      hfile]

/-- A model whose channel has no name, no selectors and a field of its own; it is
written in another order than it was read. -/
theorem printAll_of_parse_model :
    let text := "spec:\n  channels:\n  - x: 1\n    selectors: \x7b\x7d\n"
      ++ "    alias: a\nmetadata:\n  name: m\nkind: Model\n"
    let channel : Channel := ⟨none, some "a", some ∅, .ofList [("x", .ofNat 1)]⟩
    let ds : List Document := [⟨⟨"m", ∅, ∅⟩, .model ⟨some [channel], ∅⟩, none⟩]
    let out := "kind: Model\nmetadata:\n  name: m\nspec:\n  channels:\n"
      ++ "  - alias: a\n    selectors: \x7b\x7d\n    x: 1\n"
    parse text = .ok ds ∧ printAll ds = .ok out ∧ parse out = .ok ds := by
  intro text channel ds out
  have h : parse text = .ok ds := by decide +kernel
  have hout : printAll ds = .ok out := by decide +kernel
  exact ⟨h, hout, (printAll_of_parse h).2.2 out hout (by decide +kernel)⟩

/-- A document of a known kind that cannot be written: the only key of a mapping
is itself a mapping. -/
theorem printAll_of_hidden_key :
    let text := "kind: Model\nmetadata:\n  name: m\n  annotations:\n"
      ++ "    k:\n      ? a: b\n      : c\n"
    let key : Value := .mapping [(.string "a", .string "b")]
    let annotations := .ofList [("k", .mapping [(key, .string "c")])]
    let ds : List Document := [⟨⟨"m", ∅, annotations⟩, .model default, none⟩]
    parse text = .ok ds ∧ (∀ d ∈ ds, ∀ k, d.kind ≠ .other k)
      ∧ printAll ds = .error (.unwritable .hiddenStart) := by
  intro text key annotations ds
  refine ⟨by decide +kernel, ?_, by decide +kernel⟩
  have hknown : ∀ d ∈ ds, d.isKnown = true := by decide +kernel
  exact fun d hd => isKnown_iff.mp (hknown d hd)

end Document

end SimAnnotate
