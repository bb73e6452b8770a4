import SimAnnotate.Proofs.Document.Text
import SimAnnotate.Proofs.Yaml.Stream

/-!
# Documents behind other text

A document with a line of dashes in front can stand behind any text that ends with a line
end: the text is read as its own documents, and then the new ones
(`parse_append_dashed`). Of YAML itself this needs that one document gives back its value.
-/

namespace SimAnnotate

open Yaml (Value Stream)

namespace Yaml

theorem Text.isLined_of_endsLine {cs : List Char} (h : endsLine cs = true) :
    isLined cs = true := by
  rw [endsLine] at h
  rw [isLined]
  cases hlast : cs.getLast? with
  | none => rfl
  | some c =>
      rw [hlast, Option.any_some, isBreak] at h
      simp only [Bool.or_eq_true, decide_eq_true_eq] at h
      rcases h with (rfl | rfl) | rfl <;> rfl

/-- A document is written with a line end. -/
theorem Print.endsLine_text (v : Value) : Text.endsLine (Print.text v) = true := by
  unfold Print.text
  simp only
  split
  · next h => exact h
  · rw [Text.endsLine, List.getLast?_concat]
    rfl

theorem Stream.read_append_ofList (s : String) (cs : List Char) :
    Stream.read (s ++ String.ofList cs) = Stream.ofChars (s.toList ++ cs) := by
  rw [Stream.read, String.toList_append, String.toList_ofList]

end Yaml

/-- A walk that finds something everywhere. -/
theorem mapM_eq_some_map {α β : Type} {f : α → Option β} {g : α → β} {xs : List α}
    (h : ∀ x ∈ xs, f x = some (g x)) : xs.mapM f = some (xs.map g) := by
  induction xs with
  | nil => rfl
  | cons x rest ih =>
      rw [List.mapM_cons, h x List.mem_cons_self, ih fun x hx => h x (List.mem_cons_of_mem _ hx)]
      rfl

namespace Document

/-! ## Writing -/

/-- The characters of a document behind a line of dashes. -/
def dashed (d : Document) : List Char := separator.toList ++ d.chars?.getD []

/-- What is assumed of YAML: the text of the document, behind a line of dashes, gives
back the value it is written for. -/
def GivesBack (d : Document) : Prop :=
  ∀ text ∈ d.print.toOption, Stream.Gives (separator ++ text) d.encode?.toList

theorem givesBack_iff {d : Document} : d.GivesBack ↔
    ∀ cs ∈ d.chars?, Stream.Gives (String.ofList (separator.toList ++ cs)) d.encode?.toList := by
  have htext : ∀ cs : List Char, separator ++ String.ofList cs
      = String.ofList (separator.toList ++ cs) := by
    intro cs
    rw [String.ofList_append, String.ofList_toList]
  unfold GivesBack
  rw [toOption_print, Option.forall_mem_map]
  simp only [htext]

instance (d : Document) : Decidable d.GivesBack := decidable_of_iff _ givesBack_iff.symm

theorem exists_chars {d : Document} (hknown : d.isKnown = true)
    (hwritable : d.isWritable = true) :
    ∃ v, d.encode? = some v ∧ d.chars? = some (Yaml.Print.text v) := by
  obtain ⟨v, hv⟩ := Option.isSome_iff_exists.mp hknown
  rw [isWritable, hv, Option.all_some] at hwritable
  refine ⟨v, hv, ?_⟩
  rw [chars?, hv, Option.filter_some_pos hwritable, Option.map_some]

/-- A document that can be written and is read back. -/
structure Dashable (d : Document) : Prop where
  sound : d.Sound
  known : d.isKnown = true
  writable : d.isWritable = true
  back : d.GivesBack

namespace Dashable

variable {d : Document} (h : d.Dashable)

include h

theorem gives : Stream.Gives (String.ofList d.dashed) d.encode?.toList := by
  obtain ⟨v, -, hchars⟩ := exists_chars h.known h.writable
  rw [dashed, hchars, Option.getD_some]
  exact givesBack_iff.mp h.back _ hchars

theorem isSection : Stream.Section d.dashed d.encode?.toList := by
  obtain ⟨v, -, hchars⟩ := exists_chars h.known h.writable
  refine ⟨rfl, ?_, ?_⟩
  · rw [dashed, hchars, Option.getD_some]
    exact Yaml.Text.isLined_append (by decide)
      (Yaml.Text.isLined_of_endsLine (Yaml.Print.endsLine_text v))
  · rw [← Yaml.Stream.read_ofList]
    exact h.gives.read

end Dashable

/-! ## Reading -/

/-- The position of a value is for errors only. -/
theorem ofValue_eq_ok {n : Nat} {v : Value} {d : Document} (h : ofValue n v = .ok d)
    (m : Nat) : ofValue m v = .ok d := by
  unfold ofValue at h ⊢
  obtain ⟨frame, hframe, h⟩ := Except.bind_eq_ok.mp h
  rw [hframe, Except.ok_bind]
  cases hkind : frame.kind with
  | none =>
      rw [hkind] at h
      cases h
  | some kind =>
      rw [hkind] at h
      exact h

theorem mapM_ofValue_eq_ok {vs : List Value} {n : Nat} {ds : List Document}
    (h : (vs.zipIdx n).mapM (fun (v, n) => ofValue n v) = .ok ds) (m : Nat) :
    (vs.zipIdx m).mapM (fun (v, n) => ofValue n v) = .ok ds := by
  induction vs generalizing n m ds with
  | nil => exact h
  | cons v rest ih =>
      rw [List.zipIdx_cons, List.mapM_cons] at h ⊢
      obtain ⟨d, hd, h⟩ := Except.bind_eq_ok.mp h
      obtain ⟨ds', hrest, h⟩ := Except.bind_eq_ok.mp h
      have hd' : ofValue m v = .ok d := ofValue_eq_ok hd m
      simp only [hd', ih hrest (m + 1), Except.ok_bind]
      exact h

theorem ofValues_append {vs vs' : List Value} {ds ds' : List Document}
    (h : ofValues vs = .ok ds) (h' : ofValues vs' = .ok ds') :
    ofValues (vs ++ vs') = .ok (ds ++ ds') := by
  unfold ofValues at h h' ⊢
  rw [List.filter_append, List.zipIdx_append, List.mapM_append, h, Except.ok_bind,
    mapM_ofValue_eq_ok h', Except.ok_bind]
  rfl

theorem parse_eq_ok {text : String} {ds : List Document} : parse text = .ok ds ↔
    ∃ vs, Stream.read text = ⟨vs, true⟩ ∧ ofValues vs = .ok ds := by
  rw [parse, ofStream]
  obtain ⟨vs, intact⟩ := Stream.read text
  cases hvalues : ofValues vs with
  | error e => simp [hvalues]
  | ok ds' => cases intact <;> simp [hvalues, pure, Except.pure]

/-- The documents of a text are read as the text goes on behind them. -/
theorem parse_append_dashed {old : String} {ds ds' : List Document}
    (hline : Yaml.Text.isLined old.toList = true) (hold : parse old = .ok ds)
    (hds' : ∀ d ∈ ds', d.Dashable) :
    parse (old ++ String.ofList (ds'.flatMap dashed))
      = .ok (ds ++ ds'.map fun d => { d with file := none }) := by
  obtain ⟨vs, hread, hvalues⟩ := parse_eq_ok.mp hold
  have hread' := Stream.ofChars_sections (fun d hd => (hds' d hd).isSection) hline hread
  refine parse_eq_ok.mpr ⟨vs ++ ds'.filterMap encode?, ?_, ?_⟩
  · rw [Stream.read_append_ofList, hread', List.filterMap_eq_flatMap_toList]
  · refine ofValues_append hvalues (ofValues_encode (fun d hd => (hds' d hd).sound)
      (fun d hd => (hds' d hd).known) fun v hv => ?_)
    obtain ⟨d, hd, henc⟩ := List.mem_filterMap.mp hv
    exact (hds' d hd).gives.taken v (by rw [henc]; exact List.mem_singleton_self v)

end Document

end SimAnnotate
