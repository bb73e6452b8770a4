import Mathlib.Algebra.Group.End
import Mathlib.Data.Fintype.Sets
import Mathlib.Logic.Equiv.Basic
import SimAnnotate.Proofs.FileTree.Locate
import SimAnnotate.Proofs.Patch

/-!
# Renaming signals back and forth

All signals of a group are looked up under the names that they had before, so a table may
exchange names or send them around in a cycle. The rows of a permutation of names, in any
order, give each signal its new name, and the same rows read backwards undo that
(`apply_renames_back`).

There is such a table for every permutation: `Csv.line` writes a row with both fields in
quotes, and whatever bytes they hold it is read as these fields.
-/

namespace SimAnnotate

/-! ## Writing rows -/

namespace Csv

/-- The bytes of a field between its quotes. -/
def escaped (bs : Bytes) : Bytes :=
  bs.flatMap fun b => if b = quote then [quote, quote] else [b]

/-- A row of two fields, both in quotes. -/
def line (source target : Bytes) : Bytes :=
  quote :: escaped source ++ quote :: comma :: quote :: escaped target ++ [quote, 0x0a]

/-- What stands between quotes is read as it was before it was escaped. -/
theorem recordsFrom_escaped (bs : Bytes) (p : Partial) (rest : Bytes) :
    recordsFrom .quoted p (escaped bs ++ rest)
      = recordsFrom .quoted { p with field := bs.reverse ++ p.field } rest := by
  induction bs generalizing p with
  | nil => rfl
  | cons b bs ih =>
      have hstep : recordsFrom .quoted p (escaped (b :: bs) ++ rest)
          = recordsFrom .quoted (p.push b) (escaped bs ++ rest) := by
        by_cases hb : b = quote
        · simp [escaped, hb, recordsFrom]
        · simp [escaped, hb, recordsFrom]
      rw [hstep, ih]
      simp [Partial.push]

theorem recordsFrom_line (source target rest : Bytes) :
    recordsFrom .start .empty (line source target ++ rest)
      = [source, target] :: recordsFrom .start .empty rest := by
  have hopen : ∀ bs, recordsFrom .start .empty (quote :: bs)
      = recordsFrom .quoted .empty bs := fun _ => rfl
  have hcomma : ∀ p bs, recordsFrom .quoted p (quote :: comma :: quote :: bs)
      = recordsFrom .quoted p.endField bs := fun _ _ => rfl
  have hend : ∀ p bs, recordsFrom .quoted p (quote :: 0x0a :: bs)
      = p.record :: recordsFrom .start .empty bs := fun _ _ => rfl
  have hline : line source target ++ rest = quote :: (escaped source
      ++ quote :: comma :: quote :: (escaped target ++ quote :: 0x0a :: rest)) := by
    simp [line]
  rw [hline, hopen, recordsFrom_escaped, hcomma, recordsFrom_escaped, hend]
  simp [Partial.record, Partial.endField, Partial.empty]

theorem records_lines (rows : List (Bytes × Bytes)) :
    records (rows.flatMap fun row => line row.1 row.2) = rows.map fun row => [row.1, row.2] := by
  -- a row begins with a quote, so there is no mark in front
  have hmark : dropMark (rows.flatMap fun row => line row.1 row.2)
      = rows.flatMap fun row => line row.1 row.2 := by
    cases rows <;> rfl
  rw [records, hmark]
  clear hmark
  induction rows with
  | nil => rfl
  | cons row rest ih => rw [List.flatMap_cons, recordsFrom_line, ih, List.map_cons]

/-- The bytes of a text are read as the text without blanks at its ends. -/
theorem field?_toUTF8 (s : String) : field? s.toUTF8.data.toList = some (trim s) := by
  rw [field?, Array.toArray_toList, FileTree.fromUTF8?_toUTF8, Option.map_some]

end Csv

namespace Patch

/-! ## Tables of rows -/

/-- A table with these rows. -/
def ofRows (rows : List (String × String)) : ByteArray :=
  ⟨((("source", "target") :: rows).flatMap fun row =>
    Csv.line row.1.toUTF8.data.toList row.2.toUTF8.data.toList).toArray⟩

/-- It holds the rows, if there are no blanks around their fields. -/
theorem holds_ofRows {rows : List (String × String)}
    (h : ∀ row ∈ rows, Csv.trim row.1 = row.1 ∧ Csv.trim row.2 = row.2) :
    Holds (ofRows rows) rows := by
  have hrecords : Csv.records (ofRows rows).toList
      = (("source", "target") :: rows).map fun row =>
        [row.1.toUTF8.data.toList, row.2.toUTF8.data.toList] := by
    have hlines := Csv.records_lines ((("source", "target") :: rows).map fun row =>
      (row.1.toUTF8.data.toList, row.2.toUTF8.data.toList))
    rw [List.flatMap_map, List.map_map] at hlines
    rw [ByteArray.toList_eq]
    exact hlines
  refine ⟨_, _, ["source", "target"], hrecords, by decide, rfl, ?_⟩
  rw [List.forall₂_map_left_iff]
  refine List.forall₂_same.mpr fun row hrow => ⟨[], ?_⟩
  obtain ⟨hsource, htarget⟩ := h row hrow
  rw [Csv.fields?, List.mapM_cons, List.mapM_cons, List.mapM_nil, Csv.field?_toUTF8,
    Csv.field?_toUTF8, hsource, htarget]
  rfl

/-! ## Rows of a permutation -/

variable {S : Finset String} {f : Equiv.Perm S} {rows rows' : List (String × String)}

/-- The rows send each name of a set to what a permutation of the set makes of it. Their
order does not matter. -/
def Renames (f : Equiv.Perm S) (rows : List (String × String)) : Prop :=
  ∀ row, row ∈ rows ↔ ∃ a : S, row = (a.1, (f a).1)

theorem renames_iff : Renames f rows ↔ (∀ row ∈ rows, ∃ a : S, row = (a.1, (f a).1))
    ∧ ∀ a : S, (a.1, (f a).1) ∈ rows := by
  constructor
  · exact fun h => ⟨fun row hrow => (h row).mp hrow, fun a => (h _).mpr ⟨a, rfl⟩⟩
  · rintro ⟨hrows, hall⟩ row
    refine ⟨hrows row, ?_⟩
    rintro ⟨a, rfl⟩
    exact hall a

instance (f : Equiv.Perm S) (rows : List (String × String)) : Decidable (Renames f rows) :=
  decidable_of_iff _ renames_iff.symm

/-- The signal under its new name; names outside the set stay. -/
def renamed (f : Equiv.Perm S) (s : Signal) : Signal :=
  { s with name := Equiv.Perm.ofSubtype f s.name }

namespace Renames

variable (h : Renames f rows)

include h

theorem target?_of_mem {name : String} (hname : name ∈ S) :
    target? rows name = some (Equiv.Perm.ofSubtype f name) := by
  have hmem : (name, (f ⟨name, hname⟩).1) ∈ rows := (h _).mpr ⟨⟨name, hname⟩, rfl⟩
  unfold target?
  cases hfind : rows.reverse.find? (·.1 = name) with
  | none =>
      have hnone := List.find?_eq_none.mp hfind _ (List.mem_reverse.mpr hmem)
      exact absurd (decide_eq_true rfl) hnone
  | some row =>
      have hrow := List.mem_reverse.mp (List.mem_of_find?_eq_some hfind)
      have hname : row.1 = name := by simpa using List.find?_some hfind
      obtain ⟨a, rfl⟩ := (h row).mp hrow
      rw [← hname, Equiv.Perm.ofSubtype_apply_coe]
      rfl

theorem target?_of_not_mem {name : String} (hname : name ∉ S) :
    target? rows name = none := by
  refine Option.map_eq_none_iff.mpr (List.find?_eq_none.mpr fun row hrow heq => hname ?_)
  obtain ⟨a, rfl⟩ := (h row).mp (List.mem_reverse.mp hrow)
  rw [← of_decide_eq_true heq]
  exact a.2

variable (hnames : ∀ a ∈ S, a ≠ "") (hinactive : "inactive" ∉ S)

include hnames hinactive

/-- All signals are looked up under their old names, so each gets its new one. -/
theorem signal?_eq_some {removeUnknown : Bool} {s : Signal}
    (hs : removeUnknown = true → s.name ∈ S) :
    signal? ⟨OrderedMap.ofList (rows.map kept)⟩ removeUnknown s = some (renamed f s) := by
  have hnot : ¬Mistaken rows s := fun hmistaken => by
    cases (h.target?_of_not_mem hinactive).symm.trans hmistaken.2
  rw [signal?_eq, if_neg hnot, outcome?, renamed]
  by_cases hname : s.name ∈ S
  · have htarget : Equiv.Perm.ofSubtype f s.name ∈ S :=
      (f.ofSubtype_apply_mem_iff_mem s.name).mpr hname
    rw [h.target?_of_mem hname]
    dsimp only
    rw [if_neg (ne_of_mem_of_not_mem htarget hinactive), if_neg (hnames _ htarget)]
  · have hkeep : removeUnknown = false := Bool.eq_false_iff.mpr (mt hs hname)
    rw [h.target?_of_not_mem hname, hkeep, Equiv.Perm.ofSubtype_apply_of_not_mem f hname]
    rfl

theorem apply_eq_map {removeUnknown : Bool} {signals : List Signal}
    (hsignals : removeUnknown = true → ∀ s ∈ signals, s.name ∈ S) :
    apply ⟨OrderedMap.ofList (rows.map kept)⟩ removeUnknown signals
      = signals.map (renamed f) := by
  have hall : signals.filterMap (signal? ⟨OrderedMap.ofList (rows.map kept)⟩ removeUnknown)
      = signals.filterMap (some ∘ renamed f) :=
    List.filterMap_congr fun s hs =>
      h.signal?_eq_some hnames hinactive fun hremove => hsignals hremove s hs
  rw [apply, hall, List.filterMap_eq_map]

omit hnames hinactive in
/-- The rows of a permutation, read backwards, are those of its inverse. -/
theorem swapped (hback : ∀ row, row ∈ rows' ↔ row.swap ∈ rows) : Renames f.symm rows' := by
  intro row
  rw [hback, h]
  constructor
  · rintro ⟨a, ha⟩
    refine ⟨f a, ?_⟩
    rw [f.symm_apply_apply, ← Prod.swap_swap row, ha]
    rfl
  · rintro ⟨a, rfl⟩
    exact ⟨f.symm a, by rw [f.apply_symm_apply]; rfl⟩

omit hnames hinactive in
/-- There is a table with the rows, if there are no blanks around the names. -/
theorem exists_holds (htrim : ∀ a ∈ S, Csv.trim a = a) : ∃ bytes, Holds bytes rows := by
  refine ⟨_, holds_ofRows fun row hrow => ?_⟩
  obtain ⟨a, rfl⟩ := (h row).mp hrow
  exact ⟨htrim a.1 a.2, htrim (f a).1 (f a).2⟩

end Renames

theorem renamed_symm_renamed (f : Equiv.Perm S) (s : Signal) :
    renamed f.symm (renamed f s) = s := by
  have hinv : Equiv.Perm.ofSubtype f.symm = (Equiv.Perm.ofSubtype f)⁻¹ :=
    map_inv Equiv.Perm.ofSubtype f
  have hname : (Equiv.Perm.ofSubtype f)⁻¹ (Equiv.Perm.ofSubtype f s.name) = s.name :=
    Equiv.symm_apply_apply _ _
  rw [renamed, renamed, hinv, hname]

theorem name_renamed_mem (s : Signal) : (renamed f s).name ∈ S ↔ s.name ∈ S :=
  f.ofSubtype_apply_mem_iff_mem s.name

/-- Renaming by a permutation of names, and back. The rows of the one table send each name
of a set to another name of the set, and those of the other one send it back, in any
order. -/
theorem apply_renames_back (S : Finset String) (hnames : ∀ a ∈ S, a ≠ "" ∧ Csv.trim a = a)
    (hinactive : "inactive" ∉ S) (f : Equiv.Perm S) (rows rows' : List (String × String))
    (h : Renames f rows) (hback : ∀ row, row ∈ rows' ↔ row.swap ∈ rows) :
    (∃ bytes, Holds bytes rows) ∧ (∃ bytes, Holds bytes rows')
      ∧ ∀ bytes bytes', Holds bytes rows → Holds bytes' rows' →
        ∃ p p', ofBytes bytes = .ok p ∧ ofBytes bytes' = .ok p'
          ∧ ∀ (removeUnknown : Bool) (d : Document) (g : SignalGroup),
            d.spec = .signalGroup g → (removeUnknown = true → ∀ s ∈ g.signals, s.name ∈ S) →
              let between : SignalGroup := ⟨g.signals.map (renamed f), g.extra⟩
              d.mapSignals (p.apply removeUnknown) = { d with spec := .signalGroup between }
                ∧ { d with spec := .signalGroup between }.mapSignals (p'.apply removeUnknown)
                  = d := by
  -- the way back is the same statement about the inverse
  have h' := h.swapped hback
  have hne : ∀ a ∈ S, a ≠ "" := fun a ha => (hnames a ha).1
  have htrim : ∀ a ∈ S, Csv.trim a = a := fun a ha => (hnames a ha).2
  refine ⟨h.exists_holds htrim, h'.exists_holds htrim, fun bytes bytes' hrows hrows' => ?_⟩
  refine ⟨_, _, ofBytes_eq_ok.mpr ⟨rows, hrows, rfl⟩, ofBytes_eq_ok.mpr ⟨rows', hrows', rfl⟩,
    fun removeUnknown d g hspec hsignals => ⟨?_, ?_⟩⟩
  · rw [Document.mapSignals, hspec]
    dsimp only
    rw [h.apply_eq_map hne hinactive hsignals]
  · have hsignals' : removeUnknown = true → ∀ s ∈ g.signals.map (renamed f), s.name ∈ S := by
      intro hremove s hs
      obtain ⟨s', hs', rfl⟩ := List.mem_map.mp hs
      exact (name_renamed_mem s').mpr (hsignals hremove s' hs')
    rw [Document.mapSignals]
    dsimp only
    rw [h'.apply_eq_map hne hinactive hsignals', List.map_map]
    have hid : renamed f.symm ∘ renamed f = id := funext (renamed_symm_renamed f)
    rw [hid, List.map_id, ← hspec]

namespace Sample

/-- Two names, one of them with a quote, which are exchanged. -/
def exchanged : Equiv.Perm ({"a", "say \"b\""} : Finset String) :=
  Equiv.swap ⟨"a", by decide⟩ ⟨"say \"b\"", by decide⟩

def exchange : List (String × String) := [("say \"b\"", "a"), ("a", "say \"b\"")]

end Sample

theorem apply_renames_back_exchanged :
    Renames Sample.exchanged Sample.exchange ∧ ∃ bytes bytes' p p', Holds bytes Sample.exchange
      ∧ Holds bytes' (Sample.exchange.map Prod.swap)
      ∧ ofBytes bytes = .ok p ∧ ofBytes bytes' = .ok p'
      ∧ ∀ d : Document, d.spec = .signalGroup ⟨["a", "c", "a"].map Signal.ofName, ∅⟩ →
        (d.mapSignals (p.apply false)).signalGroup?
            = some ⟨["say \"b\"", "c", "say \"b\""].map Signal.ofName, ∅⟩
          ∧ (d.mapSignals (p.apply false)).mapSignals (p'.apply false) = d := by
  have h : Renames Sample.exchanged Sample.exchange := by decide
  obtain ⟨⟨bytes, hrows⟩, ⟨bytes', hrows'⟩, hall⟩ := apply_renames_back _ (by decide) (by decide)
    Sample.exchanged Sample.exchange (Sample.exchange.map Prod.swap) h
    fun _ => List.mem_map_of_involutive Prod.swap_swap
  have hsignals : (["a", "c", "a"].map Signal.ofName).map (renamed Sample.exchanged)
      = ["say \"b\"", "c", "say \"b\""].map Signal.ofName := by
    decide
  obtain ⟨p, p', hp, hp', hback⟩ := hall bytes bytes' hrows hrows'
  refine ⟨h, bytes, bytes', p, p', hrows, hrows', hp, hp', fun d hspec => ?_⟩
  obtain ⟨hthere, hagain⟩ := hback false d _ hspec nofun
  rw [hthere]
  exact ⟨congrArg (fun signals => some (SignalGroup.mk signals ∅)) hsignals, hagain⟩

end Patch

end SimAnnotate
