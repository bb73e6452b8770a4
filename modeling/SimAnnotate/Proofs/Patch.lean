import SimAnnotate.Patch
import SimAnnotate.Proofs.Document.Outline
import SimAnnotate.Proofs.Except
import SimAnnotate.Proofs.OrderedMap

/-!
# What a patch table does

`Holds` says which rows a table has, and `outcome?` what they say of a signal: the
last row of its name counts, the target `inactive` takes it out, and an empty one
keeps it as it is.

A table that has been read knows no empty targets any more. It has the name itself
in their place, so a signal that is to stay is one that is renamed to its own name.
For one name this is wrong: to rename `inactive` to itself is to take it out.
`apply_eq_iff` says that patching a group does what the rows say just where it has
no such signal.
-/

theorem ByteArray.toList_loop_eq (bytes : ByteArray) (i : Nat) (before : List UInt8) :
    ByteArray.toList.loop bytes i before = before.reverse ++ bytes.data.toList.drop i := by
  fun_induction ByteArray.toList.loop bytes i before with
  | case1 i before h ih =>
      have hi : i < bytes.data.toList.length := h
      have hget : bytes.get! i = bytes.data.toList[i] := getElem!_pos bytes.data i h
      rw [ih, List.reverse_cons, List.append_assoc, List.drop_eq_getElem_cons hi, hget]
      rfl
  | case2 i before h =>
      have hdrop : bytes.data.toList.drop i = [] :=
        List.drop_eq_nil_of_le (Nat.le_of_not_lt h)
      rw [hdrop, List.append_nil]

theorem ByteArray.toList_eq (bytes : ByteArray) : bytes.toList = bytes.data.toList := by
  rw [toList, toList_loop_eq]
  rfl

namespace SimAnnotate.Patch

/-! ## What ought to be -/

/-- A table holds rows below its header: the first two fields of each record. -/
def Holds (bytes : ByteArray) (rows : List (String × String)) : Prop :=
  ∃ first rest header, Csv.records bytes.toList = first :: rest
    ∧ Csv.fields? first = some header ∧ header.take 2 = ["source", "target"]
    ∧ List.Forall₂ (fun r row => ∃ more, Csv.fields? r = some (row.1 :: row.2 :: more))
      rest rows

/-- The target of the last row of a name. -/
def target? (rows : List (String × String)) (name : String) : Option String :=
  (rows.reverse.find? (·.1 = name)).map (·.2)

/-- What rows say of a signal. -/
def outcome? (rows : List (String × String)) (removeUnknown : Bool) (s : Signal) :
    Option Signal :=
  match target? rows s.name with
  | some target =>
      if target = "inactive" then none
      else if target = "" then some s
      else some { s with name := target }
  | none => if removeUnknown then none else some s

/-- A signal that rows keep, with the name that takes signals out. -/
def Mistaken (rows : List (String × String)) (s : Signal) : Prop :=
  s.name = "inactive" ∧ target? rows "inactive" = some ""

instance (rows : List (String × String)) (s : Signal) : Decidable (Mistaken rows s) :=
  inferInstanceAs (Decidable (_ ∧ _))

/-! ## Reading a table -/

/-- A row as it is kept. -/
def kept (row : String × String) : String × String :=
  (row.1, if row.2 = "" then row.1 else row.2)

theorem fields_eq_ok {r : List Csv.Bytes} {fs : List String} :
    Table.fields r = .ok fs ↔ Csv.fields? r = some fs := by
  unfold Table.fields
  cases Csv.fields? r <;> simp

theorem row_eq_ok {r : List Csv.Bytes} {e : String × String} :
    row r = .ok e ↔ ∃ row : String × String, ∃ more,
      Csv.fields? r = some (row.1 :: row.2 :: more) ∧ kept row = e := by
  unfold row
  rw [Except.bind_eq_ok]
  constructor
  · rintro ⟨fs, hfs, h⟩
    rw [fields_eq_ok] at hfs
    split at h
    · next source target more =>
        cases h
        exact ⟨(source, target), more, hfs, rfl⟩
    · cases h
  · rintro ⟨row, more, hfs, rfl⟩
    exact ⟨_, fields_eq_ok.mpr hfs, rfl⟩

theorem rows_eq_ok {rs : List (List Csv.Bytes)} {es : List (String × String)} :
    rs.mapM row = .ok es ↔ ∃ rows : List (String × String), rows.map kept = es
      ∧ List.Forall₂ (fun r row => ∃ more, Csv.fields? r = some (row.1 :: row.2 :: more))
        rs rows := by
  rw [List.mapM_eq_ok]
  constructor
  · intro h
    induction h with
    | nil => exact ⟨[], rfl, .nil⟩
    | cons hr _ ih =>
        obtain ⟨row, more, hfs, rfl⟩ := row_eq_ok.mp hr
        obtain ⟨rows, rfl, hrows⟩ := ih
        exact ⟨row :: rows, rfl, .cons ⟨more, hfs⟩ hrows⟩
  · rintro ⟨rows, rfl, h⟩
    rw [List.forall₂_map_right_iff]
    exact h.imp fun r row ⟨more, hfs⟩ => row_eq_ok.mpr ⟨row, more, hfs, rfl⟩

/-- A table is read when it holds rows, and then it keeps them. -/
theorem ofBytes_eq_ok {bytes : ByteArray} {p : Patch} :
    ofBytes bytes = .ok p ↔ ∃ rows, Holds bytes rows
      ∧ p = ⟨OrderedMap.ofList (rows.map kept)⟩ := by
  unfold ofBytes Holds
  cases hrecords : Csv.records bytes.toList with
  | nil => exact iff_of_false nofun (by rintro ⟨_, ⟨_, _, _, h, _⟩, _⟩; cases h)
  | cons first rest =>
      unfold ofRecords
      rw [Except.bind_eq_ok]
      constructor
      · rintro ⟨header, hheader, h⟩
        rw [fields_eq_ok] at hheader
        split at h
        · cases h
        · next htake =>
            obtain ⟨es, hes, hp⟩ := Except.bind_eq_ok.mp h
            obtain ⟨rows, rfl, hrows⟩ := rows_eq_ok.mp hes
            cases hp
            exact ⟨rows, ⟨first, rest, header, rfl, hheader, not_not.mp htake, hrows⟩, rfl⟩
      · rintro ⟨rows, ⟨_, _, header, hsplit, hheader, htake, hrows⟩, rfl⟩
        cases hsplit
        have hes := rows_eq_ok.mpr ⟨rows, rfl, hrows⟩
        have hnames : ¬header.take 2 ≠ Patch.header := not_not.mpr htake
        refine ⟨header, fields_eq_ok.mpr hheader, ?_⟩
        dsimp only
        rw [if_neg hnames, hes]
        rfl

theorem Holds.unique {bytes : ByteArray} {rows rows' : List (String × String)}
    (h : Holds bytes rows) (h' : Holds bytes rows') : rows = rows' := by
  obtain ⟨first, rest, _, hsplit, -, -, hrows⟩ := h
  obtain ⟨_, _, _, hsplit', -, -, hrows'⟩ := h'
  cases hsplit.symm.trans hsplit'
  refine List.right_unique_forall₂' ?_ hrows hrows'
  rintro r ⟨name, target⟩ ⟨name', target'⟩ ⟨more, hfs⟩ ⟨more', hfs'⟩
  cases hfs.symm.trans hfs'
  rfl

/-! ## One signal -/

section

variable (k : String) (rows : List (String × String))

/-- A later row counts more. -/
theorem target?_cons (row : String × String) : target? (row :: rows) k
    = (target? rows k).or (if row.1 = k then some row.2 else none) := by
  rw [target?, List.reverse_cons, List.find?_append, Option.map_or, target?, List.find?_cons]
  by_cases h : row.1 = k <;> simp [h]

/-- What is kept for a name: its target, or the name itself where that is empty. -/
theorem target?_kept : target? (rows.map kept) k
    = (target? rows k).map fun t => if t = "" then k else t := by
  induction rows with
  | nil => rfl
  | cons row rest ih =>
      rw [List.map_cons, target?_cons, target?_cons, ih, Option.map_or]
      by_cases hk : row.1 = k
      · simp [kept, hk]
      · simp [kept, hk]

end

/-- What becomes of a signal is what rows say, but for a mistaken one. -/
theorem signal?_eq (rows : List (String × String)) (removeUnknown : Bool) (s : Signal) :
    signal? ⟨OrderedMap.ofList (rows.map kept)⟩ removeUnknown s
      = if Mistaken rows s then none else outcome? rows removeUnknown s := by
  have hget : (OrderedMap.ofList (rows.map kept)).get? s.name
      = (target? rows s.name).map fun t => if t = "" then s.name else t := by
    rw [OrderedMap.ofList, OrderedMap.get?_insertAll, ← target?, target?_kept]
    exact Option.or_none
  have hmistaken : Mistaken rows s ↔ s.name = "inactive" ∧ target? rows s.name = some "" :=
    and_congr_right fun h => by rw [h]
  unfold signal? outcome?
  rw [hget]
  cases htarget : target? rows s.name with
  | none =>
      have hnot : ¬Mistaken rows s := fun h => by
        cases htarget.symm.trans (hmistaken.mp h).2
      rw [if_neg hnot]
      rfl
  | some t =>
      rw [htarget, Option.some.injEq] at hmistaken
      rw [Option.map_some]
      dsimp only
      by_cases ht : t = ""
      · subst ht
        -- the signal is to stay, and is renamed to what it is called
        rw [if_pos rfl, if_pos rfl, if_neg (by decide : "" ≠ "inactive")]
        by_cases hname : s.name = "inactive"
        · exact (if_pos hname).trans (if_pos (hmistaken.mpr ⟨hname, rfl⟩)).symm
        · exact (if_neg hname).trans (if_neg (mt (fun h => (hmistaken.mp h).1) hname)).symm
      · rw [if_neg ht, if_neg ht, if_neg (mt (fun h => (hmistaken.mp h).2) ht)]
        rfl

/-! ## All signals -/

theorem outcome?_isSome_of_mistaken {rows : List (String × String)} {s : Signal}
    (h : Mistaken rows s) (removeUnknown : Bool) :
    (outcome? rows removeUnknown s).isSome = true := by
  rw [outcome?, h.1, h.2]
  rfl

section

variable {α β : Type} {P : α → Prop} [DecidablePred P] {f : α → Option β}
  (hf : ∀ a, P a → (f a).isSome = true) (as : List α)

include hf

theorem length_filterMap_unless : (as.filterMap f).length
    = (as.filterMap fun a => if P a then none else f a).length + as.countP (P ·) := by
  induction as with
  | nil => rfl
  | cons a rest ih =>
      by_cases ha : P a
      · obtain ⟨b, hb⟩ := Option.isSome_iff_exists.mp (hf a ha)
        rw [List.countP_cons_of_pos (by simpa using ha), List.filterMap_cons,
          List.filterMap_cons, if_pos ha, hb]
        dsimp only
        rw [List.length_cons, ih, Nat.add_assoc]
      · rw [List.countP_cons_of_neg (by simpa using ha), List.filterMap_cons,
          List.filterMap_cons, if_neg ha]
        cases f a with
        | none => exact ih
        | some b =>
            dsimp only
            rw [List.length_cons, List.length_cons, ih, Nat.add_right_comm]

/-- To lose what is there changes the list. -/
theorem filterMap_unless_eq_iff :
    as.filterMap (fun a => if P a then none else f a) = as.filterMap f
      ↔ ∀ a ∈ as, ¬P a := by
  constructor
  · intro h
    have hlength := length_filterMap_unless hf as
    rw [h] at hlength
    have hcount : as.countP (P ·) = 0 := by omega
    simpa using List.countP_eq_zero.mp hcount
  · intro h
    exact List.filterMap_congr fun a ha => if_neg (h a ha)

end

/-! ## A group -/

/-- Patching a group does what the rows of the table say, but for mistaken signals,
which are lost. Of the group nothing else changes. -/
theorem apply_eq_iff {bytes : ByteArray} {p : Patch} (h : ofBytes bytes = .ok p) :
    ∃ rows, (∀ rows', Holds bytes rows' ↔ rows' = rows)
      ∧ ∀ (removeUnknown : Bool) (d : Document) (g : SignalGroup), d.spec = .signalGroup g →
        ∃ signals, d.mapSignals (p.apply removeUnknown)
            = { d with spec := .signalGroup { g with signals } }
          ∧ signals = g.signals.filterMap (fun s =>
              if Mistaken rows s then none else outcome? rows removeUnknown s)
          ∧ (signals = g.signals.filterMap (outcome? rows removeUnknown)
            ↔ ∀ s ∈ g.signals, ¬Mistaken rows s) := by
  obtain ⟨rows, hrows, rfl⟩ := ofBytes_eq_ok.mp h
  refine ⟨rows, fun rows' => ⟨fun hrows' => hrows'.unique hrows, fun heq => heq ▸ hrows⟩, ?_⟩
  intro removeUnknown d g hspec
  refine ⟨_, ?_, rfl, filterMap_unless_eq_iff (fun s hs => ?_) g.signals⟩
  · rw [Document.mapSignals, hspec]
    dsimp only
    rw [apply, funext (signal?_eq rows removeUnknown)]
  · exact outcome?_isSome_of_mistaken hs removeUnknown

/-- A table that renames a signal, keeps one and takes one out. -/
def sample : ByteArray :=
  "source,target\ninput_1,input_one\ninput_2,\noutput_1, inactive\n".toUTF8

theorem ofBytes_sample : ofBytes sample = .ok ⟨.ofList
    [("input_1", "input_one"), ("input_2", "input_2"), ("output_1", "inactive")]⟩ := by
  rw [ofBytes, ByteArray.toList_eq]
  exact Except.mem_toOption.mp (by decide)

/-- What the rows of the sample say, from what it does to a group. -/
theorem apply_eq_iff_sample :
    let signals := ["input_1", "input_2", "output_1", "output_2"].map Signal.ofName
    ∃ rows, Holds sample rows
      ∧ signals.filterMap (outcome? rows true) = ["input_one", "input_2"].map Signal.ofName := by
  intro signals
  obtain ⟨rows, hrows, hall⟩ := apply_eq_iff ofBytes_sample
  obtain ⟨after, hd, -, hiff⟩ :=
    hall true ⟨⟨"g", ∅, ∅⟩, .signalGroup ⟨signals, ∅⟩, none⟩ ⟨signals, ∅⟩ rfl
  have hafter : ["input_one", "input_2"].map Signal.ofName = after := by
    cases hd
    decide
  have hnames : ∀ s ∈ signals, s.name ≠ "inactive" := by decide
  have hkept := hiff.mpr fun s hs hmistaken => hnames s hs hmistaken.1
  exact ⟨rows, (hrows rows).mpr rfl, hkept.symm.trans hafter.symm⟩

/-- A signal that the only row of a table keeps is lost. -/
theorem apply_of_mistaken :
    let bytes := "source,target\ninactive,\n".toUTF8
    let rows := [("inactive", "")]
    let signal := Signal.ofName "inactive"
    ∃ p, ofBytes bytes = .ok p ∧ Holds bytes rows
      ∧ [signal].filterMap (outcome? rows false) = [signal] ∧ p.apply false [signal] = [] := by
  intro bytes rows signal
  have hrecords : Csv.records bytes.data.toList
      = [["source".toUTF8.data.toList, "target".toUTF8.data.toList],
        ["inactive".toUTF8.data.toList, []]] := by
    decide
  refine ⟨⟨.ofList [("inactive", "inactive")]⟩, ?_, ?_, by decide, by decide⟩
  · rw [ofBytes, ByteArray.toList_eq]
    exact Except.mem_toOption.mp (by decide)
  · refine ⟨_, _, ["source", "target"], (congrArg _ bytes.toList_eq).trans hrecords,
      by decide, rfl, .cons ⟨[], by decide⟩ .nil⟩

end SimAnnotate.Patch
