import Mathlib.Algebra.GroupWithZero.Nat
import SimAnnotate.OffsetTable.Text
import SimAnnotate.Proofs.Document.Outline
import SimAnnotate.Proofs.Document.Text
import SimAnnotate.Proofs.Wiring

/-!
# Places in offset tables

A compiled table has a place for every signal of every wired group
(`place_of_compile`), and different signals or channels have different places
(`place_inj_of_compile`). Its documents say these places (`offsetIn?_documents`).
-/

namespace SimAnnotate

open Yaml (Value)

namespace OffsetTable

/-! ## The signals of a table -/

/-- The table has the signal in the channel. -/
def Has (t : OffsetTable) (channel signal : String) : Prop :=
  ∃ g, t.group? channel = some g ∧ signal ∈ g.slots.keys

theorem mem_keys_add {g : OffsetGroup} {signal s : String} :
    s ∈ (g.add signal).slots.keys ↔ s ∈ g.slots.keys ∨ s = signal := by
  unfold OffsetGroup.add
  split
  · next h =>
      have hmem := OrderedMap.contains_iff.mp h
      exact ⟨.inl, fun hs => hs.elim id fun heq => heq ▸ hmem⟩
  · rw [OrderedMap.mem_keys_insert, or_comm]

theorem has_add {t : OffsetTable} {channel signal c s : String} :
    (t.add channel signal).Has c s ↔ t.Has c s ∨ c = channel ∧ s = signal := by
  unfold Has group? add
  by_cases hc : c = channel
  · subst hc
    rw [OrderedMap.get?_insert_self]
    simp only [Option.some.injEq, exists_eq_left', mem_keys_add, true_and]
    rw [group?]
    cases t.groups.get? c with
    | none => simp [OffsetGroup.empty, OrderedMap.keys, EmptyCollection.emptyCollection,
        OrderedMap.empty]
    | some g => simp
  · rw [OrderedMap.get?_insert_ne _ _ hc]
    simp [hc]

theorem has_addGroup {t : OffsetTable} {channel c s : String} :
    (t.addGroup channel).Has c s ↔ t.Has c s := by
  unfold addGroup
  split
  · rfl
  · next h =>
      have hnone : t.groups.get? channel = none :=
        OrderedMap.get?_eq_none fun hmem => h (OrderedMap.contains_iff.mpr hmem)
      unfold Has group?
      by_cases hc : c = channel
      · subst hc
        rw [OrderedMap.get?_insert_self, hnone]
        simp [OffsetGroup.empty, OrderedMap.keys, EmptyCollection.emptyCollection,
          OrderedMap.empty]
      · rw [OrderedMap.get?_insert_ne _ _ hc]

theorem has_addAll {t : OffsetTable} {channel : String} {signals : List String}
    {c s : String} :
    (t.addAll channel signals).Has c s ↔ t.Has c s ∨ c = channel ∧ s ∈ signals := by
  rw [addAll]
  -- over any table, since adding changes it
  have hfold : ∀ t : OffsetTable, (signals.foldl (·.add channel ·) t).Has c s ↔
      t.Has c s ∨ c = channel ∧ s ∈ signals := by
    induction signals with
    | nil => simp
    | cons signal rest ih =>
        intro t
        rw [List.foldl_cons, ih, has_add, List.mem_cons, or_assoc, ← and_or_left]
  rw [hfold, has_addGroup]

/-- The signals of a wired group come into the table; nothing leaves it. -/
theorem has_of_addDocument {c : Catalog} {d : Document} {t t' : OffsetTable}
    (h : addDocument c t d = .ok t') :
    (∀ channel signal, t.Has channel signal → t'.Has channel signal)
      ∧ ∀ g, d.signalGroup? = some g → ∀ channel,
          Wiring.channel? c d = .ok (some channel) →
          ∀ s ∈ g.signals, t'.Has channel s.name := by
  unfold addDocument at h
  cases hg : d.signalGroup? with
  | none =>
      rw [hg] at h
      cases h
      exact ⟨fun _ _ h => h, nofun⟩
  | some g =>
      rw [hg] at h
      obtain ⟨channel?, hchannel, h⟩ := Except.bind_eq_ok.mp h
      cases channel? with
      | none =>
          -- a group without a channel adds nothing
          cases h
          refine ⟨fun _ _ h => h, fun _ _ channel hc => ?_⟩
          rw [hchannel] at hc
          cases hc
      | some channel =>
          cases h
          refine ⟨fun _ _ h => has_addAll.mpr (.inl h), ?_⟩
          intro g' hg' channel' hc s hs
          cases hg'
          rw [hchannel] at hc
          cases hc
          exact has_addAll.mpr (.inr ⟨rfl, List.mem_map_of_mem hs⟩)

/-- The signals of all wired groups come into the table. -/
theorem has_of_foldlM {c : Catalog} {ds : List Document} {t t' : OffsetTable}
    (h : ds.foldlM (addDocument c) t = .ok t') :
    (∀ channel signal, t.Has channel signal → t'.Has channel signal)
      ∧ ∀ d ∈ ds, ∀ g, d.signalGroup? = some g → ∀ channel,
          Wiring.channel? c d = .ok (some channel) →
          ∀ s ∈ g.signals, t'.Has channel s.name := by
  induction ds generalizing t with
  | nil =>
      cases h
      exact ⟨fun _ _ h => h, fun _ hd => absurd hd List.not_mem_nil⟩
  | cons d rest ih =>
      rw [List.foldlM_cons] at h
      obtain ⟨t₁, hstep, h⟩ := Except.bind_eq_ok.mp h
      obtain ⟨hkeep₁, hgroup⟩ := has_of_addDocument hstep
      obtain ⟨hkeep, hrest⟩ := ih h
      refine ⟨fun channel signal h => hkeep _ _ (hkeep₁ _ _ h), ?_⟩
      intro d' hd' g hg channel hchannel s hs
      rcases List.mem_cons.mp hd' with rfl | hd'
      · exact hkeep _ _ (hgroup g hg channel hchannel s hs)
      · exact hrest d' hd' g hg channel hchannel s hs

/-! ## Setting places -/

/-- How many signals channels have. -/
def signalCount (gs : List (String × OffsetGroup)) : Nat :=
  (gs.map (·.2.slots.size)).sum

theorem signalCount_cons (e : String × OffsetGroup) (gs : List (String × OffsetGroup)) :
    signalCount (e :: gs) = e.2.slots.size + signalCount gs := by
  rw [signalCount, List.map_cons, List.sum_cons, ← signalCount]

/-- A channel begins behind the ones that stand before it. -/
theorem get?_placeGroups (before : Nat) (gs : List (String × OffsetGroup))
    (channel : String) :
    Entries.get? (placeGroups before gs) channel = (Entries.get? gs channel).map
      (placeGroup (before + signalCount (gs.takeWhile (·.1 ≠ channel)))) := by
  induction gs generalizing before with
  | nil => rfl
  | cons e rest ih =>
      by_cases h : e.1 = channel
      · simp [placeGroups, Entries.get?, h, signalCount]
      · have htake : (e :: rest).takeWhile (·.1 ≠ channel)
            = e :: rest.takeWhile (·.1 ≠ channel) := by simp [h]
        rw [placeGroups, Entries.get?, if_neg h, ih, Entries.get?, if_neg h, htake,
          signalCount_cons, Nat.add_assoc]

theorem group?_calculate (t : OffsetTable) (channel : String) :
    t.calculate.group? channel = (t.group? channel).map
      (placeGroup (signalCount (t.groups.entries.takeWhile (·.1 ≠ channel)))) := by
  have h := get?_placeGroups 0 t.groups.entries channel
  rwa [Nat.zero_add] at h

@[simp] theorem keys_placeGroup (before : Nat) (g : OffsetGroup) :
    (placeGroup before g).slots.keys = g.slots.keys :=
  map_fst_placeSlots _ 0 g.slots.entries

/-- Every signal of a table has a place when all places are set. -/
theorem lookup_calculate {t : OffsetTable} {channel signal : String}
    (h : t.Has channel signal) : ∃ n, t.calculate.lookup channel signal = some n := by
  obtain ⟨g, hg, hsignal⟩ := h
  rw [lookup, group?_calculate, hg]
  generalize signalCount _ = b
  rw [← keys_placeGroup b] at hsignal
  obtain ⟨slot, hslot⟩ := Option.isSome_iff_exists.mp (OrderedMap.contains_iff.mpr hsignal)
  refine ⟨slot.offset, ?_⟩
  change ((placeGroup b g).slots.get? signal).bind _ = _
  rw [hslot]
  rfl

theorem mem_placeSlots {base i : Nat} {ss : List (String × Slot)} {e : String × Slot}
    (h : e ∈ placeSlots base i ss) :
    e.2.offset = base + e.2.index * valueSize
      ∧ i ≤ e.2.index ∧ e.2.index < i + ss.length := by
  induction ss generalizing i with
  | nil => cases h
  | cons s rest ih =>
      rw [placeSlots] at h
      rcases List.mem_cons.mp h with rfl | h
      · exact ⟨rfl, Nat.le_refl _, by simp⟩
      · obtain ⟨hoffset, hlow, hhigh⟩ := ih h
        rw [List.length_cons]
        exact ⟨hoffset, by omega, by omega⟩

/-- The places of one channel differ. -/
theorem placeSlots_inj {base i : Nat} {ss : List (String × Slot)}
    {e e' : String × Slot} (h : e ∈ placeSlots base i ss) (h' : e' ∈ placeSlots base i ss)
    (heq : e.2.offset = e'.2.offset) : e.1 = e'.1 := by
  -- what stands behind has a greater index
  induction ss generalizing i with
  | nil => cases h
  | cons s rest ih =>
      rw [placeSlots] at h h'
      rcases List.mem_cons.mp h with rfl | h
      · rcases List.mem_cons.mp h' with rfl | h'
        · rfl
        · obtain ⟨hoffset, hlow, -⟩ := mem_placeSlots h'
          rw [hoffset, valueSize] at heq
          dsimp only at heq
          omega
      · rcases List.mem_cons.mp h' with rfl | h'
        · obtain ⟨hoffset, hlow, -⟩ := mem_placeSlots h
          rw [hoffset, valueSize] at heq
          dsimp only at heq
          omega
        · exact ih h h'

/-- A channel's values stand in its region, each on a multiple of eight. -/
theorem mem_placeGroup {before : Nat} {g : OffsetGroup} {e : String × Slot}
    (h : e ∈ (placeGroup before g).slots.entries) :
    24 * before ≤ e.2.offset ∧ e.2.offset + 8 ≤ 24 * (before + g.slots.size)
      ∧ 8 ∣ e.2.offset := by
  obtain ⟨hoffset, -, hhigh⟩ := mem_placeSlots h
  have hsize : g.slots.entries.length = g.slots.size := rfl
  rw [hsize] at hhigh
  rw [hoffset, slotSize, valueSize]
  omega

/-- Later channels stand behind. -/
theorem le_of_mem_placeGroups {before : Nat} {gs : List (String × OffsetGroup)}
    {x : String × OffsetGroup} (h : x ∈ placeGroups before gs) {e : String × Slot}
    (he : e ∈ x.2.slots.entries) : 24 * before ≤ e.2.offset := by
  induction gs generalizing before with
  | nil => cases h
  | cons g rest ih =>
      rw [placeGroups] at h
      rcases List.mem_cons.mp h with rfl | h
      · exact (mem_placeGroup he).1
      · have hle := ih h
        omega

/-- The places of a table differ. -/
theorem placeGroups_inj {before : Nat} {gs : List (String × OffsetGroup)}
    {x x' : String × OffsetGroup} (h : x ∈ placeGroups before gs)
    (h' : x' ∈ placeGroups before gs) {e e' : String × Slot}
    (he : e ∈ x.2.slots.entries) (he' : e' ∈ x'.2.slots.entries)
    (heq : e.2.offset = e'.2.offset) : x.1 = x'.1 ∧ e.1 = e'.1 := by
  induction gs generalizing before with
  | nil => cases h
  | cons g rest ih =>
      rw [placeGroups] at h h'
      rcases List.mem_cons.mp h with rfl | h
      · rcases List.mem_cons.mp h' with rfl | h'
        · exact ⟨rfl, placeSlots_inj he he' heq⟩
        · -- the region of the first channel ends before the others begin
          have hend := (mem_placeGroup he).2.1
          have hle := le_of_mem_placeGroups h' he'
          omega
      · rcases List.mem_cons.mp h' with rfl | h'
        · have hend := (mem_placeGroup he').2.1
          have hle := le_of_mem_placeGroups h he
          omega
        · exact ih h h'

theorem exists_of_lookup {t : OffsetTable} {channel signal : String} {n : Nat}
    (h : t.lookup channel signal = some n) :
    ∃ g slot, t.group? channel = some g ∧ g.slots.get? signal = some slot
      ∧ slot.offset = n := by
  rw [lookup] at h
  obtain ⟨g, hg, h⟩ := Option.bind_eq_some_iff.mp h
  obtain ⟨slot, hslot, h⟩ := Option.bind_eq_some_iff.mp h
  cases h
  exact ⟨g, slot, hg, hslot, rfl⟩

/-- Different signals of a table with all places set have different places. -/
theorem lookup_calculate_inj {t : OffsetTable} {channel channel' signal signal' : String}
    {n : Nat} (hn : t.calculate.lookup channel signal = some n)
    (hn' : t.calculate.lookup channel' signal' = some n) :
    channel = channel' ∧ signal = signal' := by
  obtain ⟨g, slot, hg, hslot, rfl⟩ := exists_of_lookup hn
  obtain ⟨g', slot', hg', hslot', heq⟩ := exists_of_lookup hn'
  have hx := OrderedMap.mem_entries_iff.mpr hg
  have hx' := OrderedMap.mem_entries_iff.mpr hg'
  exact placeGroups_inj hx hx' (OrderedMap.mem_entries_iff.mpr hslot)
    (OrderedMap.mem_entries_iff.mpr hslot') heq.symm

/-! ## Compiled tables -/

section

variable {c : Catalog} {ds : List Document} {t : OffsetTable}
  (h : compile c ds = .ok t)

include h

theorem exists_of_compile : ∃ t₀, ds.foldlM (addDocument c) empty = .ok t₀
    ∧ t = t₀.calculate := by
  obtain ⟨t₀, ht₀, h⟩ := Except.bind_eq_ok.mp h
  cases h
  exact ⟨t₀, ht₀, rfl⟩

/-- Every signal of a wired group has a place. -/
theorem place_of_compile {d : Document} (hd : d ∈ ds) {g : SignalGroup}
    (hg : d.signalGroup? = some g) {channel : String}
    (hchannel : Wiring.channel? c d = .ok (some channel)) {s : Signal}
    (hs : s ∈ g.signals) : ∃ n, t.lookup channel s.name = some n := by
  obtain ⟨t₀, ht₀, rfl⟩ := exists_of_compile h
  exact lookup_calculate ((has_of_foldlM ht₀).2 d hd g hg channel hchannel s hs)

/-- Different signals have different places. -/
theorem place_inj_of_compile {channel channel' signal signal' : String} {n : Nat}
    (hn : t.lookup channel signal = some n)
    (hn' : t.lookup channel' signal' = some n) :
    channel = channel' ∧ signal = signal' := by
  obtain ⟨t₀, -, rfl⟩ := exists_of_compile h
  exact lookup_calculate_inj hn hn'

end

/-- With one Stack every table compiles. -/
theorem exists_compile {c : Catalog} (hstack : ∃ d, c.stackDocument = .ok d)
    (ds : List Document) : ∃ t, compile c ds = .ok t := by
  -- a group has a channel or is wired to none, and neither is an error
  have hadd : ∀ t d, ∃ t', addDocument c t d = .ok t' := by
    intro t d
    unfold addDocument
    obtain ⟨channel, hchannel⟩ := Wiring.exists_channel? hstack d
    rw [hchannel]
    cases d.signalGroup? with
    | none => exact ⟨t, rfl⟩
    | some g => cases channel <;> exact ⟨_, rfl⟩
  have hfold : ∀ t, ∃ t', ds.foldlM (addDocument c) t = .ok t' := by
    induction ds with
    | nil => exact fun t => ⟨t, rfl⟩
    | cons d rest ih =>
        intro t
        obtain ⟨t₁, ht₁⟩ := hadd t d
        obtain ⟨t', ht'⟩ := ih t₁
        exact ⟨t', by rw [List.foldlM_cons, ht₁, Except.ok_bind, ht']⟩
  obtain ⟨t, ht⟩ := hfold empty
  exact ⟨t.calculate, by rw [compile, ht]; rfl⟩

theorem addDocument_congr {c c' : Catalog} {d d' : Document} (hcore : d'.core = d.core)
    (hchannel : Wiring.channel? c' d' = Wiring.channel? c d) (t : OffsetTable) :
    addDocument c' t d' = addDocument c t d := by
  have hgroup := congrArg Document.signalGroup? hcore
  rw [Document.signalGroup?_core, Document.signalGroup?_core] at hgroup
  unfold addDocument
  cases hg : d.signalGroup? with
  | none =>
      rw [hg, Option.map_none, Option.map_eq_none_iff] at hgroup
      rw [hgroup]
  | some g =>
      rw [hg, Option.map_some, Option.map_eq_some_iff] at hgroup
      obtain ⟨g', hg', hgroup⟩ := hgroup
      -- cores keep the names of signals, and a table takes nothing else
      have hsignals := congrArg (fun g => g.signals.map Signal.name) hgroup
      simp only [SignalGroup.core, List.map_map] at hsignals
      have hnames : g'.signals.map (·.name) = g.signals.map (·.name) := hsignals
      rw [hg', hchannel]
      dsimp only
      rw [hnames]

/-- Compiling looks at cores and wiring only. -/
theorem compile_congr {c c' : Catalog}
    (hchannel : ∀ d d' : Document, d'.core = d.core →
      Wiring.channel? c' d' = Wiring.channel? c d) {ds ds' : List Document}
    (h : ds'.map Document.core = ds.map Document.core) : compile c' ds' = compile c ds := by
  have hfold : ∀ t, ds'.foldlM (addDocument c') t = ds.foldlM (addDocument c) t := by
    induction ds generalizing ds' with
    | nil =>
        rw [List.map_eq_nil_iff.mp h]
        exact fun _ => rfl
    | cons d rest ih =>
        rw [List.map_cons, List.map_eq_cons_iff] at h
        obtain ⟨d', rest', rfl, hd, hrest⟩ := h
        intro t
        rw [List.foldlM_cons, List.foldlM_cons, addDocument_congr hd (hchannel d d' hd)]
        cases addDocument c t d with
        | error e => rfl
        | ok t => exact ih hrest t
  rw [compile, compile, hfold]

/-! ## The documents of a table -/

/-- The place that documents say for a signal: the offset at the only signal of
that name in the only document that has the name of the channel. -/
def offsetIn? (ds : List Document) (channel signal : String) : Option Value :=
  match ds.filter (·.name = channel) with
  | [d] =>
      match ((d.signalGroup?.map (·.signals)).getD []).filter (·.name = signal) with
      | [s] => s.annotations.get? "offset"
      | _ => none
  | _ => none

theorem offsetIn?_map {f : Document → Document} (hname : ∀ d, (f d).name = d.name)
    (hgroup : ∀ d, (f d).signalGroup? = d.signalGroup?) (ds : List Document)
    (channel signal : String) :
    offsetIn? (ds.map f) channel signal = offsetIn? ds channel signal := by
  have hfilter : (ds.map f).filter (·.name = channel)
      = (ds.filter (·.name = channel)).map f := by
    rw [List.filter_map]
    simp only [Function.comp_def, hname]
  unfold offsetIn?
  rw [hfilter]
  cases ds.filter (·.name = channel) with
  | nil => rfl
  | cons d rest =>
      cases rest with
      | nil => simp only [List.map_cons, List.map_nil, hgroup]
      | cons d' rest => rfl

/-- The documents of a table say its places. -/
theorem offsetIn?_documents {t : OffsetTable} {channel signal : String} {n : Nat}
    (h : t.lookup channel signal = some n) :
    offsetIn? t.documents channel signal = some (.ofNat n) := by
  obtain ⟨g, slot, hg, hslot, rfl⟩ := exists_of_lookup h
  -- channels and signals are keys of the table, so each name is found once
  have hgroups : t.documents.filter (·.name = channel) = [groupDocument (channel, g)] := by
    have hname : (fun d : Document => decide (d.name = channel)) ∘ groupDocument
        = fun e => decide (e.1 = channel) := rfl
    rw [documents, List.filter_map, hname, OrderedMap.filter_entries hg]
    rfl
  have hslots : ((g.slots.entries.map slotSignal).filter (·.name = signal))
      = [slotSignal (signal, slot)] := by
    have hname : (fun s : Signal => decide (s.name = signal)) ∘ slotSignal
        = fun e => decide (e.1 = signal) := rfl
    rw [List.filter_map, hname, OrderedMap.filter_entries hslot]
    rfl
  unfold offsetIn?
  rw [hgroups]
  simp only [groupDocument, Document.signalGroup?, Option.map_some, Option.getD_some,
    hslots]
  rfl

theorem sound_documents (t : OffsetTable) : ∀ d ∈ t.documents, d.Sound := by
  intro d hd
  obtain ⟨⟨channel, g⟩, -, rfl⟩ := List.mem_map.mp hd
  refine ⟨Annotations.sound_empty.insertAll ?_, ?_, Decode.Record.keeps_empty⟩
  · intro e he
    rw [List.mem_singleton.mp he]
    exact Value.repeatsKey_mapping (by simp)
      (by simp [Value.repeatsKey, Value.ofNat]) (by simp)
  · intro s hs
    obtain ⟨⟨signal, slot⟩, -, rfl⟩ := List.mem_map.mp hs
    refine ⟨Annotations.sound_empty.insertAll ?_, Decode.Record.keeps_empty⟩
    simp [Value.repeatsKey, Value.ofNat]

theorem isKnown_documents (t : OffsetTable) : ∀ d ∈ t.documents, d.isKnown = true := by
  intro d hd
  obtain ⟨e, -, rfl⟩ := List.mem_map.mp hd
  rfl

/-- The documents of a table belong to no file yet. -/
theorem file_documents (t : OffsetTable) :
    ∀ d ∈ t.documents, ({ d with file := none } : Document) = d := by
  intro d hd
  obtain ⟨e, -, rfl⟩ := List.mem_map.mp hd
  rfl

/-- The text of a table, from its characters. -/
theorem toOption_text (t : OffsetTable) : t.text.toOption
    = (t.documents.mapM Document.chars?).map fun css =>
        String.ofList (css.flatMap (Document.separator.toList ++ ·)) := by
  have h := Document.toOption_mapM_print t.documents
  unfold text
  cases hprint : t.documents.mapM Document.print with
  | error e =>
      rw [hprint] at h
      rw [Option.map_eq_none_iff.mp h.symm]
      rfl
  | ok texts =>
      rw [hprint] at h
      obtain ⟨css, hcss, rfl⟩ := Option.map_eq_some_iff.mp h.symm
      rw [hcss]
      refine congrArg some (String.toList_inj.mp ?_)
      simp [String.toList_join, List.flatMap_map]

theorem gives_text_iff {t : OffsetTable} {vs : List Value} :
    (∀ text ∈ t.text.toOption, Yaml.Stream.Gives text vs) ↔
      ∀ css ∈ t.documents.mapM Document.chars?, Yaml.Stream.Gives
        (String.ofList (css.flatMap (Document.separator.toList ++ ·))) vs := by
  rw [toOption_text]
  exact Option.forall_mem_map

/-- The text of a table is read as its documents. -/
theorem parse_text {t : OffsetTable} {text : String}
    (h : Yaml.Stream.Gives text (t.documents.filterMap Document.encode?)) :
    Document.parse text = .ok t.documents := by
  have hfile := (List.map_congr_left t.file_documents).trans (List.map_id _)
  rw [Document.parse_of_gives t.sound_documents t.isKnown_documents h]
  exact congrArg Except.ok hfile

end OffsetTable

end SimAnnotate
