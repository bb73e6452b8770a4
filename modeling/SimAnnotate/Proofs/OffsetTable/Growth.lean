import Mathlib.Algebra.BigOperators.Group.List.Basic
import Mathlib.Data.List.TakeWhile
import SimAnnotate.Proofs.OffsetTable.Layout

/-!
# What becomes of places when a table grows

A table whose places are set gets more channels and signals, and its places are
set anew. What was there stays in front, in its order, and what is new comes
behind (`groups_later`, `signalsOf_later`). So a signal keeps its index, and its
place moves by the signals that are new in the channels before its own
(`slot?_later`). Until places are set anew it stays where it is (`slot?_foldl`).
-/

namespace SimAnnotate

namespace OffsetTable

/-! ## The place of a signal -/

def slot? (t : OffsetTable) (channel signal : String) : Option Slot :=
  (t.group? channel).bind (·.slots.get? signal)

theorem lookup_eq (t : OffsetTable) (channel signal : String) :
    t.lookup channel signal = (t.slot? channel signal).map (·.offset) := by
  rw [lookup, slot?]
  cases t.group? channel with
  | none => rfl
  | some g =>
      show (g.slots.get? signal).bind _ = (g.slots.get? signal).map _
      cases g.slots.get? signal <;> rfl

/-- The channels that stand before a channel. -/
def channelsBefore (t : OffsetTable) (channel : String) : List String :=
  t.groups.keys.takeWhile (· ≠ channel)

/-- How many signals these have. -/
def signalsBefore (t : OffsetTable) (channel : String) : Nat :=
  ((t.channelsBefore channel).map fun c => (t.signalsOf c).length).sum

theorem signalCount_takeWhile (t : OffsetTable) (channel : String) :
    signalCount (t.groups.entries.takeWhile (·.1 ≠ channel)) = t.signalsBefore channel := by
  have hnames : t.groups.entries.map (fun e => (e.1, e.2.slots.size))
      = t.groups.keys.map fun c => (c, (t.signalsOf c).length) := by
    have hnames := congrArg (List.map fun n => (n.1, n.2.length)) t.names_eq
    rw [names, List.map_map, List.map_map] at hnames
    refine Eq.trans (List.map_congr_left fun e _ => ?_) hnames
    exact congrArg (e.1, ·) (List.length_map _).symm
  have hcount : signalCount (t.groups.entries.takeWhile (·.1 ≠ channel))
      = (((t.groups.entries.map fun e => (e.1, e.2.slots.size)).takeWhile
          (·.1 ≠ channel)).map (·.2)).sum := by
    rw [List.takeWhile_map, List.map_map]
    rfl
  rw [hcount, hnames, List.takeWhile_map, List.map_map]
  rfl

theorem get?_placeSlots (base i : Nat) (ss : List (String × Slot)) (signal : String) :
    Entries.get? (placeSlots base i ss) signal = (Entries.get? ss signal).map fun _ =>
      ⟨i + (ss.map Prod.fst).idxOf signal,
        base + (i + (ss.map Prod.fst).idxOf signal) * valueSize⟩ := by
  induction ss generalizing i with
  | nil => rfl
  | cons s rest ih =>
      rw [placeSlots, Entries.get?, Entries.get?, List.map_cons]
      by_cases h : s.1 = signal
      · simp [h]
      · rw [if_neg h, if_neg h, ih, List.idxOf_cons_ne _ h]
        simp only [Nat.add_assoc, Nat.add_comm 1]

@[simp] theorem signalsBefore_calculate (t : OffsetTable) (channel : String) :
    t.calculate.signalsBefore channel = t.signalsBefore channel := by
  simp only [signalsBefore, channelsBefore, keys_calculate, signalsOf_calculate]

theorem mem_signalsOf_iff {t : OffsetTable} {channel signal : String} :
    signal ∈ t.signalsOf channel ↔ ∃ slot, t.slot? channel signal = some slot := by
  rw [signalsOf, slot?]
  cases t.group? channel with
  | none => simp [OffsetGroup.empty, OrderedMap.keys, EmptyCollection.emptyCollection,
      OrderedMap.empty]
  | some g =>
      rw [Option.getD_some, Option.bind_some, ← OrderedMap.contains_iff, OrderedMap.contains,
        Option.isSome_iff_exists]

/-- Where a signal lies once all places are set: behind the regions of the channels
before its own, and eight bytes behind the signal before it. -/
theorem slot?_calculate {t : OffsetTable} {channel signal : String}
    (h : signal ∈ t.calculate.signalsOf channel) :
    t.calculate.slot? channel signal = some
      ⟨(t.calculate.signalsOf channel).idxOf signal, 24 * t.calculate.signalsBefore channel
        + 8 * (t.calculate.signalsOf channel).idxOf signal⟩ := by
  rw [signalsOf_calculate] at h ⊢
  obtain ⟨slot, hslot⟩ := mem_signalsOf_iff.mp h
  obtain ⟨g, hg, hget⟩ := Option.bind_eq_some_iff.mp hslot
  have hkeys : t.signalsOf channel = g.slots.entries.map Prod.fst := by
    rw [signalsOf, hg]
    rfl
  have hplaced := get?_placeSlots (t.signalsBefore channel * slotSize) 0 g.slots.entries signal
  rw [signalsBefore_calculate, slot?, group?_calculate, signalCount_takeWhile, hg, hkeys]
  refine hplaced.trans ?_
  rw [show Entries.get? g.slots.entries signal = some slot from hget, Option.map_some,
    Nat.zero_add, slotSize, valueSize, Nat.mul_comm, Nat.mul_comm _ 8]

/-! ## Until places are set anew -/

theorem slot?_insert_ne (t : OffsetTable) {channel c : String} (g : OffsetGroup)
    (h : c ≠ channel) (signal : String) :
    slot? ⟨t.groups.insert channel g⟩ c signal = t.slot? c signal := by
  rw [slot?, slot?, group?, group?, OrderedMap.get?_insert_ne _ _ h]

/-- A signal that comes to a channel leaves the others. -/
theorem get?_add {g : OffsetGroup} {signal s : String} {slot : Slot}
    (h : g.slots.get? s = some slot) : (g.add signal).slots.get? s = some slot := by
  unfold OffsetGroup.add
  split
  · exact h
  · next hnew =>
      have hne : s ≠ signal := by
        rintro rfl
        exact hnew (by rw [OffsetGroup.contains, OrderedMap.contains, h]; rfl)
      exact (OrderedMap.get?_insert_ne _ _ hne).trans h

section

variable {t : OffsetTable} {c s : String} {slot : Slot} (h : t.slot? c s = some slot)

include h

theorem slot?_addGroup (channel : String) : (t.addGroup channel).slot? c s = some slot := by
  unfold addGroup
  split
  · exact h
  · next hnew =>
      have hne : c ≠ channel := by
        rintro rfl
        obtain ⟨g, hg, -⟩ := Option.bind_eq_some_iff.mp h
        exact hnew (Option.isSome_of_mem hg)
      exact (slot?_insert_ne t _ hne s).trans h

theorem slot?_add (channel signal : String) : (t.add channel signal).slot? c s = some slot := by
  unfold add
  by_cases heq : c = channel
  · subst heq
    obtain ⟨g, hg, hslot⟩ := Option.bind_eq_some_iff.mp h
    rw [slot?, group?, OrderedMap.get?_insert_self, Option.bind_some, hg, Option.getD_some]
    exact get?_add hslot
  · exact (slot?_insert_ne t _ heq s).trans h

theorem slot?_addAll (channel : String) (signals : List String) :
    (t.addAll channel signals).slot? c s = some slot := by
  have hgroup := slot?_addGroup h channel
  rw [addAll]
  generalize t.addGroup channel = t' at hgroup
  induction signals generalizing t' with
  | nil => exact hgroup
  | cons signal rest ih => exact ih _ (slot?_add hgroup channel signal)

theorem slot?_after {op : Operation} (hop : op ≠ .calculate) :
    (t.after op).slot? c s = some slot := by
  cases op with
  | group channel => exact slot?_addGroup h channel
  | add channel signal => exact slot?_add h channel signal
  | addAll channel signals => exact slot?_addAll h channel signals
  | calculate => exact absurd rfl hop

/-- As long as places are not set anew a signal stays where it is. -/
theorem slot?_foldl {ops : List Operation} (hops : .calculate ∉ ops) :
    (ops.foldl after t).slot? c s = some slot := by
  induction ops generalizing t with
  | nil => exact h
  | cons op rest ih =>
      rw [List.mem_cons, not_or] at hops
      exact ih (slot?_after h (Ne.symm hops.1)) hops.2

end

/-! ## What is new -/

/-- The channels that operations bring to a table, in the order in which they name
them first. -/
def newChannels (t : OffsetTable) (ops : List Operation) : List String :=
  ((ops.filterMap Operation.channel?).removeAll t.groups.keys).eraseDups

/-- The signals that operations bring to a channel. -/
def newSignals (t : OffsetTable) (ops : List Operation) (channel : String) : List String :=
  ((ops.flatMap (Operation.signals channel)).removeAll (t.signalsOf channel)).eraseDups

theorem nodup_signalsOf (t : OffsetTable) (channel : String) :
    (t.signalsOf channel).Nodup :=
  OrderedMap.nodup _

theorem records_self (t : OffsetTable) : Records t.groups.keys t.signalsOf t :=
  ⟨(eraseDups_of_nodup t.groups.nodup).symm, fun c =>
    (eraseDups_of_nodup (t.nodup_signalsOf c)).symm⟩

section

variable (t : OffsetTable) (ops : List Operation)

/-- The table after operations, with all places set. -/
def later : OffsetTable := (ops.foldl after t).calculate

theorem groups_later : (t.later ops).groups.keys = t.groups.keys ++ t.newChannels ops := by
  have hrecords := records_calculate (records_foldl t.records_self ops)
  have hnodup : t.groups.keys.Nodup := t.groups.nodup
  rw [later, hrecords.channels, List.eraseDups_append, eraseDups_of_nodup hnodup, newChannels]

theorem signalsOf_later (channel : String) :
    (t.later ops).signalsOf channel = t.signalsOf channel ++ t.newSignals ops channel := by
  have hrecords := records_calculate (records_foldl t.records_self ops)
  rw [later, hrecords.signals, List.eraseDups_append,
    eraseDups_of_nodup (t.nodup_signalsOf channel), newSignals]

theorem channelsBefore_later {channel : String} (h : channel ∈ t.groups.keys) :
    (t.later ops).channelsBefore channel = t.channelsBefore channel := by
  -- what is new stands behind the channel
  have hstop : (t.groups.keys.takeWhile (· ≠ channel)).length ≠ t.groups.keys.length := by
    intro hlength
    have hall := (List.takeWhile_sublist _).eq_of_length hlength
    have hne := List.takeWhile_eq_self_iff.mp hall channel h
    simp at hne
  rw [channelsBefore, channelsBefore, groups_later, List.takeWhile_append, if_neg hstop]

/-- How many signals operations bring to the channels before a channel. -/
def addedBefore (channel : String) : Nat :=
  ((t.channelsBefore channel).map fun c => (t.newSignals ops c).length).sum

theorem signalsBefore_later {channel : String} (h : channel ∈ t.groups.keys) :
    (t.later ops).signalsBefore channel
      = t.signalsBefore channel + t.addedBefore ops channel := by
  rw [signalsBefore, t.channelsBefore_later ops h, signalsBefore, addedBefore,
    ← List.sum_map_add]
  simp only [signalsOf_later, List.length_append]

end

/-- A signal keeps its index, and its value moves by 24 bytes for each signal that is
new in a channel before. -/
theorem slot?_later {t : OffsetTable} (ops : List Operation) {channel signal : String}
    {slot : Slot} (h : t.calculate.slot? channel signal = some slot) :
    (t.calculate.later ops).slot? channel signal = some
      ⟨slot.index, slot.offset + 24 * t.calculate.addedBefore ops channel⟩ := by
  have hmem : signal ∈ t.calculate.signalsOf channel := mem_signalsOf_iff.mpr ⟨slot, h⟩
  have hmem' : signal ∈ (t.calculate.later ops).signalsOf channel := by
    rw [signalsOf_later]
    exact List.mem_append_left _ hmem
  have hchannel : channel ∈ t.calculate.groups.keys := by
    obtain ⟨g, hg, -⟩ := Option.bind_eq_some_iff.mp h
    exact OrderedMap.contains_iff.mp (Option.isSome_of_mem hg)
  have hindex : ((t.calculate.later ops).signalsOf channel).idxOf signal
      = (t.calculate.signalsOf channel).idxOf signal := by
    rw [signalsOf_later, List.idxOf_append_of_mem hmem]
  rw [slot?_calculate hmem] at h
  cases h
  rw [later] at hmem' ⊢
  rw [slot?_calculate hmem', ← later, hindex, signalsBefore_later _ _ hchannel, Nat.mul_add,
    Nat.add_right_comm]

theorem addedBefore_eq_zero {t : OffsetTable} {ops : List Operation} {channel : String}
    (h : ∀ c ∈ t.channelsBefore channel, ∀ op ∈ ops, op.signals c = []) :
    t.addedBefore ops channel = 0 := by
  rw [addedBefore, List.sum_eq_zero]
  intro n hn
  obtain ⟨c, hc, rfl⟩ := List.mem_map.mp hn
  rw [newSignals, List.flatMap_eq_nil_iff.mpr (h c hc)]
  rfl

/-- When a table whose places are set grows and its places are set anew, what is new
comes behind what was there: channels keep their positions, and signals their
channels and indices. A signal moves by 24 bytes for each signal that is new in a
channel before its own, and stays if there is none. As long as places are not set
anew every signal stays. -/
theorem calculate_grows (t : OffsetTable) (ops : List Operation) :
    (t.calculate.later ops).groups.keys
        = t.calculate.groups.keys ++ t.calculate.newChannels ops
      ∧ (∀ channel, (t.calculate.later ops).signalsOf channel
          = t.calculate.signalsOf channel ++ t.calculate.newSignals ops channel)
      ∧ (∀ channel signal slot, t.calculate.slot? channel signal = some slot →
          (t.calculate.later ops).slot? channel signal = some
            ⟨slot.index, slot.offset + 24 * t.calculate.addedBefore ops channel⟩)
      ∧ (∀ channel signal o, t.calculate.lookup channel signal = some o →
          (t.calculate.later ops).lookup channel signal
            = some (o + 24 * t.calculate.addedBefore ops channel))
      ∧ (∀ channel signal o, t.calculate.lookup channel signal = some o →
          (∀ c ∈ t.calculate.channelsBefore channel, ∀ op ∈ ops, op.signals c = []) →
          (t.calculate.later ops).lookup channel signal = some o)
      ∧ ∀ done, done <+: ops → .calculate ∉ done → ∀ channel signal o,
          t.calculate.lookup channel signal = some o →
          (done.foldl after t.calculate).lookup channel signal = some o := by
  have hlookup : ∀ channel signal o, t.calculate.lookup channel signal = some o →
      (t.calculate.later ops).lookup channel signal
        = some (o + 24 * t.calculate.addedBefore ops channel) := by
    intro channel signal o h
    rw [lookup_eq, Option.map_eq_some_iff] at h
    obtain ⟨slot, hslot, rfl⟩ := h
    rw [lookup_eq, slot?_later ops hslot, Option.map_some]
  refine ⟨groups_later _ ops, signalsOf_later _ ops, fun _ _ _ h => slot?_later ops h, hlookup,
    ?_, ?_⟩
  · intro channel signal o h hnone
    rw [hlookup channel signal o h, addedBefore_eq_zero hnone, Nat.mul_zero, Nat.add_zero]
  · intro done _ hdone channel signal o h
    rw [lookup_eq, Option.map_eq_some_iff] at h
    obtain ⟨slot, hslot, rfl⟩ := h
    rw [lookup_eq, slot?_foldl hslot hdone, Option.map_some]

example :
    let t := (ofOperations [.add "a" "x", .add "b" "y"]).calculate
    let t' := t.later [.add "a" "z", .add "a" "x", .add "b" "w"]
    t.lookup "b" "y" = some 24 ∧ t'.lookup "b" "y" = some 48 ∧ t'.lookup "a" "x" = some 0 := by
  decide

end OffsetTable

end SimAnnotate
