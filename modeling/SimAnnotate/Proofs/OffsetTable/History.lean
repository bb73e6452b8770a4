import SimAnnotate.Proofs.OffsetTable
import SimAnnotate.Proofs.OrderedMap

/-!
# Offset tables from histories

A table that is built by operations in any order, with places set now and then,
is settled by what the history names and in which order it does so first: the
channels, and the signals of each channel (`firstSeen`). Once its places are set
it is the table that takes these lists one after the other
(`calculate_ofOperations`).
-/

namespace SimAnnotate

namespace OffsetTable

/-! ## Histories -/

/-- What is done to a table. -/
inductive Operation
  | group (channel : String)
  | add (channel signal : String)
  /-- Takes the group of a channel and adds signals to it. -/
  | addAll (channel : String) (signals : List String)
  | calculate
deriving DecidableEq

namespace Operation

/-- The channel that an operation names. -/
def channel? : Operation → Option String
  | group channel | add channel _ | addAll channel _ => some channel
  | calculate => none

/-- The signals that an operation adds to a channel. -/
def signals (channel : String) : Operation → List String
  | add c signal => if c = channel then [signal] else []
  | addAll c signals => if c = channel then signals else []
  | group _ | calculate => []

end Operation

def after (t : OffsetTable) : Operation → OffsetTable
  | .group channel => t.addGroup channel
  | .add channel signal => t.add channel signal
  | .addAll channel signals => t.addAll channel signals
  | .calculate => t.calculate

/-- The table that a history makes of the empty one. -/
def ofOperations (ops : List Operation) : OffsetTable :=
  ops.foldl after empty

/-- The channels of a history in the order in which it names them first. -/
def channels (ops : List Operation) : List String :=
  (ops.filterMap Operation.channel?).eraseDups

/-- The signals of a channel in the order in which a history adds them first. -/
def signals (ops : List Operation) (channel : String) : List String :=
  (ops.flatMap (Operation.signals channel)).eraseDups

/-- The channels of a history, each with its signals. -/
def firstSeen (ops : List Operation) : List (String × List String) :=
  (channels ops).map fun channel => (channel, signals ops channel)

/-- The table that takes channels with their signals one after the other. -/
def batch (lists : List (String × List String)) : OffsetTable :=
  (lists.foldl (fun t l => t.addAll l.1 l.2) empty).calculate

/-- An operation that names nothing that is new after a history. -/
def Operation.Known (ops : List Operation) (op : Operation) : Prop :=
  (∀ channel ∈ op.channel?, channel ∈ channels ops)
    ∧ ∀ channel, ∀ signal ∈ op.signals channel, signal ∈ OffsetTable.signals ops channel

theorem Operation.known_of_mem {ops : List Operation} {op : Operation} (h : op ∈ ops) :
    op.Known ops := by
  refine ⟨fun channel hc => ?_, fun channel signal hs => ?_⟩
  · exact List.mem_eraseDups.mpr (List.mem_filterMap.mpr ⟨op, h, hc⟩)
  · exact List.mem_eraseDups.mpr (List.mem_flatMap.mpr ⟨op, h, hs⟩)

/-! ## What a table has seen -/

/-- The signals of a channel, in order. -/
def signalsOf (t : OffsetTable) (channel : String) : List String :=
  ((t.group? channel).getD .empty).slots.keys

/-- The table has the channels of `named` and, for each, the signals of `added`,
in the order in which they come first. Places do not matter. -/
structure Records (named : List String) (added : String → List String)
    (t : OffsetTable) : Prop where
  channels : t.groups.keys = named.eraseDups
  signals : ∀ channel, t.signalsOf channel = (added channel).eraseDups

theorem records_empty : Records [] (fun _ => []) empty := ⟨rfl, fun _ => rfl⟩

theorem keys_add (g : OffsetGroup) (signal : String) :
    (g.add signal).slots.keys = (g.slots.insert signal ⟨0, 0⟩).keys := by
  unfold OffsetGroup.add
  split
  · next h => rw [OrderedMap.keys_insert_of_mem (OrderedMap.contains_iff.mp h)]
  · rfl

theorem signalsOf_insert_self (t : OffsetTable) (channel : String) (g : OffsetGroup) :
    signalsOf ⟨t.groups.insert channel g⟩ channel = g.slots.keys := by
  rw [signalsOf, group?, OrderedMap.get?_insert_self]
  rfl

theorem signalsOf_insert_ne (t : OffsetTable) {channel c : String} (g : OffsetGroup)
    (h : c ≠ channel) :
    signalsOf ⟨t.groups.insert channel g⟩ c = t.signalsOf c := by
  rw [signalsOf, signalsOf, group?, group?, OrderedMap.get?_insert_ne _ _ h]

@[simp] theorem keys_calculate (t : OffsetTable) :
    t.calculate.groups.keys = t.groups.keys :=
  map_fst_placeGroups 0 t.groups.entries

@[simp] theorem signalsOf_calculate (t : OffsetTable) (channel : String) :
    t.calculate.signalsOf channel = t.signalsOf channel := by
  rw [signalsOf, signalsOf, group?_calculate]
  cases t.group? channel with
  | none => rfl
  | some g => exact keys_placeGroup _ g

section

variable {named : List String} {added : String → List String} {t : OffsetTable}
  (h : Records named added t)

include h

theorem records_addGroup (channel : String) :
    Records (named ++ [channel]) added (t.addGroup channel) := by
  unfold addGroup
  split
  · -- a channel that is there is not named a second time
    next hc =>
      have hmem : channel ∈ named := by
        rwa [OrderedMap.contains_iff, h.channels, List.mem_eraseDups] at hc
      refine ⟨?_, h.signals⟩
      rw [h.channels, eraseDups_concat, if_pos hmem]
  · next hc =>
      have hnone : t.groups.get? channel = none :=
        OrderedMap.get?_eq_none fun hmem => hc (OrderedMap.contains_iff.mpr hmem)
      refine ⟨OrderedMap.keys_insert_eraseDups h.channels _ _, fun c => ?_⟩
      rw [← h.signals c]
      -- the new channel has no signals yet
      by_cases heq : c = channel
      · subst heq
        rw [signalsOf_insert_self, signalsOf, group?, hnone]
        rfl
      · exact signalsOf_insert_ne t _ heq

theorem records_add (channel signal : String) :
    Records (named ++ [channel])
      (fun c => added c ++ if channel = c then [signal] else []) (t.add channel signal) := by
  refine ⟨OrderedMap.keys_insert_eraseDups h.channels _ _, fun c => ?_⟩
  by_cases heq : channel = c
  · subst heq
    rw [if_pos rfl, add, signalsOf_insert_self, keys_add]
    exact OrderedMap.keys_insert_eraseDups (h.signals channel) _ _
  · rw [if_neg heq, List.append_nil, add, signalsOf_insert_ne t _ (Ne.symm heq),
      h.signals c]

theorem records_addAll (channel : String) (signals : List String) :
    Records (named ++ [channel])
      (fun c => added c ++ if channel = c then signals else [])
      (t.addAll channel signals) := by
  -- the channel is there from the start, so naming it with each signal adds nothing
  have hfold : ∀ {added : String → List String} {t : OffsetTable},
      Records (named ++ [channel]) added t →
      Records (named ++ [channel])
        (fun c => added c ++ if channel = c then signals else [])
        (signals.foldl (·.add channel ·) t) := by
    induction signals with
    | nil =>
        intro added t h
        simpa using h
    | cons signal rest ih =>
        intro added t h
        have hstep := records_add h channel signal
        have hkeys : (named ++ [channel] ++ [channel]).eraseDups
            = (named ++ [channel]).eraseDups := by
          rw [eraseDups_concat, if_pos (by simp)]
        have hrest := ih ⟨hstep.channels.trans hkeys, hstep.signals⟩
        refine ⟨hrest.channels, fun c => (hrest.signals c).trans ?_⟩
        rw [List.append_assoc]
        split <;> simp
  exact hfold (records_addGroup h channel)

/-- Setting places changes no name. -/
theorem records_calculate : Records named added t.calculate :=
  ⟨t.keys_calculate.trans h.channels,
    fun c => (t.signalsOf_calculate c).trans (h.signals c)⟩

theorem records_after (op : Operation) :
    Records (named ++ op.channel?.toList) (fun c => added c ++ op.signals c)
      (t.after op) := by
  cases op with
  | group channel =>
      simp only [Operation.signals, List.append_nil]
      exact records_addGroup h channel
  | add channel signal => exact records_add h channel signal
  | addAll channel signals => exact records_addAll h channel signals
  | calculate =>
      simp only [Operation.signals, Operation.channel?, Option.toList, List.append_nil]
      exact records_calculate h

end

theorem records_foldl {named : List String} {added : String → List String} {t : OffsetTable}
    (h : Records named added t) (ops : List Operation) :
    Records (named ++ ops.filterMap Operation.channel?)
      (fun c => added c ++ ops.flatMap (Operation.signals c)) (ops.foldl after t) := by
  induction ops using List.reverseRecOn with
  | nil => simpa using h
  | append_singleton ops op ih =>
      have hnamed : [op].filterMap Operation.channel? = op.channel?.toList := by
        cases op <;> rfl
      rw [List.foldl_concat]
      simp only [List.filterMap_append, List.flatMap_append, List.flatMap_singleton, hnamed,
        ← List.append_assoc]
      exact records_after ih op

theorem records_ofOperations (ops : List Operation) :
    Records (ops.filterMap Operation.channel?)
      (fun c => ops.flatMap (Operation.signals c)) (ofOperations ops) :=
  records_foldl records_empty ops

/-! ## Places from names -/

/-- The names of a table. -/
def names (t : OffsetTable) : List (String × List String) :=
  t.groups.entries.map fun e => (e.1, e.2.slots.keys)

theorem names_eq (t : OffsetTable) :
    t.names = t.groups.keys.map fun c => (c, t.signalsOf c) :=
  t.groups.map_entries fun g => (g.getD .empty).slots.keys

theorem names_of_records {named : List String} {added : String → List String}
    {t : OffsetTable} (h : Records named added t) :
    t.names = named.eraseDups.map fun c => (c, (added c).eraseDups) := by
  rw [names_eq, h.channels]
  exact List.map_congr_left fun c _ => by rw [h.signals]

theorem names_ofOperations (ops : List Operation) :
    (ofOperations ops).names = firstSeen ops :=
  names_of_records (records_ofOperations ops)

/-- Names one behind the other in a region at `base`. -/
def row (base : Nat) (names : List String) : List (String × Slot) :=
  names.zipIdx.map fun (name, i) => (name, ⟨i, base + i * valueSize⟩)

/-- What a table says of each channel. -/
structure Entry where
  channel : String
  slots : List (String × Slot)
  offset : Nat
  length : Nat
deriving DecidableEq

def contents (t : OffsetTable) : List Entry :=
  t.groups.entries.map fun (channel, g) => ⟨channel, g.slots.entries, g.offset, g.length⟩

/-- Channels with their signals, `before` signals before the first. -/
def layout : Nat → List (String × List String) → List Entry
  | _, [] => []
  | before, (channel, signals) :: rest =>
      ⟨channel, row (before * slotSize) signals, before, signals.length⟩
        :: layout (before + signals.length) rest

theorem placeSlots_eq (base i : Nat) (ss : List (String × Slot)) :
    placeSlots base i ss = ((ss.map Prod.fst).zipIdx i).map
      fun (name, j) => (name, ⟨j, base + j * valueSize⟩) := by
  induction ss generalizing i with
  | nil => rfl
  | cons s rest ih => rw [placeSlots, ih, List.map_cons, List.zipIdx_cons, List.map_cons]

/-- With all places set a table is the layout of its names. -/
theorem contents_calculate (t : OffsetTable) :
    t.calculate.contents = layout 0 t.names := by
  have hgroups : ∀ (before : Nat) (gs : List (String × OffsetGroup)),
      ((placeGroups before gs).map fun (channel, g) =>
          (⟨channel, g.slots.entries, g.offset, g.length⟩ : Entry))
        = layout before (gs.map fun e => (e.1, e.2.slots.keys)) := by
    intro before gs
    induction gs generalizing before with
    | nil => rfl
    | cons e rest ih =>
        have hlength : e.2.slots.keys.length = e.2.slots.size := List.length_map _
        have hrow := placeSlots_eq (before * slotSize) 0 e.2.slots.entries
        rw [placeGroups, List.map_cons, ih, List.map_cons, layout, hlength]
        exact congrArg (fun slots => Entry.mk _ slots _ _ :: _) hrow
  exact hgroups 0 t.groups.entries

theorem contents_inj {t t' : OffsetTable} (h : t.contents = t'.contents) : t = t' := by
  have hentries : t.groups.entries = t'.groups.entries := by
    refine List.map_injective_iff.mpr ?_ h
    rintro ⟨c, ⟨⟨slots, _⟩, offset, length⟩⟩ ⟨c', ⟨⟨slots', _⟩, offset', length'⟩⟩ heq
    cases heq
    rfl
  exact congrArg OffsetTable.mk (OrderedMap.ext_entries hentries)

/-- The names settle the places. -/
theorem calculate_congr {t t' : OffsetTable} (h : t.names = t'.names) :
    t.calculate = t'.calculate :=
  contents_inj (by rw [contents_calculate, contents_calculate, h])

theorem names_calculate (t : OffsetTable) : t.calculate.names = t.names := by
  simp only [names_eq, keys_calculate, signalsOf_calculate]

/-! ## Histories with the same names -/

theorem firstSeen_congr {ops ops' : List Operation} (hc : channels ops' = channels ops)
    (hs : ∀ c, signals ops' c = signals ops c) : firstSeen ops' = firstSeen ops := by
  simp only [firstSeen, hc, hs]

theorem calculate_ofOperations_congr {ops ops' : List Operation}
    (h : firstSeen ops' = firstSeen ops) :
    (ofOperations ops').calculate = (ofOperations ops).calculate :=
  calculate_congr (by rw [names_ofOperations, names_ofOperations, h])

/-- Where a history sets places does not matter. -/
theorem firstSeen_filter (ops : List Operation) :
    firstSeen (ops.filter (· ≠ .calculate)) = firstSeen ops := by
  refine firstSeen_congr (congrArg List.eraseDups ?_) fun c => congrArg List.eraseDups ?_
  · induction ops with
    | nil => rfl
    | cons op rest ih => cases op <;> simpa [Operation.channel?, List.filterMap_cons] using ih
  · induction ops with
    | nil => rfl
    | cons op rest ih => cases op <;> simpa [Operation.signals] using ih

/-- Nothing changes where an operation names nothing new. -/
theorem firstSeen_insert {before : List Operation} {op : Operation} (h : op.Known before)
    (rest : List Operation) :
    firstSeen (before ++ op :: rest) = firstSeen (before ++ rest) := by
  have hop : op :: rest = [op] ++ rest := rfl
  refine firstSeen_congr ?_ fun c => ?_
  · rw [channels, channels, hop, List.filterMap_append, List.filterMap_append,
      List.filterMap_append]
    refine eraseDups_append_of_subset (fun c hc => ?_) _
    obtain ⟨op', hop', hc⟩ := List.mem_filterMap.mp hc
    cases List.mem_singleton.mp hop'
    exact List.mem_eraseDups.mp (h.1 c hc)
  · rw [signals, signals, hop, List.flatMap_append, List.flatMap_append, List.flatMap_append]
    refine eraseDups_append_of_subset (fun s hs => ?_) _
    rw [List.flatMap_singleton] at hs
    exact List.mem_eraseDups.mp (h.2 c s hs)

/-! ## One batch -/

theorem batch_eq (lists : List (String × List String)) :
    batch lists = (ofOperations (lists.map fun l => .addAll l.1 l.2)).calculate := by
  rw [batch, ofOperations, List.foldl_map]
  rfl

theorem flatMap_ite_of_mem {cs : List String} (h : cs.Nodup) {c : String} (hc : c ∈ cs)
    (f : String → List String) : (cs.flatMap fun c' => if c' = c then f c' else []) = f c := by
  induction cs with
  | nil => cases hc
  | cons c' rest ih =>
      rw [List.nodup_cons] at h
      rw [List.flatMap_cons]
      by_cases heq : c' = c
      · subst heq
        have hnone : (rest.flatMap fun c => if c = c' then f c else []) = [] := by
          rw [List.flatMap_eq_nil_iff]
          intro c hc
          exact if_neg fun (heq : c = c') => h.1 (heq ▸ hc)
        rw [if_pos rfl, hnone, List.append_nil]
      · rw [if_neg heq, List.nil_append]
        exact ih h.2 ((List.mem_cons.mp hc).resolve_left (Ne.symm heq))

/-- A batch sees the lists that it takes. -/
theorem firstSeen_batch {cs : List String} {f : String → List String} (hcs : cs.Nodup)
    (hf : ∀ c, (f c).Nodup) :
    firstSeen (cs.map fun c => .addAll c (f c)) = cs.map fun c => (c, f c) := by
  have hchannels : channels (cs.map fun c => .addAll c (f c)) = cs := by
    rw [channels, List.filterMap_map]
    refine (congrArg List.eraseDups ?_).trans (eraseDups_of_nodup hcs)
    exact List.filterMap_some
  rw [firstSeen, hchannels]
  refine List.map_congr_left fun c hc => ?_
  rw [signals, List.flatMap_map]
  simp only [Operation.signals]
  rw [flatMap_ite_of_mem hcs hc, eraseDups_of_nodup (hf c)]

/-- A history makes the table of its lists in one batch. -/
theorem calculate_eq_batch (ops : List Operation) :
    (ofOperations ops).calculate = batch (firstSeen ops) := by
  rw [batch_eq]
  refine calculate_ofOperations_congr ?_
  rw [firstSeen, List.map_map]
  exact (firstSeen_batch (nodup_eraseDups _) fun _ => nodup_eraseDups _).symm

/-! ## The law of histories -/

/-- A lookup finds what was added. -/
theorem isSome_lookup_calculate (ops : List Operation) (channel signal : String) :
    ((ofOperations ops).calculate.lookup channel signal).isSome
      ↔ ∃ op ∈ ops, signal ∈ op.signals channel := by
  have hrecords := records_calculate (records_ofOperations ops)
  rw [← List.mem_flatMap, ← List.mem_eraseDups, ← hrecords.signals, lookup, signalsOf]
  cases (ofOperations ops).calculate.group? channel with
  | none => simp [OffsetGroup.empty, OrderedMap.keys, EmptyCollection.emptyCollection,
      OrderedMap.empty]
  | some g =>
      rw [Option.getD_some, ← OrderedMap.contains_iff, OrderedMap.contains]
      change ((g.slots.get? signal).bind fun s => some s.offset).isSome = true ↔ _
      rw [Option.isSome_bind]
      simp

/-- A table whose places are set depends on what its history names first, and in
which order. It holds these channels with these signals, laid out one behind the
other, as one batch of them does. Setting places now and then, doing again what
was done, and setting all places again change nothing. -/
theorem calculate_ofOperations (ops : List Operation) :
    (ofOperations ops).calculate.groups.keys = channels ops
      ∧ (∀ channel, (ofOperations ops).calculate.signalsOf channel = signals ops channel)
      ∧ (ofOperations ops).calculate.contents = layout 0 (firstSeen ops)
      ∧ (ofOperations ops).calculate = batch (firstSeen ops)
      ∧ (∀ channel signal,
          ((ofOperations ops).calculate.lookup channel signal).isSome
            ↔ ∃ op ∈ ops, signal ∈ op.signals channel)
      ∧ (ofOperations ops).calculate.calculate = (ofOperations ops).calculate
      ∧ (∀ ops', ops'.filter (· ≠ .calculate) = ops.filter (· ≠ .calculate) →
          (ofOperations ops').calculate = (ofOperations ops).calculate)
      ∧ ∀ before op rest, ops = before ++ rest → op.Known before →
          (ofOperations (before ++ op :: rest)).calculate = (ofOperations ops).calculate := by
  have hrecords := records_calculate (records_ofOperations ops)
  refine ⟨hrecords.channels, hrecords.signals, ?_, calculate_eq_batch ops,
    isSome_lookup_calculate ops, calculate_congr (names_calculate _), ?_, ?_⟩
  · rw [contents_calculate, names_ofOperations]
  · intro ops' hfilter
    refine calculate_ofOperations_congr ?_
    rw [← firstSeen_filter, hfilter, firstSeen_filter]
  · rintro before op rest rfl hknown
    exact calculate_ofOperations_congr (firstSeen_insert hknown rest)

theorem calculate_ofOperations_sample :
    (ofOperations [.add "foo" "one", .add "foo" "two", .add "bar" "three"]).calculate.contents
        = [⟨"foo", [("one", ⟨0, 0⟩), ("two", ⟨1, 8⟩)], 0, 2⟩,
            ⟨"bar", [("three", ⟨0, 48⟩)], 2, 1⟩]
      ∧ (ofOperations [.add "foo" "one", .calculate, .add "foo" "two", .calculate,
            .add "bar" "three"]).calculate
          = (ofOperations [.add "foo" "one", .add "foo" "two", .add "bar" "three"]).calculate
      ∧ (ofOperations [.add "foo" "one", .add "foo" "one", .add "foo" "two",
            .add "bar" "three"]).calculate
          = (ofOperations [.add "foo" "one", .add "foo" "two",
              .add "bar" "three"]).calculate := by
  obtain ⟨-, -, hcontents, -, -, -, hfilter, hknown⟩ :=
    calculate_ofOperations [.add "foo" "one", .add "foo" "two", .add "bar" "three"]
  refine ⟨hcontents.trans (by decide), hfilter _ (by decide), ?_⟩
  exact hknown [.add "foo" "one"] (.add "foo" "one") _ rfl
    (Operation.known_of_mem List.mem_cons_self)

end OffsetTable

end SimAnnotate
