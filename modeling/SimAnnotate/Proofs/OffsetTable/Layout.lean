import Mathlib.Data.List.Pairwise
import Mathlib.Data.Set.BooleanAlgebra
import Mathlib.Order.CompletePartialOrder
import Mathlib.Order.Interval.Set.LinearOrder
import SimAnnotate.Proofs.OffsetTable.History

/-!
# No two places overlap

A channel's region begins behind the regions of the channels before it, and its
signals lie in it eight bytes apart, from its first byte on. `LaidOut` says what
follows for a table as a whole, and `calculate_laidOut` that every table is such
once its places are set: the values of different signals share no byte, and the
regions fill the table without a gap.

Setting places with numbers that have an upper limit comes to the same as long as
the limit is not below the size of the whole table.
-/

namespace SimAnnotate

namespace OffsetTable

/-! ## Bytes -/

/-- The bytes of a value that begins at `offset`. -/
def bytes (offset : Nat) : Set Nat := Set.Ico offset (offset + 8)

/-- The bytes that a channel has for its signals. -/
def region (g : OffsetGroup) : Set Nat :=
  Set.Ico (24 * g.offset) (24 * (g.offset + g.length))

/-- How many signals a table has. -/
def size (t : OffsetTable) : Nat := signalCount t.groups.entries

/-- The first bytes of all values, channel by channel and signal by signal. -/
def offsets (t : OffsetTable) : List Nat :=
  t.groups.entries.flatMap fun e => e.2.slots.entries.map (·.2.offset)

/-- All places are set, one behind the other. -/
structure LaidOut (t : OffsetTable) : Prop where
  /-- A channel says how many signals the channels before it have, and how many it
  has itself. -/
  group : ∀ (k : Nat) channel g, t.groups.entries[k]? = some (channel, g) →
    g.offset = signalCount (t.groups.entries.take k) ∧ g.length = g.slots.size
  slot : ∀ channel g, t.group? channel = some g →
    ∀ (i : Nat) signal slot, g.slots.entries[i]? = some (signal, slot) →
      slot.index = i ∧ slot.offset = 24 * g.offset + 8 * i
  increasing : t.offsets.Pairwise (· < ·)
  aligned : ∀ o ∈ t.offsets, 8 ∣ o
  /-- Different signals have no byte in common. -/
  apart : ∀ channel signal o channel' signal' o', t.lookup channel signal = some o →
    t.lookup channel' signal' = some o' → (channel, signal) ≠ (channel', signal') →
      Disjoint (bytes o) (bytes o')
  inside : ∀ channel g signal o, t.group? channel = some g →
    t.lookup channel signal = some o → bytes o ⊆ region g
  regions : ∀ channel g channel' g', t.group? channel = some g →
    t.group? channel' = some g' → channel ≠ channel' → Disjoint (region g) (region g')
  /-- The regions together are the whole table. -/
  filled : {n | ∃ channel g, t.group? channel = some g ∧ n ∈ region g}
    = Set.Ico 0 (24 * t.size)

/-! ## What is placed where -/

theorem getElem?_placeSlots (base i : Nat) (ss : List (String × Slot)) (k : Nat) :
    (placeSlots base i ss)[k]?
      = ss[k]?.map fun s => (s.1, ⟨i + k, base + (i + k) * valueSize⟩) := by
  induction ss generalizing i k with
  | nil => rfl
  | cons s rest ih =>
      cases k with
      | zero => rfl
      | succ k =>
          rw [placeSlots, List.getElem?_cons_succ, List.getElem?_cons_succ, ih]
          simp only [Nat.add_assoc, Nat.add_comm 1 k]

@[simp] theorem size_placeGroup (before : Nat) (g : OffsetGroup) :
    (placeGroup before g).slots.size = g.slots.size := by
  have h := congrArg List.length (map_fst_placeSlots (before * slotSize) 0 g.slots.entries)
  rwa [List.length_map, List.length_map] at h

theorem getElem?_placeGroups (before : Nat) (gs : List (String × OffsetGroup)) (k : Nat) :
    (placeGroups before gs)[k]?
      = gs[k]?.map fun e => (e.1, placeGroup (before + signalCount (gs.take k)) e.2) := by
  induction gs generalizing before k with
  | nil => rfl
  | cons e rest ih =>
      cases k with
      | zero => rfl
      | succ k =>
          rw [placeGroups, List.getElem?_cons_succ, List.getElem?_cons_succ, ih,
            List.take_succ_cons, signalCount_cons, Nat.add_assoc]

theorem signalCount_placeGroups (before : Nat) (gs : List (String × OffsetGroup)) :
    signalCount (placeGroups before gs) = signalCount gs := by
  induction gs generalizing before with
  | nil => rfl
  | cons e rest ih =>
      rw [placeGroups, signalCount_cons, signalCount_cons, size_placeGroup, ih]

theorem take_placeGroups (before : Nat) (gs : List (String × OffsetGroup)) (k : Nat) :
    (placeGroups before gs).take k = placeGroups before (gs.take k) := by
  induction gs generalizing before k with
  | nil => simp [placeGroups]
  | cons e rest ih =>
      cases k with
      | zero => rfl
      | succ k => rw [placeGroups, List.take_succ_cons, List.take_succ_cons, placeGroups, ih]

@[simp] theorem size_calculate (t : OffsetTable) : t.calculate.size = t.size :=
  signalCount_placeGroups 0 t.groups.entries

/-- What a placed channel holds at a position. -/
theorem slot_placeGroup {before i : Nat} {g : OffsetGroup} {e : String × Slot}
    (h : (placeGroup before g).slots.entries[i]? = some e) :
    e.2.index = i ∧ e.2.offset = 24 * before + 8 * i ∧ i < g.slots.size := by
  have hget := getElem?_placeSlots (before * slotSize) 0 g.slots.entries i
  obtain ⟨s, hs, rfl⟩ := Option.map_eq_some_iff.mp (hget.symm.trans h)
  obtain ⟨hlt, -⟩ := List.getElem?_eq_some_iff.mp hs
  refine ⟨Nat.zero_add i, ?_, hlt⟩
  show before * 24 + (0 + i) * 8 = 24 * before + 8 * i
  omega

/-- Each channel of a table with all places set is a placed one. -/
theorem exists_placeGroup {before : Nat} {gs : List (String × OffsetGroup)}
    {e : String × OffsetGroup} (h : e ∈ placeGroups before gs) :
    ∃ b g, e.2 = placeGroup b g := by
  obtain ⟨k, hk⟩ := List.getElem?_of_mem h
  rw [getElem?_placeGroups] at hk
  obtain ⟨e', -, rfl⟩ := Option.map_eq_some_iff.mp hk
  exact ⟨_, _, rfl⟩

/-! ## Regions -/

theorem le_offset_of_mem {before : Nat} {gs : List (String × OffsetGroup)}
    {e : String × OffsetGroup} (h : e ∈ placeGroups before gs) : before ≤ e.2.offset := by
  obtain ⟨k, hk⟩ := List.getElem?_of_mem h
  rw [getElem?_placeGroups] at hk
  obtain ⟨e', -, rfl⟩ := Option.map_eq_some_iff.mp hk
  exact Nat.le_add_right before _

/-- A channel ends before the later ones begin. -/
theorem pairwise_placeGroups (before : Nat) (gs : List (String × OffsetGroup)) :
    (placeGroups before gs).Pairwise fun e e' => e.2.offset + e.2.length ≤ e'.2.offset := by
  induction gs generalizing before with
  | nil => exact .nil
  | cons e rest ih => exact .cons (fun e' he' => le_offset_of_mem he') (ih _)

theorem region_placeGroups (before : Nat) (gs : List (String × OffsetGroup)) (n : Nat) :
    (∃ e ∈ placeGroups before gs, n ∈ region e.2)
      ↔ 24 * before ≤ n ∧ n < 24 * (before + signalCount gs) := by
  induction gs generalizing before with
  | nil => simp [placeGroups, signalCount]
  | cons e rest ih =>
      have hrest := ih (before + e.2.slots.size)
      have hfirst : n ∈ region (placeGroup before e.2)
          ↔ 24 * before ≤ n ∧ n < 24 * (before + e.2.slots.size) := Iff.rfl
      rw [placeGroups, List.exists_mem_cons_iff, hfirst, hrest, signalCount_cons]
      omega

/-! ## Offsets -/

theorem increasing_placeGroup (before : Nat) (g : OffsetGroup) :
    ((placeGroup before g).slots.entries.map (·.2.offset)).Pairwise (· < ·) := by
  rw [List.pairwise_map, List.pairwise_iff_getElem]
  intro i j hi hj hij
  obtain ⟨-, hoffset, -⟩ := slot_placeGroup (List.getElem?_eq_getElem hi)
  obtain ⟨-, hoffset', -⟩ := slot_placeGroup (List.getElem?_eq_getElem hj)
  omega

theorem increasing_offsets (t : OffsetTable) : t.calculate.offsets.Pairwise (· < ·) := by
  refine List.pairwise_flatMap.mpr ⟨fun e he => ?_, ?_⟩
  · obtain ⟨b, g, hg⟩ := exists_placeGroup he
    rw [hg]
    exact increasing_placeGroup b g
  · -- a later channel begins behind all values of an earlier one
    have hplaced := pairwise_placeGroups 0 t.groups.entries
    refine hplaced.imp_of_mem fun {e e'} he he' hle o ho o' ho' => ?_
    obtain ⟨b, g, hg⟩ := exists_placeGroup he
    obtain ⟨b', g', hg'⟩ := exists_placeGroup he'
    obtain ⟨s, hs, rfl⟩ := List.mem_map.mp ho
    obtain ⟨s', hs', rfl⟩ := List.mem_map.mp ho'
    rw [hg] at hs hle
    rw [hg'] at hs' hle
    obtain ⟨-, hend, -⟩ := mem_placeGroup hs
    obtain ⟨hstart, -, -⟩ := mem_placeGroup hs'
    have hregions : b + g.slots.size ≤ b' := hle
    omega

/-! ## Limited numbers -/

/-- A number, if it is not above the limit. -/
def fit? (limit n : Nat) : Option Nat := if n ≤ limit then some n else none

/-- The signals of a channel from position `i` on, as `row` places them. No number
that comes up may be above the limit. -/
def rowWithin (limit base : Nat) : Nat → List String → Option (List (String × Slot))
  | _, [] => some []
  | i, signal :: rest => do
      let step ← fit? limit (i * valueSize)
      let offset ← fit? limit (base + step)
      let next ← fit? limit (i + 1)
      return (signal, ⟨i, offset⟩) :: (← rowWithin limit base next rest)

/-- Channels as `layout` places them. -/
def layoutWithin (limit : Nat) : Nat → List (String × List String) → Option (List Entry)
  | _, [] => some []
  | before, (channel, signals) :: rest => do
      let length ← fit? limit signals.length
      let base ← fit? limit (before * slotSize)
      let slots ← rowWithin limit base 0 signals
      let next ← fit? limit (before + length)
      return ⟨channel, slots, before, length⟩ :: (← layoutWithin limit next rest)

theorem fit?_bind {α : Type} {limit n : Nat} (h : n ≤ limit) (f : Nat → Option α) :
    (fit? limit n >>= f) = f n := by
  rw [fit?, if_pos h]
  rfl

theorem rowWithin_eq {limit base i : Nat} {signals : List String}
    (h : base + 24 * (i + signals.length) ≤ limit) :
    rowWithin limit base i signals = some ((signals.zipIdx i).map
      fun (name, j) => (name, ⟨j, base + j * valueSize⟩)) := by
  induction signals generalizing i with
  | nil => rfl
  | cons signal rest ih =>
      rw [List.length_cons] at h
      have hstep : i * valueSize ≤ limit := by
        show i * 8 ≤ limit
        omega
      have hoffset : base + i * valueSize ≤ limit := by
        show base + i * 8 ≤ limit
        omega
      have hrest : rowWithin limit base (i + 1) rest = _ := ih (by omega)
      rw [rowWithin, fit?_bind hstep, fit?_bind hoffset, fit?_bind (by omega), hrest]
      rfl

theorem layoutWithin_eq {limit before : Nat} {names : List (String × List String)}
    (h : 24 * (before + (names.map (·.2.length)).sum) ≤ limit) :
    layoutWithin limit before names = some (layout before names) := by
  induction names generalizing before with
  | nil => rfl
  | cons e rest ih =>
      rw [List.map_cons, List.sum_cons] at h
      have hbase : before * slotSize ≤ limit := by
        show before * 24 ≤ limit
        omega
      have hrow : rowWithin limit (before * slotSize) 0 e.2
          = some (row (before * slotSize) e.2) := by
        refine rowWithin_eq ?_
        show before * 24 + 24 * (0 + e.2.length) ≤ limit
        omega
      have hrest : layoutWithin limit (before + e.2.length) rest = _ := ih (by omega)
      rw [layoutWithin, fit?_bind (by omega), fit?_bind hbase, hrow, Option.bind_eq_bind,
        Option.bind_some, fit?_bind (by omega), hrest]
      rfl

/-! ## The whole table -/

theorem size_eq (t : OffsetTable) : t.size = (t.names.map (·.2.length)).sum := by
  rw [size, signalCount, names, List.map_map]
  refine congrArg List.sum (List.map_congr_left fun e _ => ?_)
  exact (List.length_map _).symm

variable {t : OffsetTable}

theorem exists_of_group?_calculate {channel : String} {g : OffsetGroup}
    (h : t.calculate.group? channel = some g) :
    (channel, g) ∈ placeGroups 0 t.groups.entries ∧ ∃ b g', g = placeGroup b g' := by
  have hmem := OrderedMap.mem_entries_iff.mpr h
  exact ⟨hmem, exists_placeGroup hmem⟩

/-- The bytes of a value are in the region of its channel. -/
theorem mem_region_of_lookup {channel signal : String} {o : Nat} {g : OffsetGroup}
    (hg : t.calculate.group? channel = some g)
    (h : t.calculate.lookup channel signal = some o) :
    24 * g.offset ≤ o ∧ o + 8 ≤ 24 * (g.offset + g.length) ∧ 8 ∣ o := by
  obtain ⟨g', slot, hg', hslot, rfl⟩ := exists_of_lookup h
  rw [hg] at hg'
  cases hg'
  obtain ⟨-, b, g₀, rfl⟩ := exists_of_group?_calculate hg
  exact mem_placeGroup (OrderedMap.mem_entries_iff.mpr hslot)

theorem aligned_offsets (t : OffsetTable) : ∀ o ∈ t.calculate.offsets, 8 ∣ o := by
  intro o ho
  obtain ⟨e, he, ho⟩ := List.mem_flatMap.mp ho
  obtain ⟨s, hs, rfl⟩ := List.mem_map.mp ho
  obtain ⟨b, g, hg⟩ := exists_placeGroup he
  rw [hg] at hs
  exact (mem_placeGroup hs).2.2

/-- The values of different signals have no byte in common. -/
theorem disjoint_bytes {channel signal channel' signal' : String} {o o' : Nat}
    (h : t.calculate.lookup channel signal = some o)
    (h' : t.calculate.lookup channel' signal' = some o')
    (hne : (channel, signal) ≠ (channel', signal')) : Disjoint (bytes o) (bytes o') := by
  have hoffsets : o ≠ o' := by
    rintro rfl
    obtain ⟨rfl, rfl⟩ := lookup_calculate_inj h h'
    exact hne rfl
  obtain ⟨g, -, hg, -, -⟩ := exists_of_lookup h
  obtain ⟨g', -, hg', -, -⟩ := exists_of_lookup h'
  -- different multiples of eight are eight apart
  obtain ⟨-, -, haligned⟩ := mem_region_of_lookup hg h
  obtain ⟨-, -, haligned'⟩ := mem_region_of_lookup hg' h'
  rw [Set.disjoint_left]
  rintro n ⟨hlow, hhigh⟩ ⟨hlow', hhigh'⟩
  omega

theorem disjoint_regions {channel channel' : String} {g g' : OffsetGroup}
    (h : t.calculate.group? channel = some g) (h' : t.calculate.group? channel' = some g')
    (hne : channel ≠ channel') : Disjoint (region g) (region g') := by
  have hpairwise : (placeGroups 0 t.groups.entries).Pairwise fun e e' =>
      e.2.offset + e.2.length ≤ e'.2.offset ∨ e'.2.offset + e'.2.length ≤ e.2.offset :=
    (pairwise_placeGroups 0 t.groups.entries).imp .inl
  have : Std.Symm fun e e' : String × OffsetGroup =>
      e.2.offset + e.2.length ≤ e'.2.offset ∨ e'.2.offset + e'.2.length ≤ e.2.offset :=
    ⟨fun _ _ => Or.symm⟩
  have hends := hpairwise.forall (exists_of_group?_calculate h).1
    (exists_of_group?_calculate h').1 fun heq => hne (congrArg Prod.fst heq)
  rw [Set.disjoint_left]
  rintro n ⟨hlow, hhigh⟩ ⟨hlow', hhigh'⟩
  dsimp only at hends
  omega

/-- Every byte of a table is in a region. -/
theorem filled_regions (t : OffsetTable) :
    {n | ∃ channel g, t.calculate.group? channel = some g ∧ n ∈ region g}
      = Set.Ico 0 (24 * t.calculate.size) := by
  ext n
  have hregions := region_placeGroups 0 t.groups.entries n
  rw [Nat.zero_add] at hregions
  rw [size_calculate]
  refine Iff.trans ⟨?_, ?_⟩ hregions
  · rintro ⟨channel, g, hg, hn⟩
    exact ⟨(channel, g), OrderedMap.mem_entries_iff.mpr hg, hn⟩
  · rintro ⟨⟨channel, g⟩, hg, hn⟩
    exact ⟨channel, g, OrderedMap.mem_entries_iff.mp hg, hn⟩

theorem laidOut_calculate (t : OffsetTable) : t.calculate.LaidOut where
  group k channel g h := by
    have hget := getElem?_placeGroups 0 t.groups.entries k
    have htake := take_placeGroups 0 t.groups.entries k
    obtain ⟨e, -, heq⟩ := Option.map_eq_some_iff.mp (hget.symm.trans h)
    cases heq
    refine ⟨?_, (size_placeGroup _ _).symm⟩
    show 0 + signalCount _ = signalCount ((placeGroups 0 t.groups.entries).take k)
    rw [htake, signalCount_placeGroups, Nat.zero_add]
  slot channel g h i signal slot hslot := by
    obtain ⟨-, b, g', rfl⟩ := exists_of_group?_calculate h
    obtain ⟨hindex, hoffset, -⟩ := slot_placeGroup hslot
    exact ⟨hindex, hoffset⟩
  increasing := increasing_offsets t
  aligned := aligned_offsets t
  apart _ _ _ _ _ _ := disjoint_bytes
  inside channel g signal o hg h := by
    obtain ⟨hlow, hhigh, -⟩ := mem_region_of_lookup hg h
    exact Set.Ico_subset_Ico hlow hhigh
  regions _ _ _ _ := disjoint_regions
  filled := filled_regions t

/-- Setting all places names no channel and no signal anew, and lays the table out
without overlaps. No number that comes up on the way is above the size of the whole
table: with numbers up to any limit that is not below it, the same comes out. -/
theorem calculate_laidOut (t : OffsetTable) :
    t.calculate.names = t.names ∧ t.calculate.LaidOut
      ∧ ∀ limit, 24 * t.calculate.size ≤ limit →
        layoutWithin limit 0 t.names = some t.calculate.contents := by
  refine ⟨names_calculate t, laidOut_calculate t, fun limit hlimit => ?_⟩
  rw [size_calculate, size_eq] at hlimit
  rw [contents_calculate]
  exact layoutWithin_eq (by rwa [Nat.zero_add])

end OffsetTable

end SimAnnotate
