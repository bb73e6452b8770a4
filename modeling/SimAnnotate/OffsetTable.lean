import SimAnnotate.Wiring

/-!
# Offset tables

An offset table gives every signal of every channel a place in memory. A
channel's signals lie one after the other, `valueSize` bytes each, in a region
of `slotSize` bytes for each of its signals; the regions follow each other in
the order in which the channels were first named.

`OffsetTable.calculate` sets all places. Before it a new signal is at zero.
-/

namespace SimAnnotate

/-- The place of a signal: its position in the channel, and its first byte. -/
structure Slot where
  index : Nat
  offset : Nat
deriving DecidableEq

/-- The signals of a channel. `offset` counts the signals of the channels
before it. -/
structure OffsetGroup where
  slots : OrderedMap String Slot
  offset : Nat
  length : Nat
deriving DecidableEq

structure OffsetTable where
  groups : OrderedMap String OffsetGroup
deriving DecidableEq

namespace OffsetGroup

def empty : OffsetGroup := ⟨∅, 0, 0⟩

def contains (g : OffsetGroup) (signal : String) : Bool :=
  g.slots.contains signal

def add (g : OffsetGroup) (signal : String) : OffsetGroup :=
  if g.contains signal then g
  else { g with slots := g.slots.insert signal ⟨0, 0⟩ }

end OffsetGroup

namespace OffsetTable

/-- The bytes that a channel has for each of its signals. -/
def slotSize : Nat := 24

/-- The bytes of a signal's value. -/
def valueSize : Nat := 8

def empty : OffsetTable := ⟨∅⟩

def group? (t : OffsetTable) (channel : String) : Option OffsetGroup :=
  t.groups.get? channel

/-- The table with a channel, if it was not there. -/
def addGroup (t : OffsetTable) (channel : String) : OffsetTable :=
  if t.groups.contains channel then t
  else ⟨t.groups.insert channel .empty⟩

/-- The table with a signal, if it was not there. -/
def add (t : OffsetTable) (channel signal : String) : OffsetTable :=
  let g := (t.group? channel).getD .empty
  ⟨t.groups.insert channel (g.add signal)⟩

/-- The table with several signals of one channel. -/
def addAll (t : OffsetTable) (channel : String) (signals : List String) :
    OffsetTable :=
  signals.foldl (·.add channel ·) (t.addGroup channel)

/-! ## Places -/

/-- Slots in order, the first at position `i` of a region at `base`. -/
def placeSlots (base : Nat) : Nat → List (String × Slot) →
    List (String × Slot)
  | _, [] => []
  | i, (name, _) :: rest =>
      (name, ⟨i, base + i * valueSize⟩) :: placeSlots base (i + 1) rest

theorem map_fst_placeSlots (base i : Nat) (ss : List (String × Slot)) :
    (placeSlots base i ss).map Prod.fst = ss.map Prod.fst := by
  induction ss generalizing i with
  | nil => rfl
  | cons s rest ih => simp [placeSlots, ih]

/-- A channel with `before` signals in the channels before it. -/
def placeGroup (before : Nat) (g : OffsetGroup) : OffsetGroup :=
  ⟨⟨placeSlots (before * slotSize) 0 g.slots.entries, by
      rw [map_fst_placeSlots]
      exact g.slots.nodup⟩,
    before, g.slots.size⟩

/-- Channels in order, `before` signals before the first. -/
def placeGroups : Nat → List (String × OffsetGroup) →
    List (String × OffsetGroup)
  | _, [] => []
  | before, (name, g) :: rest =>
      (name, placeGroup before g)
        :: placeGroups (before + g.slots.size) rest

theorem map_fst_placeGroups (before : Nat) (gs : List (String × OffsetGroup)) :
    (placeGroups before gs).map Prod.fst = gs.map Prod.fst := by
  induction gs generalizing before with
  | nil => rfl
  | cons g rest ih => simp [placeGroups, ih]

/-- The table with all places set. -/
def calculate (t : OffsetTable) : OffsetTable :=
  ⟨⟨placeGroups 0 t.groups.entries, by
      rw [map_fst_placeGroups]
      exact t.groups.nodup⟩⟩

/-- The first byte of a signal. -/
def lookup (t : OffsetTable) (channel signal : String) : Option Nat := do
  let g ← t.group? channel
  let s ← g.slots.get? signal
  return s.offset

/-! ## Compiling -/

/-- Adds the signals of one document that is a wired signal group. -/
def addDocument (c : Catalog) (t : OffsetTable) (d : Document) :
    Except Error OffsetTable :=
  match d.signalGroup? with
  | none => .ok t
  | some g => do
      match ← Wiring.channel? c d with
      | some channel => return t.addAll channel (g.signals.map (·.name))
      | none => return t

/-- The table of the signals of all wired groups among the documents. -/
def compile (c : Catalog) (ds : List Document) : Except Error OffsetTable := do
  return (← ds.foldlM (addDocument c) empty).calculate

/-- What is to be said about one document. -/
def documentWarnings (c : Catalog) (d : Document) : List Warning :=
  match d.signalGroup?, Wiring.channel? c d with
  | some _, .ok none =>
      Wiring.warnings c d ++ [.unwired d.name (.channel d.name)]
  | some _, .ok (some _) => Wiring.warnings c d
  | _, _ => []

def compileWarnings (c : Catalog) (ds : List Document) : List Warning :=
  ds.flatMap (documentWarnings c)

end OffsetTable

end SimAnnotate
