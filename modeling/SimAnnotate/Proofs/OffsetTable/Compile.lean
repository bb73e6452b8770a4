import SimAnnotate.Proofs.OffsetTable.History
import SimAnnotate.Proofs.Wiring.FirstMatch

/-!
# What a compiled table holds

Compiling takes the documents of a list one after the other. `wire?` says what a
document brings, nothing unless it is a signal group that is wired to a channel;
with one Stack the table is the one of all that is brought, laid out in the order in
which it comes first (`compile_of_onlyStack`). Without one Stack the first signal
group of the list ends the walk (`foldlM_of_length_ne`).
-/

namespace SimAnnotate

namespace OffsetTable

/-- The channel of a wired signal group with the names of the group's signals. -/
def wire? (c : Catalog) (d : Document) : Option (String × List String) :=
  d.signalGroup?.bind fun g =>
    (Wiring.channel c d).toOption.map fun channel => (channel, g.signals.map (·.name))

/-- What the documents of a list bring, in order. -/
def wired (c : Catalog) (ds : List Document) : List (String × List String) :=
  ds.filterMap (wire? c)

/-- The channels that are brought, each where it comes first. -/
def wiredChannels (c : Catalog) (ds : List Document) : List String :=
  ((wired c ds).map Prod.fst).eraseDups

/-- The signals that are brought to a channel, each where it comes first. -/
def wiredSignals (c : Catalog) (ds : List Document) (channel : String) : List String :=
  (((wired c ds).filter (·.1 = channel)).flatMap Prod.snd).eraseDups

variable {c : Catalog} {s : Stack}

/-! ## One document -/

/-- Adding what a document brings. -/
def addWire (t : OffsetTable) (w : String × List String) : OffsetTable :=
  t.addAll w.1 w.2

theorem toOption_channel {d : Document} {channel? : Option String}
    (h : Wiring.channel? c d = .ok channel?) : (Wiring.channel c d).toOption = channel? := by
  rw [Wiring.channel, h]
  cases channel? <;> rfl

/-- With one Stack every document can be added, and adds what it brings. -/
theorem addDocument_of_onlyStack (hs : Wiring.OnlyStack c s) (t : OffsetTable)
    (d : Document) : addDocument c t d = .ok ((wire? c d).elim t t.addWire) := by
  obtain ⟨stackDoc, hdocs, -⟩ := hs
  have hstack : c.stackDocument = .ok stackDoc := by rw [Catalog.stackDocument, hdocs]
  obtain ⟨channel?, hchannel⟩ := Wiring.exists_channel? ⟨stackDoc, hstack⟩ d
  unfold addDocument
  rw [wire?, toOption_channel hchannel, hchannel]
  cases d.signalGroup? with
  | none => rfl
  | some g => cases channel? <;> rfl

/-- Without one Stack no signal group can be added. -/
theorem addDocument_of_length_ne (h : (c.documents .stack).length ≠ 1) (t : OffsetTable)
    (d : Document) : addDocument c t d =
      if d.signalGroup?.isSome then .error (.stackCount (c.documents .stack).length)
      else .ok t := by
  unfold addDocument
  rw [Wiring.channel?_of_length_ne h]
  cases d.signalGroup? <;> rfl

/-! ## A list of documents -/

theorem foldlM_of_onlyStack (hs : Wiring.OnlyStack c s) (ds : List Document)
    (t : OffsetTable) :
    ds.foldlM (addDocument c) t = .ok ((wired c ds).foldl addWire t) := by
  induction ds generalizing t with
  | nil => rfl
  | cons d rest ih =>
      rw [List.foldlM_cons, addDocument_of_onlyStack hs, Except.ok_bind, ih, wired,
        wired, List.filterMap_cons]
      cases wire? c d <;> rfl

theorem foldlM_of_length_ne (h : (c.documents .stack).length ≠ 1) (ds : List Document)
    (t : OffsetTable) : ds.foldlM (addDocument c) t =
      if ∃ d ∈ ds, d.signalGroup?.isSome then
        .error (.stackCount (c.documents .stack).length)
      else .ok t := by
  induction ds with
  | nil => rw [if_neg (by simp)]; rfl
  | cons d rest ih =>
      rw [List.foldlM_cons, addDocument_of_length_ne h]
      by_cases hd : d.signalGroup?.isSome
      · rw [if_pos hd, if_pos ⟨d, List.mem_cons_self, hd⟩, Except.error_bind]
      · rw [if_neg hd, Except.ok_bind, ih]
        simp only [List.mem_cons, exists_eq_or_imp, hd, Bool.false_eq_true, false_or]

/-- With one Stack compiling is a batch of what the documents bring. -/
theorem compile_of_onlyStack (hs : Wiring.OnlyStack c s) (ds : List Document) :
    compile c ds = .ok (batch (wired c ds)) := by
  rw [compile, foldlM_of_onlyStack hs]
  rfl

/-- What brings nothing can be left out. -/
theorem wired_filter (ds : List Document) :
    wired c (ds.filter fun d => (wire? c d).isSome) = wired c ds := by
  rw [wired, wired, List.filterMap_filter]
  refine List.filterMap_congr fun d _ => ?_
  cases wire? c d <;> rfl

/-! ## The table of a batch -/

theorem flatMap_filter (lists : List (String × List String)) (channel : String) :
    (lists.filter (·.1 = channel)).flatMap Prod.snd
      = lists.flatMap fun l => if l.1 = channel then l.2 else [] := by
  induction lists with
  | nil => rfl
  | cons l rest ih =>
      rw [List.filter_cons, List.flatMap_cons, ← ih]
      by_cases h : l.1 = channel <;> simp [h]

/-- A batch holds the channels and signals of its lists. -/
theorem records_batch (lists : List (String × List String)) :
    Records (lists.map Prod.fst)
      (fun channel => (lists.filter (·.1 = channel)).flatMap Prod.snd) (batch lists) := by
  have hrecords := records_calculate
    (records_ofOperations (lists.map fun l => .addAll l.1 l.2))
  rw [← batch_eq] at hrecords
  refine ⟨hrecords.channels.trans ?_, fun channel => (hrecords.signals channel).trans ?_⟩
  · rw [List.filterMap_map]
    exact congrArg List.eraseDups (congrFun List.filterMap_eq_map' lists)
  · rw [List.flatMap_map, flatMap_filter]
    rfl

/-- What a list brings, laid out. -/
def wiredLayout (c : Catalog) (ds : List Document) : List Entry :=
  layout 0 ((wiredChannels c ds).map fun channel => (channel, wiredSignals c ds channel))

theorem contents_batch_wired (ds : List Document) :
    (batch (wired c ds)).contents = wiredLayout c ds := by
  have hplaced : (batch (wired c ds)).calculate = batch (wired c ds) := by
    rw [batch_eq]
    exact calculate_congr (names_calculate _)
  rw [← hplaced, contents_calculate, names_of_records (records_batch _)]
  rfl

/-! ## Compiling -/

/-- With one Stack every list of documents compiles, to the channels and signals of
the wired groups in the order in which the list has them first, all places set; the
other documents can be left out. Without one Stack a list compiles when it has no
signal group. -/
theorem compile_complete (ops : List Catalog.Operation) (ds : List Document) :
    let c := Catalog.ofOperations ops
    ((c.documents .stack).length = 1 → ∃ t, compile c ds = .ok t
        ∧ t.groups.keys = wiredChannels c ds
        ∧ (∀ channel, t.signalsOf channel = wiredSignals c ds channel)
        ∧ t.contents = wiredLayout c ds
        ∧ compile c (ds.filter fun d => (wire? c d).isSome) = .ok t)
      ∧ ((c.documents .stack).length ≠ 1 →
        (∀ e, compile c ds = .error e ↔
          e = .stackCount (c.documents .stack).length ∧ ∃ d ∈ ds, d.signalGroup?.isSome)
        ∧ ∀ t, compile c ds = .ok t ↔ t = empty ∧ ¬ ∃ d ∈ ds, d.signalGroup?.isSome) := by
  intro c
  refine ⟨fun hlength => ?_, fun hlength => ?_⟩
  · obtain ⟨s, hs⟩ := Wiring.exists_onlyStack (Catalog.refines_ofOperations ops) hlength
    have hrecords := records_batch (wired c ds)
    refine ⟨batch (wired c ds), compile_of_onlyStack hs ds, hrecords.channels,
      hrecords.signals, contents_batch_wired ds, ?_⟩
    rw [compile_of_onlyStack hs, wired_filter]
  · rw [compile, foldlM_of_length_ne hlength]
    -- without one Stack the first signal group is an error
    by_cases hgroup : ∃ d ∈ ds, d.signalGroup?.isSome
    · rw [if_pos hgroup, Except.error_bind]
      refine ⟨fun e => ?_, fun t => iff_of_false (fun h => ?_) fun h => h.2 hgroup⟩
      · rw [Except.error.injEq, eq_comm]
        exact ⟨fun h => ⟨h, hgroup⟩, And.left⟩
      · cases h
    · rw [if_neg hgroup, Except.ok_bind]
      refine ⟨fun e => iff_of_false (fun h => ?_) fun h => hgroup h.2, fun t => ?_⟩
      · cases h
      · change Except.ok empty = Except.ok t ↔ _
        rw [Except.ok.injEq, eq_comm]
        exact ⟨fun h => ⟨h, hgroup⟩, And.left⟩

namespace Sample

def channel (name side : String) : Channel :=
  ⟨some name, none, some (.ofList [("side", side)]), ∅⟩

/-- A Stack that wires two sides. -/
def stack : Stack :=
  ⟨some [⟨"controller", default, some [channel "physical" "p", channel "network" "n"], ∅⟩], ∅⟩

def group (labels : Labels) (signals : List String) : Document :=
  ⟨⟨"g", labels, ∅⟩, .signalGroup ⟨signals.map Signal.ofName, ∅⟩, none⟩

/-- Two groups of one channel around an empty group of another, and two documents that
bring nothing. -/
def list : List Document :=
  [group (.ofList [("side", "p")]) ["a", "b"], group ∅ ["x"],
    group (.ofList [("side", "n")]) [], ⟨⟨"m", ∅, ∅⟩, .model default, none⟩,
    group (.ofList [("side", "p")]) ["b", "c", "a"]]

end Sample

theorem compile_complete_sample :
    (∃ t, compile (Catalog.ofOperations
        [.insert ⟨"s.yml"⟩ [⟨⟨"stack", ∅, ∅⟩, .stack Sample.stack, none⟩]]) Sample.list = .ok t
        ∧ t.contents = [⟨"physical", [("a", ⟨0, 0⟩), ("b", ⟨1, 8⟩), ("c", ⟨2, 16⟩)], 0, 3⟩,
          ⟨"network", [], 3, 0⟩])
      ∧ compile (Catalog.ofOperations []) Sample.list = .error (.stackCount 0) := by
  obtain ⟨hone, -⟩ := compile_complete
    [.insert ⟨"s.yml"⟩ [⟨⟨"stack", ∅, ∅⟩, .stack Sample.stack, none⟩]] Sample.list
  obtain ⟨-, hnone⟩ := compile_complete [] Sample.list
  obtain ⟨t, ht, -, -, hcontents, -⟩ := hone (by decide)
  exact ⟨⟨t, ht, hcontents.trans (by decide)⟩,
    ((hnone (by decide)).1 _).mpr (by decide)⟩

end OffsetTable

end SimAnnotate
