import Mathlib.Data.Prod.Lex
import Mathlib.Order.WellFounded
import SimAnnotate.Proofs.Wiring
import SimAnnotate.Proofs.Wiring.FirstMatch

/-!
# More labels, earlier bindings

A binding that matches some labels matches all labels that include them. So a group that
gets more labels is wired to the binding that it was wired to, or to one before it
(`FirstAt.mono`), and a group that is not wired with its labels is not with fewer. The
order of labels and selectors does not matter at all.
-/

namespace SimAnnotate

/-- All pairs of `l` are among those of `l'`. -/
def Labels.IncludedIn (l l' : Labels) : Prop :=
  ∀ key value, l.get? key = some value → l'.get? key = some value

namespace Wiring

/-- Where a binding stands: which instance of the Stack has it, and which of the
instance's channels it is. The instance counts first. -/
abbrev Position := ℕ ×ₗ ℕ

/-- The binding at a position matches and names a channel. -/
def OffersAt (models : List Document) (labels : Labels) (s : Stack) (p : Position)
    (name : String) : Prop :=
  ∃ i ch, s.instances[(ofLex p).1]? = some i ∧ i.channelList[(ofLex p).2]? = some ch
    ∧ Offers models labels i ch name

/-- The binding at a position is the first that does. -/
def FirstAt (models : List Document) (labels : Labels) (s : Stack) (p : Position)
    (name : String) : Prop :=
  OffersAt models labels s p name ∧ ∀ q < p, ∀ n, ¬ OffersAt models labels s q n

variable {models : List Document} {labels labels' : Labels} {s : Stack}

/-! ## Positions -/

theorem FirstAt.first {p : Position} {name : String} (h : FirstAt models labels s p name) :
    First models labels s.instances name := by
  obtain ⟨⟨i, ch, hi, hch, hoffers⟩, hnone⟩ := h
  obtain ⟨hlt, hi'⟩ := List.getElem?_eq_some_iff.mp hi
  obtain ⟨hlt', hch'⟩ := List.getElem?_eq_some_iff.mp hch
  refine ⟨s.instances.take (ofLex p).1, i, s.instances.drop ((ofLex p).1 + 1),
    i.channelList.take (ofLex p).2, ch, i.channelList.drop ((ofLex p).2 + 1), ?_, ?_, hoffers,
    ?_, ?_⟩
  · rw [← hi', ← List.drop_eq_getElem_cons hlt, List.take_append_drop]
  · rw [← hch', ← List.drop_eq_getElem_cons hlt', List.take_append_drop]
  · -- an earlier channel of the same instance
    intro c hc n hn
    obtain ⟨k, hk, hget⟩ := List.mem_take_iff_getElem.mp hc
    have hbefore : toLex ((ofLex p).1, k) < p :=
      Prod.Lex.lt_iff.mpr (.inr ⟨rfl, (Nat.lt_min.mp hk).1⟩)
    exact hnone _ hbefore n ⟨i, c, hi, List.getElem?_eq_some_iff.mpr ⟨_, hget⟩, hn⟩
  · -- any channel of an earlier instance
    intro j hj c hc n hn
    obtain ⟨k, hk, hget⟩ := List.mem_take_iff_getElem.mp hj
    obtain ⟨k', hget'⟩ := List.mem_iff_getElem?.mp hc
    have hbefore : toLex (k, k') < p := Prod.Lex.lt_iff.mpr (.inl (Nat.lt_min.mp hk).1)
    exact hnone _ hbefore n ⟨j, c, List.getElem?_eq_some_iff.mpr ⟨_, hget⟩, hget', hn⟩

theorem exists_firstAt {name : String} (h : First models labels s.instances name) :
    ∃ p, FirstAt models labels s p name := by
  obtain ⟨before, i, after, front, ch, back, hinstances, hchannels, hoffers, hfront, hbefore⟩ := h
  have hi : s.instances[before.length]? = some i := by
    rw [hinstances, List.getElem?_append_right (Nat.le_refl _), Nat.sub_self]
    rfl
  have hch : i.channelList[front.length]? = some ch := by
    rw [hchannels, List.getElem?_append_right (Nat.le_refl _), Nat.sub_self]
    rfl
  refine ⟨toLex (before.length, front.length), ⟨i, ch, hi, hch, hoffers⟩, ?_⟩
  rintro q hq n ⟨j, c, hj, hc, hn⟩
  rcases Prod.Lex.lt_iff.mp hq with hlt | ⟨heq, hlt⟩
  · rw [hinstances, List.getElem?_append_left hlt] at hj
    exact hbefore j (List.mem_of_getElem? hj) c (List.mem_of_getElem? hc) n hn
  · have hj' : j = i := Option.some.inj (hj.symm.trans ((congrArg _ heq).trans hi))
    rw [hj', hchannels, List.getElem?_append_left hlt] at hc
    exact hfront c (List.mem_of_getElem? hc) n (hj' ▸ hn)

theorem first_iff {name : String} :
    First models labels s.instances name ↔ ∃ p, FirstAt models labels s p name :=
  ⟨exists_firstAt, fun ⟨_, h⟩ => h.first⟩

/-! ## More labels -/

theorem Offers.mono (h : labels.IncludedIn labels') {i : ModelInstance} {ch : Channel}
    {name : String} (hoffers : Offers models labels i ch name) :
    Offers models labels' i ch name := by
  obtain ⟨hbus, ⟨l, hbrings, hholds⟩, hname⟩ := hoffers
  exact ⟨hbus, ⟨l, hbrings, fun key value hl => h key value (hholds key value hl)⟩, hname⟩

theorem OffersAt.mono (h : labels.IncludedIn labels') {p : Position} {name : String}
    (hp : OffersAt models labels s p name) : OffersAt models labels' s p name := by
  obtain ⟨i, ch, hi, hch, hoffers⟩ := hp
  exact ⟨i, ch, hi, hch, hoffers.mono h⟩

/-- Where a binding offers a channel, there is a first one that does. -/
theorem exists_firstAt_le {p : Position} {name : String} (h : OffersAt models labels s p name) :
    ∃ q ≤ p, ∃ n, FirstAt models labels s q n := by
  obtain ⟨q, ⟨n, hq⟩, hmin⟩ := wellFounded_lt.has_min
    {q : Position | ∃ n, OffersAt models labels s q n} ⟨p, name, h⟩
  have hfirst : FirstAt models labels s q n := by
    refine ⟨hq, ?_⟩
    intro q' hlt n' hn'
    exact hmin q' ⟨n', hn'⟩ hlt
  exact ⟨q, not_lt.mp (hmin p ⟨name, h⟩), n, hfirst⟩

theorem FirstAt.mono (h : labels.IncludedIn labels') {p : Position} {name : String}
    (hp : FirstAt models labels s p name) : ∃ q ≤ p, ∃ n, FirstAt models labels' s q n :=
  exists_firstAt_le (hp.1.mono h)

/-! ## Monotonicity -/

variable {c : Catalog} {d : Document}

theorem channel_eq_ok_iff (h : OnlyStack c s) {name : String} : channel c d = .ok name ↔
    ∃ p, FirstAt (c.documents .model) d.metadata.labels s p name := by
  rw [channel_eq_ok h, first_iff]

theorem channel_alike {c' : Catalog} {d' : Document}
    (hstack : List.Forall₂ Document.Alike (c.documents .stack) (c'.documents .stack))
    (hmodels : List.Forall₂ Document.Alike (c.documents .model) (c'.documents .model))
    (hd : d.Alike d') : channel c' d' = channel c d := by
  rw [channel, channel, channel?_alike hstack hmodels hd.labels, hd.name]

/-- With one Stack, a group is wired to the channel of the first binding that matches and
names one. With labels that include its own it is wired to that binding or to one before
it; a group that is not wired is not with labels that its own include. Labels and selectors
can be in any order. -/
theorem channel_monotone (ops : List Catalog.Operation) (s : Stack)
    (hs : OnlyStack (Catalog.ofOperations ops) s) (d : Document) :
    let c := Catalog.ofOperations ops
    let models := c.documents .model
    let labels := d.metadata.labels
    (∀ name, channel c d = .ok name ↔ ∃ p, FirstAt models labels s p name)
      ∧ (∀ p name labels', FirstAt models labels s p name → labels.IncludedIn labels' →
        ∃ q ≤ p, ∃ name', FirstAt models labels' s q name'
          ∧ channel c (d.withLabels labels') = .ok name')
      ∧ (∀ labels', channel c d = .error (.notFound (.channel d.name)) →
        Labels.IncludedIn labels' labels →
          channel c (d.withLabels labels') = .error (.notFound (.channel d.name)))
      ∧ ∀ c' d', List.Forall₂ Document.Alike (c.documents .stack) (c'.documents .stack) →
        List.Forall₂ Document.Alike (c.documents .model) (c'.documents .model) →
          d.Alike d' → channel c' d' = channel c d := by
  intro c models labels
  refine ⟨?_, ?_, ?_, ?_⟩
  · intro name
    exact channel_eq_ok_iff hs
  · intro p name labels' hp hincluded
    obtain ⟨q, hle, name', hq⟩ := hp.mono hincluded
    exact ⟨q, hle, name', hq, (channel_eq_ok_iff hs).mpr ⟨q, hq⟩⟩
  · intro labels' herror hincluded
    obtain ⟨-, hnone⟩ := (channel_eq_error hs).mp herror
    refine (channel_eq_error hs).mpr ⟨rfl, ?_⟩
    intro i hi ch hch name hoffers
    exact hnone i hi ch hch name (hoffers.mono hincluded)
  · intro c' d' hstack hmodels hd
    exact channel_alike hstack hmodels hd

namespace Sample

/-- A Stack that wires groups of one side, those with all labels of `narrow` first. -/
def sides (narrow : Labels) : Stack :=
  ⟨some [⟨"first", default, some [⟨some "narrow", none, some narrow, ∅⟩], ∅⟩,
    ⟨"second", default, some [⟨some "wide", none, some (.ofList [("side", "p")]), ∅⟩], ∅⟩], ∅⟩

def operations (narrow : Labels) : List Catalog.Operation :=
  [.insert ⟨"s.yml"⟩ [⟨⟨"s", ∅, ∅⟩, .stack (sides narrow), none⟩]]

def group (labels : Labels) : Document := ⟨⟨"g", labels, ∅⟩, .signalGroup ⟨[], ∅⟩, none⟩

def side : Labels := .ofList [("side", "p")]

def zone : Labels := .ofList [("zone", "z")]

def sideFirst : Labels := .ofList [("side", "p"), ("zone", "z")]

def zoneFirst : Labels := .ofList [("zone", "z"), ("side", "p")]

theorem alike : sideFirst.Alike zoneFirst := .swap _ _ _

theorem alike_stacks : List.Forall₂ Document.Alike
    ((Catalog.ofOperations (operations sideFirst)).documents .stack)
    ((Catalog.ofOperations (operations zoneFirst)).documents .stack) := by
  refine .cons ⟨rfl, .refl _, .stack (.cons ⟨rfl, rfl, ?_⟩ (.cons ⟨rfl, rfl, ?_⟩ .nil))⟩ .nil
  · exact .cons ⟨rfl, rfl, .some alike⟩ .nil
  · exact .cons ⟨rfl, rfl, .some (.refl _)⟩ .nil

end Sample

theorem channel_monotone_sample :
    let c := Catalog.ofOperations (Sample.operations Sample.sideFirst)
    let s := Sample.sides Sample.sideFirst
    (∃ p, FirstAt [] Sample.side s p "wide"
        ∧ ∃ q ≤ p, ∃ name, FirstAt [] Sample.sideFirst s q name
          ∧ channel c (Sample.group Sample.sideFirst) = .ok name)
      ∧ channel c (Sample.group ∅) = .error (.notFound (.channel "g"))
      ∧ channel (Catalog.ofOperations (Sample.operations Sample.zoneFirst))
          (Sample.group Sample.zoneFirst) = .ok "narrow" := by
  intro c s
  have hs : OnlyStack c s := ⟨_, rfl, rfl⟩
  have hmonotone := channel_monotone (Sample.operations Sample.sideFirst) s hs
  obtain ⟨hwired, hmore, -, -⟩ := hmonotone (Sample.group Sample.side)
  obtain ⟨-, -, hfewer, -⟩ := hmonotone (Sample.group Sample.zone)
  obtain ⟨-, -, -, halike⟩ := hmonotone (Sample.group Sample.sideFirst)
  refine ⟨?_, hfewer ∅ (by decide) fun key value hkey => ?_, ?_⟩
  · obtain ⟨p, hp⟩ := (hwired "wide").mp (by decide)
    have hincluded : Sample.side.IncludedIn Sample.sideFirst := within_iff.mp (by decide)
    exact ⟨p, hp, hmore p "wide" Sample.sideFirst hp hincluded⟩
  · cases hkey
  · have hgroups : (Sample.group Sample.sideFirst).Alike (Sample.group Sample.zoneFirst) :=
      ⟨rfl, Sample.alike, .signalGroup _ _⟩
    rw [halike _ _ Sample.alike_stacks .nil hgroups]
    decide

end Wiring

end SimAnnotate
