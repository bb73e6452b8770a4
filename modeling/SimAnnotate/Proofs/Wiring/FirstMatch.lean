import SimAnnotate.Proofs.Catalog.Refinement

/-!
# The first binding that matches

What the wiring of a group ought to be, said without computing it. `Brings` says
which selectors a binding has, its own or those that its model declares under its
alias, `Matches` that a group's labels hold all of them, and `First` that a channel
is named by the first binding of a Stack that matches and names one.

`channel_correct` says that wiring gives just this, fails otherwise, and does not
look at the bus.
-/

namespace List

universe u v

variable {α β : Type u} {γ : Type v}

theorem findSome?_filter (xs : List α) (p : α → Bool) (f : α → Option γ) :
    (xs.filter p).findSome? f = xs.findSome? fun a => if p a then f a else none := by
  induction xs with
  | nil => rfl
  | cons a rest ih =>
      cases ha : p a with
      | true => rw [filter_cons_of_pos ha, findSome?_cons, findSome?_cons, ih, ha, if_pos rfl]
      | false =>
          rw [filter_cons_of_neg (by simp [ha]), ih, findSome?_cons, ha,
            if_neg Bool.false_ne_true]

theorem findSome?_flatMap (xs : List α) (g : α → List β) (f : β → Option γ) :
    (xs.flatMap g).findSome? f = xs.findSome? fun a => (g a).findSome? f := by
  induction xs with
  | nil => rfl
  | cons a rest ih =>
      rw [flatMap_cons, findSome?_append, findSome?_cons, ih]
      cases (g a).findSome? f <;> rfl

end List

namespace SimAnnotate

/-- The document with a Stack that has no bus. -/
def Document.withoutBus (d : Document) : Document :=
  match d.spec with
  | .stack s =>
      { d with
        spec := .stack
          { s with models := s.models.map fun is => is.filter (!·.isBus) } }
  | _ => d

namespace Wiring

/-! ## The rule -/

/-- The channel has selectors, and `l` are these. -/
def Selects (ch : Channel) (l : Labels) : Prop := ch.selectors = some l ∧ l ≠ ∅

/-- The selectors of the binding `ch` of the instance `i`. -/
inductive Brings (models : List Document) (i : ModelInstance) (ch : Channel) :
    Labels → Prop where
  | own {l : Labels} (selects : Selects ch l) : Brings models i ch l
  /-- A binding without selectors of its own has those of the first channel with its
  alias that has any, in the first model that the instance may mean. -/
  | declared {l : Labels} {aliasName : String} {before after : List Document}
      {d : Document} {m : Model} {front back : List Channel} {declaration : Channel}
      (none_own : ∀ l, ¬ Selects ch l)
      (has_alias : ch.aliasName = some aliasName)
      (models_eq : models = before ++ d :: after)
      (none_before : ∀ e ∈ before, e.name ≠ i.model.name)
      (name_eq : d.name = i.model.name)
      (spec_eq : d.spec = .model m)
      (channels_eq : m.channelList = front ++ declaration :: back)
      (none_front : ∀ c ∈ front, c.aliasName = some aliasName → ∀ l, ¬ Selects c l)
      (alias_eq : declaration.aliasName = some aliasName)
      (selects : Selects declaration l) : Brings models i ch l

/-- The labels hold all selectors of the binding, with the same values. -/
def Matches (models : List Document) (labels : Labels) (i : ModelInstance)
    (ch : Channel) : Prop :=
  ∃ l, Brings models i ch l
    ∧ ∀ key value, l.get? key = some value → labels.get? key = some value

/-- The binding is not one of the bus, matches, and names the channel. -/
def Offers (models : List Document) (labels : Labels) (i : ModelInstance)
    (ch : Channel) (name : String) : Prop :=
  i.name ≠ "simbus" ∧ Matches models labels i ch ∧ ch.name = some name

/-- The channel that the first binding offers which offers any: the instances
before have no such binding, nor has the instance itself in front. -/
def First (models : List Document) (labels : Labels) (instances : List ModelInstance)
    (name : String) : Prop :=
  ∃ before i after front ch back, instances = before ++ i :: after
    ∧ i.channelList = front ++ ch :: back
    ∧ Offers models labels i ch name
    ∧ (∀ c ∈ front, ∀ n, ¬ Offers models labels i c n)
    ∧ ∀ j ∈ before, ∀ c ∈ j.channelList, ∀ n, ¬ Offers models labels j c n

/-! ## Selectors -/

variable {models : List Document} {labels : Labels}

theorem selectors?_eq_some {ch : Channel} {l : Labels} :
    ch.selectors? = some l ↔ Selects ch l := by
  rw [Channel.selectors?, Option.filter_eq_some_iff, Selects, Bool.not_eq_true',
    ← Bool.not_eq_true, OrderedMap.isEmpty_iff]

theorem selectors?_eq_none {ch : Channel} :
    ch.selectors? = none ↔ ∀ l, ¬ Selects ch l := by
  simp only [← selectors?_eq_some, Option.eq_none_iff_forall_ne_some, ne_eq]

theorem declared?_eq_some {m : Model} {aliasName : String} {l : Labels} :
    declared? m aliasName = some l ↔ ∃ front declaration back,
      m.channelList = front ++ declaration :: back
        ∧ (∀ c ∈ front, c.aliasName = some aliasName → ∀ l, ¬ Selects c l)
        ∧ declaration.aliasName = some aliasName ∧ Selects declaration l := by
  -- a channel ends the search when it has the alias and selectors
  have hif : ∀ c : Channel, (if c.aliasName == some aliasName then c.selectors? else none)
      = some l ↔ c.aliasName = some aliasName ∧ Selects c l := by
    intro c
    rw [← selectors?_eq_some]
    split <;> simp_all
  have hnone : ∀ c : Channel, (if c.aliasName == some aliasName then c.selectors? else none)
      = none ↔ (c.aliasName = some aliasName → ∀ l, ¬ Selects c l) := by
    intro c
    rw [← selectors?_eq_none]
    split <;> simp_all
  rw [declared?, List.findSome?_filter, List.findSome?_eq_some_iff]
  simp only [hif, hnone]
  constructor
  · rintro ⟨front, c, back, hsplit, hc, hfront⟩
    exact ⟨front, c, back, hsplit, hfront, hc⟩
  · rintro ⟨front, c, back, hsplit, hfront, hc⟩
    exact ⟨front, c, back, hsplit, hc, hfront⟩

/-- The selectors that a binding without its own takes from its model. -/
theorem selectors?_of_none_own {b : Binding} (hown : b.channel.selectors? = none) :
    selectors? models b = b.channel.aliasName.bind fun aliasName =>
      ((models.find? (·.name == b.inst.model.name)).bind Document.model?).bind
        (declared? · aliasName) := by
  unfold selectors?
  rw [hown, Option.none_or]
  cases b.channel.aliasName with
  | none => rfl
  | some aliasName => cases models.find? (·.name == b.inst.model.name) <;> rfl

theorem find?_bind_model?_eq_some {name : String} {m : Model} :
    (models.find? (·.name == name)).bind Document.model? = some m ↔
      ∃ before d after, models = before ++ d :: after ∧ (∀ e ∈ before, e.name ≠ name)
        ∧ d.name = name ∧ d.spec = .model m := by
  have hspec : ∀ d : Document, d.model? = some m ↔ d.spec = .model m := by
    intro d
    unfold Document.model?
    cases d.spec <;> simp
  simp only [Option.bind_eq_some_iff, List.find?_eq_some_iff_append, hspec, beq_iff_eq,
    Bool.not_eq_true', beq_eq_false_iff_ne]
  constructor
  · rintro ⟨d, ⟨hname, before, after, hsplit, hbefore⟩, hm⟩
    exact ⟨before, d, after, hsplit, hbefore, hname, hm⟩
  · rintro ⟨before, d, after, hsplit, hbefore, hname, hm⟩
    exact ⟨d, ⟨hname, before, after, hsplit, hbefore⟩, hm⟩

/-- A binding has the selectors that it brings. -/
theorem selectors?_eq_some_iff {b : Binding} {l : Labels} :
    selectors? models b = some l ↔ Brings models b.inst b.channel l := by
  cases hown : b.channel.selectors? with
  | some own =>
      -- its own selectors count, whatever the model declares
      have hselects := selectors?_eq_some.mp hown
      have hsome : selectors? models b = some own := by
        unfold selectors?
        rw [hown, Option.some_or]
      rw [hsome, Option.some.injEq]
      constructor
      · rintro rfl
        exact .own hselects
      · intro h
        cases h with
        | own h => exact Option.some.inj (hown.symm.trans (selectors?_eq_some.mpr h))
        | declared none_own => exact absurd hselects (none_own own)
  | none =>
      -- without them the first model of the name is asked for the alias
      have hnone := selectors?_eq_none.mp hown
      rw [selectors?_of_none_own hown, Option.bind_eq_some_iff]
      have hbrought : ∀ aliasName,
          ((models.find? (·.name == b.inst.model.name)).bind Document.model?).bind
              (declared? · aliasName) = some l ↔ ∃ m,
            (∃ before d after, models = before ++ d :: after
              ∧ (∀ e ∈ before, e.name ≠ b.inst.model.name)
              ∧ d.name = b.inst.model.name ∧ d.spec = .model m)
            ∧ ∃ front declaration back, m.channelList = front ++ declaration :: back
              ∧ (∀ c ∈ front, c.aliasName = some aliasName → ∀ l, ¬ Selects c l)
              ∧ declaration.aliasName = some aliasName ∧ Selects declaration l := by
        intro aliasName
        rw [Option.bind_eq_some_iff]
        simp only [find?_bind_model?_eq_some, declared?_eq_some]
      simp only [hbrought]
      constructor
      · rintro ⟨aliasName, halias, m, ⟨before, d, after, hmodels, hbefore, hname, hm⟩,
          front, declaration, back, hchannels, hfront, hdeclared, hl⟩
        exact .declared hnone halias hmodels hbefore hname hm hchannels hfront hdeclared hl
      · intro h
        cases h with
        | own h => exact absurd h (hnone l)
        | declared _ halias hmodels hbefore hname hm hchannels hfront hdeclared hl =>
            exact ⟨_, halias, _, ⟨_, _, _, hmodels, hbefore, hname, hm⟩, _, _, _,
              hchannels, hfront, hdeclared, hl⟩

/-! ## Matching -/

theorem within_iff {l : Labels} :
    l.within labels = true ↔
      ∀ key value, l.get? key = some value → labels.get? key = some value := by
  rw [Labels.within, List.all_eq_true]
  constructor
  · intro h key value hvalue
    exact beq_iff_eq.mp (h (key, value) (OrderedMap.mem_entries_iff.mpr hvalue))
  · intro h e he
    exact beq_iff_eq.mpr (h e.1 e.2 (OrderedMap.mem_entries_iff.mp he))

theorem accepts_iff {b : Binding} :
    accepts models labels b = true ↔ Matches models labels b.inst b.channel := by
  rw [accepts, Option.any_eq_true]
  simp only [selectors?_eq_some_iff, within_iff]
  rfl

/-- What a binding offers, if anything. -/
def offer? (models : List Document) (labels : Labels) (i : ModelInstance)
    (ch : Channel) : Option String :=
  if i.isBus then none
  else if accepts models labels ⟨i, ch⟩ then ch.name else none

theorem offer?_eq_some {i : ModelInstance} {ch : Channel} {name : String} :
    offer? models labels i ch = some name ↔ Offers models labels i ch name := by
  unfold offer? Offers
  rw [← accepts_iff (b := ⟨i, ch⟩), ModelInstance.isBus]
  by_cases hbus : i.name = ModelInstance.busName
  · rw [if_pos (beq_iff_eq.mpr hbus)]
    exact iff_of_false nofun fun h => h.1 hbus
  · rw [if_neg (by simpa using hbus)]
    split
    · next haccepts => exact ⟨fun h => ⟨hbus, haccepts, h⟩, fun h => h.2.2⟩
    · next haccepts => exact iff_of_false nofun fun h => haccepts h.2.1

theorem offer?_eq_none {i : ModelInstance} {ch : Channel} :
    offer? models labels i ch = none ↔ ∀ name, ¬ Offers models labels i ch name := by
  simp only [← offer?_eq_some, Option.eq_none_iff_forall_ne_some, ne_eq]

/-- The channel that is taken, instance by instance. -/
theorem findSome?_accepting (s : Stack) :
    (accepting models s labels).findSome? (·.channel.name)
      = s.instances.findSome? fun i => i.channelList.findSome? (offer? models labels i) := by
  rw [accepting, bindings, List.findSome?_filter, List.findSome?_flatMap,
    List.findSome?_filter]
  congr 1
  funext i
  rw [List.findSome?_map]
  unfold offer?
  cases i.isBus with
  | true => exact (List.findSome?_eq_none_iff.mpr fun _ _ => rfl).symm
  | false => rfl

theorem findSome?_accepting_eq_some {s : Stack} {name : String} :
    (accepting models s labels).findSome? (·.channel.name) = some name ↔
      First models labels s.instances name := by
  rw [findSome?_accepting, List.findSome?_eq_some_iff]
  simp only [List.findSome?_eq_some_iff, List.findSome?_eq_none_iff, offer?_eq_some,
    offer?_eq_none]
  constructor
  · rintro ⟨before, i, after, hsplit, ⟨front, ch, back, hchannels, hoffer, hfront⟩, hbefore⟩
    exact ⟨before, i, after, front, ch, back, hsplit, hchannels, hoffer, hfront, hbefore⟩
  · rintro ⟨before, i, after, front, ch, back, hsplit, hchannels, hoffer, hfront, hbefore⟩
    exact ⟨before, i, after, hsplit, ⟨front, ch, back, hchannels, hoffer, hfront⟩, hbefore⟩

theorem findSome?_accepting_eq_none {s : Stack} :
    (accepting models s labels).findSome? (·.channel.name) = none ↔
      ∀ i ∈ s.instances, ∀ ch ∈ i.channelList, ∀ name, ¬ Offers models labels i ch name := by
  simp only [findSome?_accepting, List.findSome?_eq_none_iff, offer?_eq_none]

/-! ## The channel of a group -/

/-- The catalog has one Stack, and it is `s`. -/
def OnlyStack (c : Catalog) (s : Stack) : Prop :=
  ∃ d, c.documents .stack = [d] ∧ d.spec = .stack s

variable {c : Catalog} {s : Stack}

theorem channel_of_onlyStack (h : OnlyStack c s) (d : Document) :
    channel c d = match (accepting (c.documents .model) s d.metadata.labels).findSome?
        (·.channel.name) with
      | some name => .ok name
      | none => .error (.notFound (.channel d.name)) := by
  obtain ⟨stackDoc, hdocs, hs⟩ := h
  have hstack : stack c = .ok s := by
    rw [stack, Catalog.stackDocument, hdocs]
    change Except.ok (stackDoc.stack?.getD default) = _
    rw [Document.stack?, hs]
    rfl
  unfold channel channel? candidates
  rw [hstack]
  change (match (accepting (c.documents .model) s d.metadata.labels).findSome?
    (·.channel.name) with
      | some name => pure name
      | none => throw (Error.notFound (.channel d.name)) : Except Error String) = _
  cases (accepting (c.documents .model) s d.metadata.labels).findSome? (·.channel.name) <;>
    rfl

theorem channel?_of_length_ne (h : (c.documents .stack).length ≠ 1) (d : Document) :
    channel? c d = .error (.stackCount (c.documents .stack).length) := by
  have hstack : stack c = .error (.stackCount (c.documents .stack).length) := by
    rw [stack, Catalog.stackDocument]
    split
    · next d' hd' => exact absurd (congrArg List.length hd') h
    · rfl
  unfold channel? candidates
  rw [hstack]
  rfl

theorem channel_of_length_ne (h : (c.documents .stack).length ≠ 1) (d : Document) :
    channel c d = .error (.stackCount (c.documents .stack).length) := by
  rw [channel, channel?_of_length_ne h]
  rfl

/-- What is kept among the Stacks is a Stack. -/
theorem exists_onlyStack {l : Listing} (r : c.Refines l)
    (h : (c.documents .stack).length = 1) : ∃ s, OnlyStack c s := by
  obtain ⟨d, hdocs⟩ := List.length_eq_one_iff.mp h
  have hget : c.get? ⟨.stack, 0⟩ = some d := by
    rw [Catalog.get?, hdocs]
    rfl
  have hkind : d.kind = .stack := r.kind hget
  unfold Document.kind at hkind
  split at hkind
  · next s hs => exact ⟨s, d, hdocs, hs⟩
  all_goals cases hkind

theorem channel_eq_ok {d : Document} (h : OnlyStack c s) {name : String} :
    channel c d = .ok name ↔
      First (c.documents .model) d.metadata.labels s.instances name := by
  rw [channel_of_onlyStack h, ← findSome?_accepting_eq_some]
  split
  · next found hfound => rw [hfound, Except.ok.injEq, Option.some.injEq]
  · next hfound => rw [hfound]; exact iff_of_false nofun nofun

theorem channel_eq_error {d : Document} (h : OnlyStack c s) {e : Error} :
    channel c d = .error e ↔ e = .notFound (.channel d.name)
      ∧ ∀ i ∈ s.instances, ∀ ch ∈ i.channelList, ∀ name,
        ¬ Offers (c.documents .model) d.metadata.labels i ch name := by
  rw [channel_of_onlyStack h, ← findSome?_accepting_eq_none]
  split
  · next found hfound => rw [hfound]; exact iff_of_false nofun fun h => nomatch h.2
  · next hfound =>
      rw [hfound, Except.error.injEq]
      exact ⟨fun h => ⟨h.symm, rfl⟩, fun h => h.1.symm⟩

/-! ## The bus -/

theorem bindings_without_bus (s : Stack) :
    bindings { s with models := s.models.map fun is => is.filter (!·.isBus) }
      = bindings s := by
  unfold bindings Stack.instances
  cases s.models with
  | none => rfl
  | some is => simp only [Option.map_some, Option.getD_some, List.filter_filter, Bool.and_self]

/-- The bus binds nothing. -/
theorem channel_withoutBus {l : Listing} (r : c.Refines l) (d : Document) :
    channel (c.modify ⟨.stack, 0⟩ Document.withoutBus) d = channel c d := by
  have hmodels : (c.modify ⟨.stack, 0⟩ Document.withoutBus).documents .model
      = c.documents .model := by
    rw [Catalog.documents_modify, if_neg nofun]
  have hstacks : (c.modify ⟨.stack, 0⟩ Document.withoutBus).documents .stack
      = (c.documents .stack).modify 0 Document.withoutBus := by
    rw [Catalog.documents_modify, if_pos rfl]
  -- one Stack has the same bindings, and of several there are as many as before
  by_cases hlength : (c.documents .stack).length = 1
  · obtain ⟨s, hs⟩ := exists_onlyStack r hlength
    obtain ⟨stackDoc, hdocs, hspec⟩ := hs
    have hs' : OnlyStack (c.modify ⟨.stack, 0⟩ Document.withoutBus)
        { s with models := s.models.map fun is => is.filter (!·.isBus) } := by
      refine ⟨stackDoc.withoutBus, ?_, ?_⟩
      · rw [hstacks, hdocs]
        rfl
      · rw [Document.withoutBus, hspec]
    rw [channel_of_onlyStack hs', channel_of_onlyStack ⟨stackDoc, hdocs, hspec⟩, hmodels]
    unfold accepting
    rw [bindings_without_bus]
  · rw [channel_of_length_ne hlength, channel_of_length_ne, hstacks, List.length_modify]
    rwa [hstacks, List.length_modify]

/-! ## Correctness -/

/-- Wiring a group gives the channel of the first binding that matches and names one;
it fails when there is not exactly one Stack and when no binding is such. A binding
without selectors is not accepted, and the bus does not matter. -/
theorem channel_correct (ops : List Catalog.Operation) (d : Document) :
    let c := Catalog.ofOperations ops
    let models := c.documents .model
    let labels := d.metadata.labels
    (∀ name, channel c d = .ok name ↔
        ∃ s, OnlyStack c s ∧ First models labels s.instances name)
      ∧ (∀ e, channel c d = .error e ↔
          (e = .stackCount (c.documents .stack).length ∧ (c.documents .stack).length ≠ 1)
            ∨ ∃ s, OnlyStack c s ∧ e = .notFound (.channel d.name)
              ∧ ∀ i ∈ s.instances, ∀ ch ∈ i.channelList, ∀ name,
                ¬ Offers models labels i ch name)
      ∧ (∀ i ch, (∀ l, ¬ Brings models i ch l) → accepts models labels ⟨i, ch⟩ = false)
      ∧ channel (c.modify ⟨.stack, 0⟩ Document.withoutBus) d = channel c d := by
  intro c models labels
  have r := Catalog.refines_ofOperations ops
  refine ⟨?_, ?_, ?_, channel_withoutBus r d⟩
  · intro name
    constructor
    · intro hok
      by_cases hlength : (c.documents .stack).length = 1
      · obtain ⟨s, hs⟩ := exists_onlyStack r hlength
        exact ⟨s, hs, (channel_eq_ok hs).mp hok⟩
      · rw [channel_of_length_ne hlength] at hok
        cases hok
    · rintro ⟨s, hs, hfirst⟩
      exact (channel_eq_ok hs).mpr hfirst
  · intro e
    constructor
    · intro herror
      by_cases hlength : (c.documents .stack).length = 1
      · obtain ⟨s, hs⟩ := exists_onlyStack r hlength
        exact .inr ⟨s, hs, (channel_eq_error hs).mp herror⟩
      · rw [channel_of_length_ne hlength] at herror
        exact .inl ⟨(Except.error.inj herror).symm, hlength⟩
    · rintro (⟨rfl, hlength⟩ | ⟨s, hs, hnone⟩)
      · exact channel_of_length_ne hlength d
      · exact (channel_eq_error hs).mpr hnone
  · -- a binding without selectors has nothing to match
    intro i ch hnone
    rw [← Bool.not_eq_true, accepts_iff]
    rintro ⟨l, hbrings, -⟩
    exact hnone l hbrings

end Wiring

end SimAnnotate
