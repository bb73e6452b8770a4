import SimAnnotate.Proofs.Wiring.FirstMatch

/-!
# Another rule for bindings without selectors

A binding without selectors takes those that its model declares under its alias. A
model may declare an alias several times. Wiring looks for the first such channel
that has selectors; the rule here asks for the first such channel, and takes its
selectors or none (`firstDeclared?`).

The rules differ for the bindings that are `Shadowed`, and only for these
(`firstDeclared_agrees`).
-/

namespace SimAnnotate

/-- The first channel with the alias has no selectors, and another one does. -/
def Model.Shadows (m : Model) (aliasName : String) : Prop :=
  ∃ first, m.channelByAlias? aliasName = some first ∧ first.selectors? = none
    ∧ ∃ other ∈ m.channelList, other.aliasName = some aliasName
      ∧ ∃ l, other.selectors? = some l

namespace Wiring

/-- The selectors of the first channel that a model declares with an alias. -/
def firstDeclared? (m : Model) (aliasName : String) : Option Labels :=
  (m.channelByAlias? aliasName).bind Channel.selectors?

/-- The model that an instance means. -/
def Binding.model? (models : List Document) (b : Binding) : Option Model :=
  (models.find? (·.name == b.inst.model.name)).bind Document.model?

/-- A binding without selectors whose model shadows its alias. -/
def Shadowed (models : List Document) (b : Binding) : Prop :=
  b.channel.selectors? = none ∧ ∃ aliasName m, b.channel.aliasName = some aliasName
    ∧ b.model? models = some m ∧ m.Shadows aliasName

/-! ## Wiring by a rule -/

section

-- the rule: which selectors a model declares for an alias
variable (declared : Model → String → Option Labels)

def selectorsBy? (models : List Document) (b : Binding) : Option Labels :=
  b.channel.selectors?.or
    (b.channel.aliasName.bind fun aliasName =>
      (b.model? models).bind (declared · aliasName))

def acceptsBy (models : List Document) (labels : Labels) (b : Binding) : Bool :=
  (selectorsBy? declared models b).any (·.within labels)

def acceptingBy (models : List Document) (s : Stack) (labels : Labels) :
    List Binding :=
  (bindings s).filter (acceptsBy declared models labels)

def channelBy (c : Catalog) (group : Document) : Except Error String := do
  let s ← stack c
  match (acceptingBy declared (c.documents .model) s group.metadata.labels).findSome?
      (·.channel.name) with
  | some name => return name
  | none => throw (.notFound (.channel group.name))

end

variable {models : List Document} {b : Binding}

/-- Wiring itself is by the first channel that has selectors. -/
theorem selectorsBy?_declared (models : List Document) (b : Binding) :
    selectorsBy? declared? models b = selectors? models b := by
  unfold selectorsBy?
  cases hown : b.channel.selectors? with
  | some own =>
      unfold selectors?
      rw [hown, Option.some_or, Option.some_or]
  | none =>
      rw [selectors?_of_none_own hown, Option.none_or]
      rfl

theorem acceptingBy_declared (models : List Document) (s : Stack) (labels : Labels) :
    acceptingBy declared? models s labels = accepting models s labels := by
  unfold acceptingBy accepting acceptsBy accepts
  simp only [selectorsBy?_declared]

theorem channelBy_of_stack {c : Catalog} {s : Stack} (hs : stack c = .ok s)
    (declared : Model → String → Option Labels) (d : Document) :
    channelBy declared c d = match (acceptingBy declared (c.documents .model) s
        d.metadata.labels).findSome? (·.channel.name) with
      | some name => .ok name
      | none => .error (.notFound (.channel d.name)) := by
  unfold channelBy
  rw [hs, Except.ok_bind]
  split <;> rfl

theorem channelBy_declared (c : Catalog) (d : Document) :
    channelBy declared? c d = channel c d := by
  unfold channelBy channel channel? candidates
  simp only [acceptingBy_declared]
  cases stack c <;> rfl

/-! ## Where the rules differ -/

theorem channelByAlias?_eq_head? (m : Model) (aliasName : String) :
    m.channelByAlias? aliasName
      = (m.channelList.filter (·.aliasName == some aliasName)).head? :=
  List.head?_filter.symm

theorem firstDeclared?_eq_declared? {m : Model} {aliasName : String}
    (h : ¬ m.Shadows aliasName) : firstDeclared? m aliasName = declared? m aliasName := by
  unfold firstDeclared? declared?
  rw [channelByAlias?_eq_head?]
  cases hsame : m.channelList.filter (·.aliasName == some aliasName) with
  | nil => rfl
  | cons first rest =>
      have hfirst : m.channelByAlias? aliasName = some first := by
        rw [channelByAlias?_eq_head?, hsame]
        rfl
      rw [List.head?_cons, Option.bind_some, List.findSome?_cons]
      cases hnone : first.selectors? with
      | some l => rfl
      | none =>
          -- the first channel has no selectors, so nothing else of the alias may have any
          refine (List.findSome?_eq_none_iff.mpr fun other hother => ?_).symm
          rw [Option.eq_none_iff_forall_ne_some]
          intro l hl
          have hmem := hsame ▸ List.mem_cons_of_mem first hother
          rw [List.mem_filter, beq_iff_eq] at hmem
          exact h ⟨first, hfirst, hnone, other, hmem.1, hmem.2, l, hl⟩

theorem firstDeclared?_of_shadows {m : Model} {aliasName : String}
    (h : m.Shadows aliasName) : firstDeclared? m aliasName = none := by
  obtain ⟨first, hfirst, hnone, -⟩ := h
  rw [firstDeclared?, hfirst, Option.bind_some, hnone]

theorem exists_declared?_of_shadows {m : Model} {aliasName : String}
    (h : m.Shadows aliasName) : ∃ l, declared? m aliasName = some l := by
  obtain ⟨-, -, -, other, hother, halias, l, hl⟩ := h
  rw [← Option.isSome_iff_exists, declared?, List.findSome?_isSome_iff]
  refine ⟨other, List.mem_filter.mpr ⟨hother, beq_iff_eq.mpr halias⟩, ?_⟩
  rw [hl, Option.isSome_some]

theorem selectorsBy?_of_not_shadowed (h : ¬ Shadowed models b) :
    selectorsBy? firstDeclared? models b = selectors? models b := by
  rw [← selectorsBy?_declared]
  unfold selectorsBy?
  cases hown : b.channel.selectors? with
  | some own => rfl
  | none =>
      cases halias : b.channel.aliasName with
      | none => rfl
      | some aliasName =>
          cases hm : b.model? models with
          | none => rfl
          | some m =>
              exact firstDeclared?_eq_declared? fun hshadows =>
                h ⟨hown, aliasName, m, halias, hm, hshadows⟩

/-- A shadowed binding has selectors by one rule and none by the other. -/
theorem selectorsBy?_of_shadowed (h : Shadowed models b) :
    selectorsBy? firstDeclared? models b = none ∧ ∃ l, selectors? models b = some l := by
  obtain ⟨hown, aliasName, m, halias, hm, hshadows⟩ := h
  have hby : ∀ declared, selectorsBy? declared models b = declared m aliasName := by
    intro declared
    rw [selectorsBy?, hown, halias, hm]
    rfl
  rw [← selectorsBy?_declared, hby, hby]
  exact ⟨firstDeclared?_of_shadows hshadows, exists_declared?_of_shadows hshadows⟩

theorem selectorsBy?_eq_iff :
    selectorsBy? firstDeclared? models b = selectors? models b ↔ ¬ Shadowed models b := by
  refine ⟨fun heq hshadowed => ?_, selectorsBy?_of_not_shadowed⟩
  obtain ⟨hnone, l, hl⟩ := selectorsBy?_of_shadowed hshadowed
  rw [hnone, hl] at heq
  cases heq

/-! ## Matching by the rules -/

variable {labels : Labels} {s : Stack}

theorem acceptsBy_of_not_shadowed (h : ¬ Shadowed models b) :
    acceptsBy firstDeclared? models labels b = accepts models labels b := by
  rw [acceptsBy, accepts, selectorsBy?_of_not_shadowed h]

theorem acceptsBy_of_shadowed (h : Shadowed models b) :
    acceptsBy firstDeclared? models labels b = false := by
  rw [acceptsBy, (selectorsBy?_of_shadowed h).1]
  rfl

theorem accepts_of_acceptsBy (h : acceptsBy firstDeclared? models labels b = true) :
    accepts models labels b = true := by
  by_cases hshadowed : Shadowed models b
  · rw [acceptsBy_of_shadowed hshadowed] at h
    cases h
  · rwa [acceptsBy_of_not_shadowed hshadowed] at h

/-- A shadowed binding matches the labels that are its selectors. -/
theorem exists_accepts_of_shadowed (h : Shadowed models b) :
    ∃ labels, accepts models labels b = true := by
  obtain ⟨-, l, hl⟩ := selectorsBy?_of_shadowed h
  refine ⟨l, ?_⟩
  rw [accepts, hl, Option.any_some]
  exact within_iff.mpr fun _ _ hvalue => hvalue

theorem acceptingBy_eq_iff :
    (∀ labels, acceptingBy firstDeclared? models s labels = accepting models s labels) ↔
      ∀ b ∈ bindings s, ¬ Shadowed models b := by
  constructor
  · intro h b hb hshadowed
    obtain ⟨labels, haccepts⟩ := exists_accepts_of_shadowed hshadowed
    have hmem : b ∈ accepting models s labels := List.mem_filter.mpr ⟨hb, haccepts⟩
    rw [← h, acceptingBy, List.mem_filter, acceptsBy_of_shadowed hshadowed] at hmem
    exact Bool.false_ne_true hmem.2
  · intro h labels
    exact List.filter_congr fun b hb => acceptsBy_of_not_shadowed (h b hb)

/-- The binding whose channel is taken. -/
def taken? (models : List Document) (s : Stack) (labels : Labels) : Option Binding :=
  (accepting models s labels).find? (·.channel.name.isSome)

theorem findSome?_accepting_eq_taken? :
    (accepting models s labels).findSome? (·.channel.name)
      = (taken? models s labels).bind (·.channel.name) := by
  unfold taken?
  generalize accepting models s labels = bs
  induction bs with
  | nil => rfl
  | cons b rest ih =>
      rw [List.findSome?_cons, List.find?_cons]
      cases hname : b.channel.name with
      | none => exact ih
      | some name => exact hname.symm

theorem channelBy_eq_iff {c : Catalog} {s : Stack} (hs : stack c = .ok s) {d : Document} :
    channelBy firstDeclared? c d = channel c d ↔
      (acceptingBy firstDeclared? (c.documents .model) s d.metadata.labels).findSome?
          (·.channel.name)
        = (taken? (c.documents .model) s d.metadata.labels).bind (·.channel.name) := by
  rw [← channelBy_declared, channelBy_of_stack hs, channelBy_of_stack hs,
    acceptingBy_declared, findSome?_accepting_eq_taken?]
  generalize (acceptingBy firstDeclared? _ s _).findSome? _ = byFirst
  generalize (taken? _ s _).bind _ = byAny
  cases byFirst <;> cases byAny <;> simp

/-- When the binding that is taken is not shadowed, both rules take it. -/
theorem findSome?_acceptingBy_of_taken? (hb : taken? models s labels = some b)
    (h : ¬ Shadowed models b) :
    (acceptingBy firstDeclared? models s labels).findSome? (·.channel.name)
      = b.channel.name := by
  rw [taken?, accepting, List.find?_filter, List.find?_eq_some_iff_append] at hb
  obtain ⟨hnamed, before, after, hsplit, hbefore⟩ := hb
  rw [Bool.decide_and, Bool.decide_eq_true, Bool.decide_eq_true, Bool.and_eq_true] at hnamed
  rw [acceptingBy, List.findSome?_filter, hsplit, List.findSome?_append]
  -- no earlier binding is accepted, since the weaker rule would accept it as well
  have hnone : before.findSome? (fun b =>
      if acceptsBy firstDeclared? models labels b then b.channel.name else none) = none := by
    rw [List.findSome?_eq_none_iff]
    intro x hx
    split
    · next hx' =>
        have := hbefore x hx
        have haccepts := accepts_of_acceptsBy hx'
        simpa [haccepts] using this
    · rfl
  rw [hnone, Option.none_or, List.findSome?_cons, acceptsBy_of_not_shadowed h, hnamed.1,
    if_pos rfl]
  obtain ⟨name, hname⟩ := Option.isSome_iff_exists.mp hnamed.2
  rw [hname]

theorem findSome?_acceptingBy_of_none (h : taken? models s labels = none) :
    (acceptingBy firstDeclared? models s labels).findSome? (·.channel.name) = none := by
  rw [taken?, List.find?_eq_none] at h
  rw [List.findSome?_eq_none_iff]
  intro b hb
  obtain ⟨hmem, haccepts⟩ := List.mem_filter.mp hb
  exact Option.not_isSome_iff_eq_none.mp
    (h b (List.mem_filter.mpr ⟨hmem, accepts_of_acceptsBy haccepts⟩))

/-- The two rules give a binding other selectors exactly when it is shadowed. With one
Stack they accept the same bindings for all labels exactly when none is shadowed, and
wire a group alike exactly when the binding that is taken is not shadowed or the first
rule names its channel all the same. -/
theorem firstDeclared_agrees (c : Catalog) :
    let models := c.documents .model
    (∀ b, selectorsBy? firstDeclared? models b = selectors? models b ↔ ¬ Shadowed models b)
      ∧ ∀ s, stack c = .ok s →
        ((∀ labels, acceptingBy firstDeclared? models s labels = accepting models s labels) ↔
            ∀ b ∈ bindings s, ¬ Shadowed models b)
          ∧ ∀ d : Document, channelBy firstDeclared? c d = channel c d ↔
              ∀ b, taken? models s d.metadata.labels = some b → Shadowed models b →
                (acceptingBy firstDeclared? models s d.metadata.labels).findSome?
                  (·.channel.name) = b.channel.name := by
  intro models
  refine ⟨fun b => selectorsBy?_eq_iff, fun s hs => ⟨acceptingBy_eq_iff, fun d => ?_⟩⟩
  rw [channelBy_eq_iff hs]
  cases htaken : taken? models s d.metadata.labels with
  | none =>
      rw [findSome?_acceptingBy_of_none htaken]
      exact iff_of_true rfl nofun
  | some b =>
      rw [Option.bind_some]
      constructor
      · rintro heq _ ⟨⟩ -
        exact heq
      · intro h
        by_cases hshadowed : Shadowed models b
        · exact h b rfl hshadowed
        · exact findSome?_acceptingBy_of_taken? htaken hshadowed

/-- A group that is wired although the first channel with the alias has no selectors. -/
theorem channel_of_shadowed_alias :
    let binding : Channel := ⟨some "c", some "a", none, ∅⟩
    let stackDoc : Document :=
      ⟨⟨"", ∅, ∅⟩, .stack ⟨some [⟨"i", ⟨"m", ∅⟩, some [binding], ∅⟩], ∅⟩, none⟩
    let first : Channel := ⟨none, some "a", none, ∅⟩
    let second : Channel := ⟨none, some "a", some (.ofList [("k", "v")]), ∅⟩
    let modelDoc : Document := ⟨⟨"m", ∅, ∅⟩, .model ⟨some [first, second], ∅⟩, none⟩
    let group : Document := ⟨⟨"g", .ofList [("k", "v")], ∅⟩, .signalGroup ⟨[], ∅⟩, none⟩
    let c := Catalog.ofOperations
      [.insert ⟨"s.yaml"⟩ [stackDoc], .insert ⟨"m.yaml"⟩ [modelDoc],
        .insert ⟨"g.yaml"⟩ [group]]
    channel c group = .ok "c"
      ∧ channelBy firstDeclared? c group = .error (.notFound (.channel "g")) := by
  decide

end Wiring

end SimAnnotate
