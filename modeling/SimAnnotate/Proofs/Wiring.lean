import Mathlib.Data.List.Forall2
import SimAnnotate.Proofs.Document.Core
import SimAnnotate.Wiring

/-!
# What wiring looks at

The channel of a group depends on the group's labels, on the Stack and on what the
models declare, and of all these only on names, aliases and the pairs that labels and
selectors hold. Where documents have that in common they are `Alike`; where Stacks and
models are alike, alike groups are wired alike (`channel?_alike`). The order of labels
and selectors does not matter to this, and neither do annotations (`channel?_congr_core`).
-/

namespace List

universe u v w

variable {α : Type u} {β : Type v} {R : α → β → Prop} {xs : List α} {ys : List β}

theorem Forall₂.findSome? {γ δ : Type w} {S : γ → δ → Prop} {f : α → Option γ}
    {g : β → Option δ} (h : Forall₂ R xs ys) (hfg : ∀ a b, R a b → Option.Rel S (f a) (g b)) :
    Option.Rel S (xs.findSome? f) (ys.findSome? g) := by
  induction h with
  | nil => exact .none
  | @cons a b xs ys hab _ ih =>
      rw [findSome?_cons, findSome?_cons]
      have hfound := hfg a b hab
      generalize f a = x at hfound ⊢
      generalize g b = y at hfound ⊢
      cases hfound with
      | none => exact ih
      | some h => exact .some h

theorem Forall₂.find? {p : α → Bool} {q : β → Bool} (h : Forall₂ R xs ys)
    (hpq : ∀ a b, R a b → p a = q b) : Option.Rel R (xs.find? p) (ys.find? q) := by
  induction h with
  | nil => exact .none
  | @cons a b xs ys hab _ ih =>
      rw [find?_cons, find?_cons, hpq a b hab]
      cases q b with
      | true => exact .some hab
      | false => exact ih

theorem forall₂_of_map_eq {γ : Type w} {f : α → γ} {g : β → γ} (h : ys.map g = xs.map f) :
    Forall₂ (fun a b => g b = f a) xs ys := by
  have hmaps : Forall₂ (fun c c' => c' = c) (xs.map f) (ys.map g) := by
    rw [h]
    exact forall₂_same.mpr fun _ _ => rfl
  rwa [forall₂_map_left_iff, forall₂_map_right_iff] at hmaps

end List

theorem Option.eq_of_rel {α : Type*} {o o' : Option α} (h : Option.Rel (fun a b => b = a) o o') :
    o' = o := by
  cases h with
  | none => rfl
  | some h => rw [h]

namespace SimAnnotate

/-! ## Documents that are wired alike -/

/-- The same pairs, in any order. -/
def Labels.Alike (l l' : Labels) : Prop := l.entries.Perm l'.entries

structure Channel.Alike (ch ch' : Channel) : Prop where
  name : ch'.name = ch.name
  aliasName : ch'.aliasName = ch.aliasName
  selectors : Option.Rel Labels.Alike ch.selectors ch'.selectors

structure ModelInstance.Alike (i i' : ModelInstance) : Prop where
  name : i'.name = i.name
  model : i'.model.name = i.model.name
  channels : List.Forall₂ Channel.Alike i.channelList i'.channelList

def Stack.Alike (s s' : Stack) : Prop :=
  List.Forall₂ ModelInstance.Alike s.instances s'.instances

def Model.Alike (m m' : Model) : Prop :=
  List.Forall₂ Channel.Alike m.channelList m'.channelList

/-- The same kind of document, with alike instances or channels where it has any. -/
inductive Spec.Alike : Spec → Spec → Prop where
  | stack {s s' : Stack} (h : s.Alike s') : Alike (.stack s) (.stack s')
  | signalGroup (g g' : SignalGroup) : Alike (.signalGroup g) (.signalGroup g')
  | model {m m' : Model} (h : m.Alike m') : Alike (.model m) (.model m')
  | other (k k' : String) (v v' : Yaml.Value) : Alike (.other k v) (.other k' v')

structure Document.Alike (d d' : Document) : Prop where
  name : d'.name = d.name
  labels : Labels.Alike d.metadata.labels d'.metadata.labels
  spec : Spec.Alike d.spec d'.spec

/-! ## What alike documents have in common -/

namespace Labels.Alike

variable {l l' : Labels}

theorem get? (h : Labels.Alike l l') (key : String) : l'.get? key = l.get? key := by
  refine Option.ext fun value => ?_
  rw [← OrderedMap.mem_entries_iff, ← OrderedMap.mem_entries_iff, h.mem_iff]

theorem within {given given' : Labels} (h : Labels.Alike l l')
    (hgiven : Labels.Alike given given') : l'.within given' = l.within given := by
  unfold Labels.within
  simp only [hgiven.get?]
  exact h.symm.all_eq

theorem isEmpty (h : Labels.Alike l l') : l'.isEmpty = l.isEmpty :=
  h.symm.isEmpty_eq

end Labels.Alike

theorem Channel.Alike.selectors? {ch ch' : Channel} (h : ch.Alike ch') :
    Option.Rel Labels.Alike ch.selectors? ch'.selectors? := by
  have hselectors := h.selectors
  unfold Channel.selectors?
  generalize ch.selectors = o at hselectors ⊢
  generalize ch'.selectors = o' at hselectors ⊢
  cases hselectors with
  | none => exact .none
  | @some l l' hl =>
      rw [Option.filter_some, Option.filter_some, hl.isEmpty]
      split
      · exact .some hl
      · exact .none

namespace Document.Alike

variable {d d' : Document}

theorem stack? (h : d.Alike d') : Option.Rel Stack.Alike d.stack? d'.stack? := by
  have hspec := h.spec
  unfold Document.stack?
  generalize d.spec = spec at hspec ⊢
  generalize d'.spec = spec' at hspec ⊢
  cases hspec with
  | stack h => exact .some h
  | signalGroup | model | other => exact .none

theorem model? (h : d.Alike d') : Option.Rel Model.Alike d.model? d'.model? := by
  have hspec := h.spec
  unfold Document.model?
  generalize d.spec = spec at hspec ⊢
  generalize d'.spec = spec' at hspec ⊢
  cases hspec with
  | model h => exact .some h
  | signalGroup | stack | other => exact .none

end Document.Alike

/-! ## Documents with the same core -/

theorem Channel.alike_of_core {ch ch' : Channel} (h : ch'.core = ch.core) : ch.Alike ch' := by
  have hselectors : ch'.selectors = ch.selectors := congrArg (·.selectors) h
  refine ⟨congrArg (·.name) h, congrArg (·.aliasName) h, ?_⟩
  rw [hselectors]
  cases ch.selectors with
  | none => exact .none
  | some l => exact .some (.refl _)

theorem Channel.forall₂_alike {chs chs' : List Channel}
    (h : chs'.map core = chs.map core) : List.Forall₂ Alike chs chs' :=
  (List.forall₂_of_map_eq h).imp fun _ _ => alike_of_core

theorem Model.channelList_core (m : Model) :
    m.core.channelList = m.channelList.map Channel.core := by
  unfold channelList core
  cases m.channels <;> rfl

theorem ModelInstance.channelList_core (i : ModelInstance) :
    i.core.channelList = i.channelList.map Channel.core := by
  unfold channelList core
  cases i.channels <;> rfl

theorem Stack.instances_core (s : Stack) :
    s.core.instances = s.instances.map ModelInstance.core := by
  unfold instances core
  cases s.models <;> rfl

theorem Model.alike_of_core {m m' : Model} (h : m'.core = m.core) : m.Alike m' := by
  have hchannels := congrArg channelList h
  rw [channelList_core, channelList_core] at hchannels
  exact Channel.forall₂_alike hchannels

theorem ModelInstance.alike_of_core {i i' : ModelInstance} (h : i'.core = i.core) :
    i.Alike i' := by
  have hchannels := congrArg channelList h
  rw [channelList_core, channelList_core] at hchannels
  exact ⟨congrArg (·.name) h, congrArg (·.model.name) h, Channel.forall₂_alike hchannels⟩

theorem Stack.alike_of_core {s s' : Stack} (h : s'.core = s.core) : s.Alike s' := by
  have hinstances := congrArg instances h
  rw [instances_core, instances_core] at hinstances
  exact (List.forall₂_of_map_eq hinstances).imp fun _ _ => ModelInstance.alike_of_core

namespace Document

theorem alike_of_core {d d' : Document} (h : d'.core = d.core) : d.Alike d' := by
  have hlabels : d'.metadata.labels = d.metadata.labels := congrArg (·.metadata.labels) h
  refine ⟨congrArg (·.metadata.name) h, hlabels ▸ .refl _, ?_⟩
  have hspec : d'.spec.core = d.spec.core := congrArg Document.spec h
  generalize d.spec = spec at hspec ⊢
  generalize d'.spec = spec' at hspec ⊢
  -- cores are of the same kind
  cases spec <;> cases spec' <;> try cases hspec
  case stack.stack s s' => exact .stack (Stack.alike_of_core (Spec.stack.inj hspec))
  case signalGroup.signalGroup g g' => exact .signalGroup g g'
  case model.model m m' => exact .model (Model.alike_of_core (Spec.model.inj hspec))
  case other.other k v => exact .other k k v v

theorem forall₂_alike {ds ds' : List Document} (h : ds'.map core = ds.map core) :
    List.Forall₂ Alike ds ds' :=
  (List.forall₂_of_map_eq h).imp fun _ _ => alike_of_core

end Document

/-! ## Wiring alike -/

namespace Wiring

/-- Bindings of alike channels by alike instances. -/
structure Binding.Alike (b b' : Binding) : Prop where
  inst : b.inst.Alike b'.inst
  channel : b.channel.Alike b'.channel

variable {models models' : List Document} {s s' : Stack} {b b' : Binding}

theorem bindings_alike (h : s.Alike s') :
    List.Forall₂ Binding.Alike (bindings s) (bindings s') := by
  have hbus : ∀ i i' : ModelInstance, i.Alike i' →
      (((!i.isBus) = true) ↔ ((!i'.isBus) = true)) := fun i i' hi => by
    rw [ModelInstance.isBus, ModelInstance.isBus, hi.name]
  refine List.rel_flatMap (List.rel_filter (hbus · ·) h) fun i i' hi => ?_
  exact List.rel_map (fun ch ch' hch => ⟨hi, hch⟩) hi.channels

theorem declared?_alike {m m' : Model} (h : m.Alike m') (aliasName : String) :
    Option.Rel Labels.Alike (declared? m aliasName) (declared? m' aliasName) := by
  have halias : ∀ ch ch' : Channel, ch.Alike ch' →
      ((ch.aliasName == some aliasName) = true ↔ (ch'.aliasName == some aliasName) = true) :=
    fun ch ch' hch => by rw [hch.aliasName]
  exact List.Forall₂.findSome? (List.rel_filter (halias · ·) h) fun _ _ hch => hch.selectors?

variable (hmodels : List.Forall₂ Document.Alike models models')

include hmodels

theorem selectors?_alike (h : b.Alike b') :
    Option.Rel Labels.Alike (selectors? models b) (selectors? models' b') := by
  have hown := h.channel.selectors?
  unfold selectors?
  rw [h.channel.aliasName, h.inst.model]
  generalize b.channel.selectors? = own at hown ⊢
  generalize b'.channel.selectors? = own' at hown ⊢
  cases hown with
  | some hl => exact .some hl
  | none =>
      -- both sides look the alias up in models of the same names
      cases b.channel.aliasName with
      | none => exact .none
      | some aliasName =>
          have hfound := hmodels.find? (p := (·.name == b.inst.model.name))
            (q := (·.name == b.inst.model.name)) fun d d' hd => by rw [hd.name]
          change Option.Rel _ ((models.find? _).bind _) ((models'.find? _).bind _)
          generalize models.find? _ = found at hfound ⊢
          generalize models'.find? _ = found' at hfound ⊢
          cases hfound with
          | none => exact .none
          | @some d d' hd =>
              have hmodel := hd.model?
              change Option.Rel _ (d.model?.bind _) (d'.model?.bind _)
              generalize d.model? = m at hmodel ⊢
              generalize d'.model? = m' at hmodel ⊢
              cases hmodel with
              | none => exact .none
              | some hm => exact declared?_alike hm aliasName

variable {labels labels' : Labels} (hlabels : Labels.Alike labels labels')

include hlabels

theorem accepts_alike (h : b.Alike b') : accepts models' labels' b' = accepts models labels b := by
  have hselectors := selectors?_alike hmodels h
  unfold accepts
  generalize selectors? models b = o at hselectors ⊢
  generalize selectors? models' b' = o' at hselectors ⊢
  cases hselectors with
  | none => rfl
  | some hl => exact hl.within hlabels

theorem accepting_alike (h : s.Alike s') :
    List.Forall₂ Binding.Alike (accepting models s labels) (accepting models' s' labels') := by
  have haccepts : ∀ b b' : Binding, b.Alike b' →
      (accepts models labels b = true ↔ accepts models' labels' b' = true) :=
    fun b b' hb => by rw [accepts_alike hmodels hlabels hb]
  exact List.rel_filter (haccepts · ·) (bindings_alike h)

omit hmodels hlabels

/-- Catalogs with alike Stacks and models wire alike groups alike. -/
theorem channel?_alike {c c' : Catalog}
    (hstack : List.Forall₂ Document.Alike (c.documents .stack) (c'.documents .stack))
    (hmodels : List.Forall₂ Document.Alike (c.documents .model) (c'.documents .model))
    {d d' : Document} (hlabels : Labels.Alike d.metadata.labels d'.metadata.labels) :
    channel? c' d' = channel? c d := by
  have hfound : ∀ {s s' : Stack}, s.Alike s' →
      (accepting (c'.documents .model) s' d'.metadata.labels).findSome? (·.channel.name)
        = (accepting (c.documents .model) s d.metadata.labels).findSome? (·.channel.name) :=
    fun hs => Option.eq_of_rel <| (accepting_alike hmodels hlabels hs).findSome? fun b b' hb => by
      rw [hb.channel.name]
      cases b.channel.name with
      | none => exact .none
      | some name => exact .some rfl
  unfold channel? candidates stack Catalog.stackDocument
  generalize c.documents .stack = ds at hstack ⊢
  generalize c'.documents .stack = ds' at hstack ⊢
  -- there are as many Stacks on one side as on the other
  cases hstack with
  | nil => rfl
  | @cons a b rest rest' hab hrest =>
      cases hrest with
      | nil =>
          have hstacks : (a.stack?.getD default).Alike (b.stack?.getD default) := by
            have hoption := hab.stack?
            generalize a.stack? = o at hoption ⊢
            generalize b.stack? = o' at hoption ⊢
            cases hoption with
            | none => exact .nil
            | some h => exact h
          exact congrArg Except.ok (hfound hstacks)
      | cons hab' hrest =>
          exact congrArg (fun n => Except.error (Error.stackCount (n + 1 + 1))) hrest.length_eq.symm

/-- Annotations do not matter to wiring, and neither do the fields that are not known. -/
theorem channel?_congr_core {c c' : Catalog}
    (hstack : (c'.documents .stack).map Document.core = (c.documents .stack).map Document.core)
    (hmodel : (c'.documents .model).map Document.core = (c.documents .model).map Document.core)
    {d d' : Document} (hd : d'.core = d.core) : channel? c' d' = channel? c d :=
  channel?_alike (Document.forall₂_alike hstack) (Document.forall₂_alike hmodel)
    (Document.alike_of_core hd).labels

theorem channel?_congr {c c' : Catalog}
    (hstack : (c'.documents .stack).map Document.outline
      = (c.documents .stack).map Document.outline)
    (hmodel : (c'.documents .model).map Document.outline
      = (c.documents .model).map Document.outline)
    {d d' : Document} (hd : d'.outline = d.outline) : channel? c' d' = channel? c d :=
  channel?_congr_core (Document.map_core_of_outline hstack) (Document.map_core_of_outline hmodel)
    (Document.core_of_outline hd)

/-- With one Stack it is known of every group how it is wired. -/
theorem exists_channel? {c : Catalog} (hstack : ∃ d, c.stackDocument = .ok d) (d : Document) :
    ∃ channel, channel? c d = .ok channel := by
  obtain ⟨s, hs⟩ := hstack
  unfold channel? candidates stack
  rw [hs]
  exact ⟨_, rfl⟩

end Wiring

end SimAnnotate
