import SimAnnotate.Proofs.Yaml.FlowDepth
import SimAnnotate.Yaml.Node

/-!
# Nodes in front of a document

A node is read in the same way from its own tokens and from tokens that go on with the
start of a document (`ReadsOn`). A reader looks one token ahead, and the start of a
document tells it no more than the end of the tokens does.

A reader that succeeds passes no fault. It also closes the flow collections that it
opens, and the items of a collection close the one around them. So `Passed` counts what
is closed.
-/

namespace SimAnnotate.Yaml

/-- The tokens `ts` go on as `ts'` behind tokens without a fault, which close `k` of the
flow collections that are open. -/
def Passed (k : Nat) (ts ts' : List Token) : Prop :=
  ∃ used, ts = used ++ ts' ∧ .fault ∉ used ∧ ∀ n, flowDepth (n + k) used ≤ n

theorem Passed.refl (ts : List Token) : Passed 0 ts ts :=
  ⟨[], rfl, List.not_mem_nil, fun n => Nat.le_refl n⟩

theorem Passed.trans {k j : Nat} {ts ts' ts'' : List Token} (h : Passed k ts ts')
    (h' : Passed j ts' ts'') : Passed (k + j) ts ts'' := by
  obtain ⟨used, rfl, hfault, hdepth⟩ := h
  obtain ⟨used', rfl, hfault', hdepth'⟩ := h'
  refine ⟨used ++ used', (List.append_assoc ..).symm, ?_, fun n => ?_⟩
  · rw [List.mem_append]
    exact fun h => h.elim hfault hfault'
  · calc flowDepth (n + (k + j)) (used ++ used')
      _ = flowDepth (flowDepth ((n + j) + k) used) used' := by
          rw [flowDepth_append, Nat.add_assoc, Nat.add_comm j]
      _ ≤ flowDepth (n + j) used' := flowDepth_mono (hdepth _) _
      _ ≤ n := hdepth' n

/-- One token in front. -/
theorem Passed.cons {k j : Nat} {t : Token} {ts ts' : List Token} (ht : t ≠ .fault)
    (hdeepen : ∀ n, t.deepen (n + k) ≤ n + j) (h : Passed j ts ts') :
    Passed k (t :: ts) ts' := by
  obtain ⟨used, rfl, hfault, hdepth⟩ := h
  refine ⟨t :: used, rfl, ?_, fun n => ?_⟩
  · rw [List.mem_cons]
    exact fun h => h.elim (fun h => ht h.symm) hfault
  · exact (flowDepth_mono (hdeepen n) used).trans (hdepth n)

/-- The tokens go on with a document behind them. -/
def TokenState.followed (document : List Token) (s : TokenState) : TokenState :=
  { s with tokens := s.tokens ++ .documentStart :: document }

namespace TokenReader

variable {α β : Type} {document : List Token} {s s' : TokenState} {k j : Nat}
  {r r' : TokenReader α} {f f' : α → TokenReader β}

/-- What `r` reads from `s`, passing the end of `k` flow collections, is what `r'` reads
where a document follows. -/
def CarriesFrom (document : List Token) (s : TokenState) (k : Nat) (r r' : TokenReader α) :
    Prop :=
  ∀ a s', r.run s = some (a, s') →
    r'.run (s.followed document) = some (a, s'.followed document)
      ∧ Passed k s.tokens s'.tokens

/-- `r` carries over to `r'` from everywhere. -/
def Carries (document : List Token) (k : Nat) (r r' : TokenReader α) : Prop :=
  ∀ s, CarriesFrom document s k r r'

/-! ## Steps of a reader -/

theorem CarriesFrom.pure (a : α) : CarriesFrom document s 0 (pure a) (pure a) := by
  rintro a s' h
  cases h
  exact ⟨rfl, .refl _⟩

theorem CarriesFrom.failure : CarriesFrom document s k failure r' := by
  rintro a s' ⟨⟩

theorem run_bind_eq_some {b : β} : (r >>= f).run s = some (b, s') ↔
    ∃ a s₁, r.run s = some (a, s₁) ∧ (f a).run s₁ = some (b, s') := by
  rw [StateT.run_bind]
  constructor
  · intro h
    obtain ⟨⟨a, s₁⟩, hr, hf⟩ := Option.bind_eq_some_iff.mp h
    exact ⟨a, s₁, hr, hf⟩
  · rintro ⟨a, s₁, hr, hf⟩
    exact Option.bind_eq_some_iff.mpr ⟨(a, s₁), hr, hf⟩

theorem CarriesFrom.bind (hr : CarriesFrom document s k r r')
    (hf : ∀ a, Carries document j (f a) (f' a)) :
    CarriesFrom document s (k + j) (r >>= f) (r' >>= f') := by
  intro b s' h
  obtain ⟨a, s₁, hrun, h⟩ := run_bind_eq_some.mp h
  obtain ⟨hrun', hpassed⟩ := hr a s₁ hrun
  obtain ⟨h', hpassed'⟩ := hf a s₁ b s' h
  exact ⟨run_bind_eq_some.mpr ⟨a, _, hrun', h'⟩, hpassed.trans hpassed'⟩

/-- A part that closes no collection around it comes first. -/
theorem CarriesFrom.andThen (hr : CarriesFrom document s 0 r r')
    (hf : ∀ a, Carries document k (f a) (f' a)) :
    CarriesFrom document s k (r >>= f) (r' >>= f') := by
  have h := hr.bind hf
  rwa [Nat.zero_add] at h

theorem CarriesFrom.map (hr : CarriesFrom document s k r r') (g : α → β) :
    CarriesFrom document s k (r >>= fun a => Pure.pure (g a))
      (r' >>= fun a => Pure.pure (g a)) :=
  hr.bind fun _ _ => .pure _

/-- A part that reads no token. -/
theorem CarriesFrom.still (hrun : ∀ a s₁, r.run s = some (a, s₁) →
      r'.run (s.followed document) = some (a, s₁.followed document) ∧ s₁.tokens = s.tokens) :
    CarriesFrom document s 0 r r' := by
  intro a s₁ h
  obtain ⟨h', htokens⟩ := hrun a s₁ h
  rw [htokens]
  exact ⟨h', .refl _⟩

section

variable {f f' : Option Token → TokenReader α}

/-- The next token is the same, and where there is none the document starts. -/
theorem CarriesFrom.peek
    (hend : CarriesFrom document s k (f none) (f' (some .documentStart)))
    (hnext : ∀ t rest, s.tokens = t :: rest →
      CarriesFrom document s k (f (some t)) (f' (some t))) :
    CarriesFrom document s k (peek >>= f) (peek >>= f') := by
  obtain ⟨tokens, anchors⟩ := s
  cases tokens with
  | nil => exact hend
  | cons t rest => exact hnext t rest rfl

end

section

variable {f f' : Unit → TokenReader α}

theorem CarriesFrom.skip {t : Token} {rest : List Token} (hs : s.tokens = t :: rest)
    (ht : t ≠ .fault) (hdeepen : ∀ n, t.deepen (n + k) ≤ n + j)
    (hf : Carries document j (f ()) (f' ())) :
    CarriesFrom document s k (skip >>= f) (skip >>= f') := by
  obtain ⟨tokens, anchors⟩ := s
  cases hs
  intro a s' h
  obtain ⟨h', hpassed⟩ := hf ⟨rest, anchors⟩ a s' h
  exact ⟨h', hpassed.cons ht hdeepen⟩

end

theorem CarriesFrom.accept {t : Token} {f f' : Bool → TokenReader α}
    (hstart : t ≠ .documentStart) (ht : t ≠ .fault)
    (hdeepen : ∀ n, t.deepen (n + k) ≤ n + j)
    (htrue : Carries document j (f true) (f' true))
    (hfalse : CarriesFrom document s k (f false) (f' false)) :
    CarriesFrom document s k (accept t >>= f) (accept t >>= f') := by
  obtain ⟨tokens, anchors⟩ := s
  unfold TokenReader.accept
  rw [bind_assoc, bind_assoc]
  refine .peek ?_ fun t' rest hs => ?_
  · have hend : some Token.documentStart ≠ some t := fun h => hstart (Option.some.inj h).symm
    rw [if_neg nofun, if_neg hend, pure_bind, pure_bind]
    exact hfalse
  · by_cases heq : t' = t
    · cases heq
      rw [if_pos rfl, bind_assoc, bind_assoc]
      exact .skip hs ht hdeepen (by rwa [pure_bind, pure_bind])
    · have hother : some t' ≠ some t := fun h => heq (Option.some.inj h)
      rw [if_neg hother, pure_bind, pure_bind]
      exact hfalse

theorem CarriesFrom.sees {ends : List Token} {f f' : Bool → TokenReader α}
    (hstart : .documentStart ∉ ends)
    (htrue : ∀ t rest, s.tokens = t :: rest → t ∈ ends →
      CarriesFrom document s k (f true) (f' true))
    (hfalse : CarriesFrom document s k (f false) (f' false)) :
    CarriesFrom document s k (sees ends >>= f) (sees ends >>= f') := by
  unfold TokenReader.sees
  rw [bind_assoc, bind_assoc]
  refine .peek ?_ fun t rest hs => ?_
  · have hend : (some Token.documentStart).any (· ∈ ends) = false := by simpa using hstart
    rw [hend, pure_bind, pure_bind]
    exact hfalse
  · rw [pure_bind, pure_bind]
    by_cases ht : t ∈ ends
    · have hseen : (some t).any (· ∈ ends) = true := by simpa using ht
      rw [hseen]
      exact htrue t rest hs ht
    · have hseen : (some t).any (· ∈ ends) = false := by simpa using ht
      rw [hseen]
      exact hfalse

/-! ## Properties -/

theorem carries_addAnchor (name : String) :
    Carries document 0 (addAnchor name) (addAnchor name) := by
  refine fun s => .still fun n s₁ h => ?_
  cases h
  exact ⟨rfl, rfl⟩

theorem carries_anchor? : Carries document 0 anchor? anchor? := by
  intro s
  unfold anchor?
  refine .peek (.pure _) fun t rest hs => ?_
  split
  · next name hname =>
      cases hname
      exact .skip hs nofun (fun _ => Nat.le_refl _) fun s =>
        (carries_addAnchor name s).map _
  · exact .pure _

theorem carries_tag? (handles : TagHandles) :
    Carries document 0 (tag? handles) (tag? handles) := by
  intro s
  unfold tag?
  refine .peek (.pure _) fun t rest hs => ?_
  split
  · next handle suffix htag =>
      cases htag
      refine .skip hs nofun (fun _ => Nat.le_refl _) fun s => .map (.still fun tag s₁ h => ?_) _
      cases hresolve : handles.resolve? handle suffix with
      | none =>
          rw [hresolve] at h
          cases h
      | some tag' =>
          rw [hresolve] at h
          cases h
          exact ⟨rfl, rfl⟩
  · exact .pure _

theorem carries_props (handles : TagHandles) :
    Carries document 0 (props handles) (props handles) := by
  intro s
  unfold props
  refine (carries_anchor? s).andThen fun anchor s => ?_
  cases anchor with
  | some n => exact (carries_tag? handles s).map _
  | none =>
      refine (carries_tag? handles s).andThen fun tag s => ?_
      split
      · exact (carries_anchor? s).map _
      · exact .pure _

end TokenReader

namespace Node

open TokenReader

theorem carries_flowComma {document : List Token} (first : Bool) :
    Carries document 0 (flowComma first) (flowComma first) := by
  intro s
  cases first with
  | true => exact .pure ()
  | false =>
      exact .accept nofun nofun (fun _ => Nat.le_refl _) (fun _ => .pure ()) .failure

/-- The node that a name stands for. -/
def known (name : String) : TokenReader Node := do
  let n ← (← get).anchors.get? name
  return .reference n

/-- A node behind its properties, where `t` is the next token. -/
def contentAt (handles : TagHandles) (fuel : Nat) (place : Place) (props : Props) :
    Option Token → TokenReader Node
  | some (.scalar text plain) => do
      skip
      return .scalar props text plain
  | some .flowSequenceStart => do
      skip
      return .sequence props (← flowItems handles fuel true)
  | some .flowMappingStart => do
      skip
      return .mapping props (← flowEntries handles fuel true)
  | t => do
      if place = .entry ∧ t = some .blockEntry then
        return .sequence props (← bareItems handles fuel)
      else if place ≠ .flow ∧ t = some .blockSequenceStart then
        skip
        return .sequence props (← blockItems handles fuel)
      else if place ≠ .flow ∧ t = some .blockMappingStart then
        skip
        return .mapping props (← blockEntries handles fuel)
      else if props.isNone then failure
      else return .scalar props "" true

/-- A node that is no reference. -/
def own (handles : TagHandles) (fuel : Nat) (place : Place) : TokenReader Node := do
  contentAt handles fuel place (← props handles) (← peek)

theorem read_succ (handles : TagHandles) (fuel : Nat) (place : Place) :
    read handles (fuel + 1) place = (do
      match ← peek with
      | some (.reference name) => do
          skip
          known name
      | _ => own handles fuel place) := by
  rw [read]
  rfl

theorem contentAt_none (handles : TagHandles) (fuel : Nat) (place : Place) (props : Props) :
    contentAt handles fuel place props none
      = if props.isNone then failure else return .scalar props "" true := by
  simp [contentAt]

theorem contentAt_documentStart (handles : TagHandles) (fuel : Nat) (place : Place)
    (props : Props) : contentAt handles fuel place props (some .documentStart)
      = if props.isNone then failure else return .scalar props "" true := by
  simp [contentAt]

theorem run_known (name : String) (s : TokenState) :
    (known name).run s = (s.anchors.get? name).map fun n => (.reference n, s) := by
  unfold known
  cases hname : s.anchors.get? name <;> simp [hname]

theorem carries_known {document : List Token} (name : String) :
    Carries document 0 (known name) (known name) := by
  refine fun s => .still fun node s₁ h => ?_
  rw [run_known] at h ⊢
  obtain ⟨n, hname, heq⟩ := Option.map_eq_some_iff.mp h
  cases heq
  exact ⟨Option.map_eq_some_iff.mpr ⟨n, hname, rfl⟩, rfl⟩

/-- What is read with `fuel` is read with `fuel'` where a document follows. -/
structure ReadsOn (document : List Token) (handles : TagHandles) (fuel fuel' : Nat) :
    Prop where
  read (place : Place) :
    Carries document 0 (read handles fuel place) (read handles fuel' place)
  readUnless {ends : List Token} (h : .documentStart ∉ ends) (place : Place) :
    Carries document 0 (readUnless handles ends fuel place)
      (readUnless handles ends fuel' place)
  blockItems : Carries document 0 (blockItems handles fuel) (blockItems handles fuel')
  bareItems : Carries document 0 (bareItems handles fuel) (bareItems handles fuel')
  blockEntries : Carries document 0 (blockEntries handles fuel) (blockEntries handles fuel')
  flowValue (stop : Token) (h : stop ≠ .documentStart) :
    Carries document 0 (flowValue handles stop fuel) (flowValue handles stop fuel')
  flowItems (first : Bool) :
    Carries document 1 (flowItems handles fuel first) (flowItems handles fuel' first)
  flowEntries (first : Bool) :
    Carries document 1 (flowEntries handles fuel first) (flowEntries handles fuel' first)

namespace ReadsOn

variable {document : List Token} {handles : TagHandles} {fuel fuel' : Nat}

theorem zero : ReadsOn document handles 0 fuel' where
  read _ _ := by
    rw [Node.read]
    exact .failure
  readUnless _ _ _ := by
    rw [Node.readUnless]
    exact .failure
  blockItems _ := by
    rw [Node.blockItems]
    exact .failure
  bareItems _ := by
    rw [Node.bareItems]
    exact .failure
  blockEntries _ := by
    rw [Node.blockEntries]
    exact .failure
  flowValue _ _ _ := by
    rw [Node.flowValue]
    exact .failure
  flowItems _ _ := by
    rw [Node.flowItems]
    exact .failure
  flowEntries _ _ := by
    rw [Node.flowEntries]
    exact .failure

section

variable (ih : ReadsOn document handles fuel fuel')
include ih

theorem readUnless_succ {ends : List Token} (h : .documentStart ∉ ends) (place : Place) :
    Carries document 0 (Node.readUnless handles ends (fuel + 1) place)
      (Node.readUnless handles ends (fuel' + 1) place) := by
  intro s
  rw [Node.readUnless, Node.readUnless]
  exact .sees h (fun _ _ _ _ => .pure _) (ih.read place s)

theorem blockItems_succ : Carries document 0 (Node.blockItems handles (fuel + 1))
    (Node.blockItems handles (fuel' + 1)) := by
  intro s
  rw [Node.blockItems, Node.blockItems]
  refine .accept nofun nofun (fun _ => Nat.le_refl _) (fun s => ?_) ?_
  · exact (ih.readUnless (by decide) .block s).andThen fun item s => (ih.blockItems s).map _
  · exact .accept nofun nofun (fun _ => Nat.le_refl _) (fun _ => .pure _) .failure

theorem bareItems_succ : Carries document 0 (Node.bareItems handles (fuel + 1))
    (Node.bareItems handles (fuel' + 1)) := by
  intro s
  rw [Node.bareItems, Node.bareItems]
  refine .accept nofun nofun (fun _ => Nat.le_refl _) (fun s => ?_) (.pure _)
  exact (ih.readUnless (by decide) .block s).andThen fun item s => (ih.bareItems s).map _

theorem blockEntries_succ : Carries document 0 (Node.blockEntries handles (fuel + 1))
    (Node.blockEntries handles (fuel' + 1)) := by
  intro s
  rw [Node.blockEntries, Node.blockEntries]
  refine .accept nofun nofun (fun _ => Nat.le_refl _) (fun s => ?_) ?_
  · refine (ih.readUnless (by decide) .entry s).andThen fun k s => ?_
    refine .accept nofun nofun (fun _ => Nat.le_refl _) (fun s => ?_) ?_
    · exact (ih.readUnless (by decide) .entry s).andThen fun v s => (ih.blockEntries s).map _
    · exact (ih.blockEntries s).map _
  · exact .accept nofun nofun (fun _ => Nat.le_refl _) (fun _ => .pure _) .failure

theorem flowValue_succ (stop : Token) (h : stop ≠ .documentStart) :
    Carries document 0 (Node.flowValue handles stop (fuel + 1))
      (Node.flowValue handles stop (fuel' + 1)) := by
  intro s
  rw [Node.flowValue, Node.flowValue]
  have hends : Token.documentStart ∉ [Token.flowEntry, stop] := by
    simpa using h.symm
  exact .accept nofun nofun (fun _ => Nat.le_refl _) (ih.readUnless hends .flow) (.pure _)

theorem flowItems_succ (first : Bool) :
    Carries document 1 (Node.flowItems handles (fuel + 1) first)
      (Node.flowItems handles (fuel' + 1) first) := by
  intro s
  rw [Node.flowItems, Node.flowItems]
  refine .accept nofun nofun (fun _ => Nat.le_refl _) (fun _ => .pure _) ?_
  refine (carries_flowComma first s).andThen fun _ s => ?_
  refine .accept nofun nofun (fun _ => Nat.le_refl _) (fun _ => .pure _) ?_
  refine .accept nofun nofun (fun _ => Nat.le_refl _) (fun s => ?_) ?_
  · -- an item can be a mapping with one entry, of which this is what follows the key
    have hrest : ∀ k, Carries document 1
        (do
          let v ← Node.flowValue handles .flowSequenceEnd fuel
          return .mapping Props.none [(k, v)] :: (← Node.flowItems handles fuel false))
        (do
          let v ← Node.flowValue handles .flowSequenceEnd fuel'
          return .mapping Props.none [(k, v)] :: (← Node.flowItems handles fuel' false)) :=
      fun k s => (ih.flowValue _ (by decide) s).andThen fun v s => (ih.flowItems false s).map _
    refine .sees (by decide) (fun t rest hs ht => ?_) ((ih.read .flow s).andThen hrest)
    refine .skip hs ?_ ?_ (hrest empty)
    · rintro rfl
      exact absurd ht (by decide)
    · intro n
      simp only [List.mem_cons, List.not_mem_nil, or_false] at ht
      rcases ht with rfl | rfl | rfl <;> simp [Token.deepen]
  · exact (ih.read .flow s).andThen fun item s => (ih.flowItems false s).map _

theorem flowEntries_succ (first : Bool) :
    Carries document 1 (Node.flowEntries handles (fuel + 1) first)
      (Node.flowEntries handles (fuel' + 1) first) := by
  intro s
  rw [Node.flowEntries, Node.flowEntries]
  refine .accept nofun nofun (fun _ => Nat.le_refl _) (fun _ => .pure _) ?_
  refine (carries_flowComma first s).andThen fun _ s => ?_
  refine .accept nofun nofun (fun _ => Nat.le_refl _) (fun _ => .pure _) ?_
  refine .accept nofun nofun (fun _ => Nat.le_refl _) (fun s => ?_) ?_
  · refine (ih.readUnless (by decide) .flow s).andThen fun k s => ?_
    exact (ih.flowValue _ (by decide) s).andThen fun v s => (ih.flowEntries false s).map _
  · exact (ih.read .flow s).andThen fun k s => (ih.flowEntries false s).map _

theorem carries_contentAt {s : TokenState} (place : Place) (props : Props) {t : Token}
    {rest : List Token} (hs : s.tokens = t :: rest) : CarriesFrom document s 0
      (contentAt handles fuel place props (some t))
      (contentAt handles fuel' place props (some t)) := by
  -- only a scalar or the start of a collection is passed; the items come from the induction
  unfold contentAt
  split
  · next text plain hscalar =>
      cases hscalar
      exact .skip hs nofun (fun _ => Nat.le_refl _) fun _ => .pure _
  · next hstart =>
      cases hstart
      exact .skip hs nofun (fun _ => Nat.le_refl _) fun s => (ih.flowItems true s).map _
  · next hstart =>
      cases hstart
      exact .skip hs nofun (fun _ => Nat.le_refl _) fun s => (ih.flowEntries true s).map _
  · split
    · exact (ih.bareItems s).map _
    · split
      · next hblock =>
          obtain ⟨-, hstart⟩ := hblock
          cases hstart
          exact .skip hs nofun (fun _ => Nat.le_refl _) fun s => (ih.blockItems s).map _
      · split
        · next hblock =>
            obtain ⟨-, hstart⟩ := hblock
            cases hstart
            exact .skip hs nofun (fun _ => Nat.le_refl _) fun s => (ih.blockEntries s).map _
        · split
          · exact .failure
          · exact .pure _

theorem carries_own (place : Place) :
    Carries document 0 (own handles fuel place) (own handles fuel' place) := by
  intro s
  refine (carries_props handles s).andThen fun props s => .peek ?_ fun t rest hs => ?_
  · -- the start of a document begins no node either
    rw [contentAt_none, contentAt_documentStart]
    split
    · exact .failure
    · exact .pure _
  · exact ih.carries_contentAt place props hs

theorem read_succ (place : Place) : Carries document 0 (Node.read handles (fuel + 1) place)
    (Node.read handles (fuel' + 1) place) := by
  intro s
  rw [Node.read_succ, Node.read_succ]
  refine .peek (ih.carries_own place s) fun t rest hs => ?_
  split
  · next name hname =>
      cases hname
      exact .skip hs nofun (fun _ => Nat.le_refl _) (carries_known name)
  · exact ih.carries_own place s

theorem succ : ReadsOn document handles (fuel + 1) (fuel' + 1) where
  read := ih.read_succ
  readUnless := ih.readUnless_succ
  blockItems := ih.blockItems_succ
  bareItems := ih.bareItems_succ
  blockEntries := ih.blockEntries_succ
  flowValue := ih.flowValue_succ
  flowItems := ih.flowItems_succ
  flowEntries := ih.flowEntries_succ

end

/-- More fuel does no harm. -/
theorem of_le (h : fuel ≤ fuel') : ReadsOn document handles fuel fuel' := by
  induction fuel generalizing fuel' with
  | zero => exact .zero
  | succ fuel ih =>
      obtain ⟨fuel', rfl⟩ := Nat.exists_eq_succ_of_ne_zero (Nat.ne_of_gt (Nat.zero_lt_of_lt h))
      exact (ih (Nat.le_of_succ_le_succ h)).succ

end ReadsOn

end Node

end SimAnnotate.Yaml
