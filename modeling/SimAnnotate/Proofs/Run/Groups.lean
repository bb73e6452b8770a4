import SimAnnotate.Proofs.Catalog.Evolution
import SimAnnotate.Proofs.Run.Meaning

/-!
# Annotating the groups

One group after the other gets its references. Each step revises the document at
its own handle, so what a step leaves there is there in the end
(`get?_of_foldlM`). Over the documents as they are in the end, the same steps
come to the same again (`Follows.groupSteps`).
-/

namespace SimAnnotate

/-! ## The table of a policy -/

/-- The table of a policy that has one. -/
def ReferencePolicy.table? : ReferencePolicy → Option OffsetTable
  | .counter _ => none
  | .table t => some t

theorem References.table?_annotate {c : Catalog} {h : Handle} {rules : RuleSet}
    {policy : ReferencePolicy} {a : References.Annotated}
    (ha : References.annotate c h rules policy = .ok a) :
    a.policy.table? = policy.table? := by
  rw [annotate_eq] at ha
  obtain ⟨x, hx, rfl⟩ := Except.map_eq_ok.mp ha
  obtain ⟨-, -, channel, g, -, -, hreferred⟩ := of_referred hx
  rw [hreferred]
  cases policy <;> rfl

namespace Run

open References (isBinary referSignals placeSignal)

/-! ## One step -/

namespace Progress

/-- Skips a group. -/
def skip (p : Progress) (name : String) : Progress :=
  { p with summary := { p.summary with skipped := p.summary.skipped ++ [name] } }

/-- Takes over the references of the group at `h`, as which `d` was found. -/
def refer (p : Progress) (h : Handle) (d : Document) (r : References.Referred) : Progress :=
  ⟨p.catalog.revise h d (·.mapSignals fun _ => r.signals), r.policy,
    { p.summary with annotated := p.summary.annotated ++ [d.name] }⟩

end Progress

/-- Annotates one group, warnings apart. -/
def groupStep (rules : RuleSet) (p : Progress) (h : Handle) : Except Error Progress :=
  let name := ((p.catalog.get? h).map (·.name)).getD ""
  match References.annotate p.catalog h rules p.policy with
  | .ok a =>
      .ok ⟨a.catalog, a.policy,
        { p.summary with annotated := p.summary.annotated ++ [name] }⟩
  | .error (.unsupported _) => .ok (p.skip name)
  | .error e => .error e

theorem computes_annotateGroup (rules : RuleSet) (p : Progress) (h : Handle) :
    Computes (annotateGroup rules p h) (groupStep rules p h) := by
  unfold annotateGroup groupStep
  refine .warned ?_ _
  cases References.annotate p.catalog h rules p.policy with
  | ok a => exact computes_pure _
  | error e =>
      cases e with
      | unsupported u => exact (computes_pure _).warned _
      | _ => exact computes_throw _

/-- The groups that a run annotates can be annotated: there is one Stack, and the
handles address signal groups. -/
structure Ready (c : Catalog) (hs : List Handle) : Prop where
  stack : ∃ d, c.stackDocument = .ok d
  group : ∀ h ∈ hs, ∃ d g, c.get? h = some d ∧ d.signalGroup? = some g

theorem Ready.channel? {c : Catalog} {hs : List Handle} (hc : Ready c hs)
    (policy : ReferencePolicy) (d : Document) :
    ∃ channel, References.channel? c policy d = .ok channel := by
  cases policy with
  | counter last => exact ⟨none, rfl⟩
  | table t => exact Wiring.exists_channel? hc.stack d

theorem Ready.evolves {c c' : Catalog} {hs hs' : List Handle} (hc : Ready c hs)
    (he : Catalog.Evolves hs' c c') : Ready c' hs := by
  refine ⟨Catalog.exists_stackDocument_congr (he.documents_outline .stack) hc.stack,
    fun h hh => ?_⟩
  obtain ⟨d, g, hd, hg⟩ := hc.group h hh
  have houtline := he.outlines h
  rw [hd, Option.map_some, Option.map_eq_some_iff] at houtline
  obtain ⟨d', hd', houtline⟩ := houtline
  have hgroup := congrArg Document.signalGroup? houtline
  rw [Document.signalGroup?_outline, Document.signalGroup?_outline, hg, Option.map_some,
    Option.map_eq_some_iff] at hgroup
  obtain ⟨g', hg', -⟩ := hgroup
  exact ⟨d', g', hd', hg'⟩

section

variable {rules : RuleSet} {p p' : Progress} {h : Handle} {d : Document} {g : SignalGroup}

/-- What a step does to a signal group. -/
theorem groupStep_eq (hd : p.catalog.get? h = some d) (hg : d.signalGroup? = some g)
    {channel : Option String}
    (hchannel : References.channel? p.catalog p.policy d = .ok channel) :
    groupStep rules p h = .ok (if isBinary d then p.skip d.name
      else p.refer h d (referSignals rules channel g.signals p.policy)) := by
  unfold groupStep
  rw [References.annotate_of_get? hd hg, hchannel, hd]
  by_cases hbinary : isBinary d = true
  · rw [if_pos hbinary, if_pos hbinary]
    rfl
  · rw [if_neg hbinary, if_neg hbinary]
    rfl

/-- A step revises the document at its handle at most. -/
theorem evolves_of_groupStep (hstep : groupStep rules p h = .ok p') :
    Catalog.Evolves [h] p.catalog p'.catalog := by
  unfold groupStep at hstep
  split at hstep
  · next a ha =>
      cases hstep
      exact .annotate ha
  · cases hstep
    exact .mono (.refl p.catalog) (List.nil_subset _)
  · cases hstep

end

/-! ## The groups that take part -/

/-- The groups among `hs` that are annotated: those that are not binary, if there
are rules. -/
def participants (rules? : Option RuleSet) (c : Catalog) (hs : List Handle) : List Handle :=
  match rules? with
  | some _ => hs.filter fun h => !(c.get? h).any isBinary
  | none => []

theorem participants_cons (rules : RuleSet) (c : Catalog) (h : Handle) (hs : List Handle) :
    participants (some rules) c (h :: hs)
      = participants (some rules) c [h] ++ participants (some rules) c hs := by
  rw [participants, participants, participants, ← List.filter_append]
  rfl

theorem mem_participants {rules? : Option RuleSet} {c : Catalog} {hs : List Handle}
    {h : Handle} (hh : h ∈ participants rules? c hs) :
    (∃ rules, rules? = some rules) ∧ h ∈ hs ∧ ∀ d, c.get? h = some d → isBinary d = false := by
  cases rules? with
  | none => cases hh
  | some rules =>
      obtain ⟨hmem, hbinary⟩ := List.mem_filter.mp hh
      refine ⟨⟨rules, rfl⟩, hmem, fun d hd => ?_⟩
      rw [hd] at hbinary
      simpa using hbinary

theorem participants_subset (rules? : Option RuleSet) (c : Catalog) (hs : List Handle) :
    participants rules? c hs ⊆ hs := fun _ hh => (mem_participants hh).2.1

/-- Documents keep their metadata from `c` to `c'`. -/
def KeepsMetadata (c c' : Catalog) : Prop :=
  ∀ h, (c'.get? h).map (·.metadata) = (c.get? h).map (·.metadata)

theorem participants_congr {c c' : Catalog} (h : KeepsMetadata c c')
    (rules? : Option RuleSet) (hs : List Handle) :
    participants rules? c' hs = participants rules? c hs := by
  have hbinary : ∀ o : Option Document, o.any isBinary
      = (o.map (·.metadata)).any fun m =>
        m.annotations.string? References.encodingKey == some "binary" := by
    intro o
    cases o <;> rfl
  cases rules? with
  | none => rfl
  | some rules =>
      refine List.filter_congr fun h' _ => ?_
      rw [hbinary, h h', ← hbinary]

/-- A step revises the signals of a group that takes part. -/
theorem participants_of_groupStep {rules : RuleSet} {p p' : Progress} {h : Handle}
    (hready : Ready p.catalog [h]) (hstep : groupStep rules p h = .ok p') :
    Catalog.Evolves (participants (some rules) p.catalog [h]) p.catalog p'.catalog
      ∧ KeepsMetadata p.catalog p'.catalog := by
  have he := evolves_of_groupStep hstep
  obtain ⟨d, g, hd, hg⟩ := hready.group h (List.mem_singleton_self h)
  obtain ⟨channel, hchannel⟩ := hready.channel? p.policy d
  rw [groupStep_eq hd hg hchannel] at hstep
  cases hstep
  -- a binary group takes no part and is left
  by_cases hbinary : isBinary d = true
  · rw [if_pos hbinary]
    exact ⟨.mono (.refl p.catalog) (List.nil_subset _), fun _ => rfl⟩
  · rw [if_neg hbinary] at he ⊢
    have hself : participants (some rules) p.catalog [h] = [h] := by
      rw [participants, List.filter_singleton, hd]
      simp [hbinary]
    rw [hself]
    refine ⟨he, fun h' => ?_⟩
    rw [Progress.refer, Catalog.get?_revise]
    by_cases heq : h' = h
    · rw [heq, Catalog.get?_modify_self, hd]
      simp
    · rw [p.catalog.get?_modify_ne heq]

/-! ## All steps -/

section

variable {rules : RuleSet} {p p' : Progress} {hs : List Handle}

theorem Ready.tail {c : Catalog} {h : Handle} (hc : Ready c (h :: hs)) : Ready c hs :=
  ⟨hc.stack, fun h' hh => hc.group h' (List.mem_cons_of_mem h hh)⟩

theorem Ready.head {c : Catalog} {h : Handle} (hc : Ready c (h :: hs)) : Ready c [h] := by
  refine ⟨hc.stack, fun h' hh => ?_⟩
  rw [List.mem_singleton.mp hh]
  exact hc.group h List.mem_cons_self

/-- All steps revise the signals of the groups that take part. -/
theorem participants_of_foldlM (hready : Ready p.catalog hs)
    (hrun : hs.foldlM (groupStep rules) p = .ok p') :
    Catalog.Evolves (participants (some rules) p.catalog hs) p.catalog p'.catalog
      ∧ KeepsMetadata p.catalog p'.catalog := by
  induction hs generalizing p with
  | nil =>
      cases hrun
      exact ⟨.refl _, fun _ => rfl⟩
  | cons h rest ih =>
      rw [List.foldlM_cons] at hrun
      obtain ⟨p₁, hstep, hrun⟩ := Except.bind_eq_ok.mp hrun
      obtain ⟨he, hkeeps⟩ := participants_of_groupStep hready.head hstep
      have he₁ := he.mono (participants_subset _ _ _)
      obtain ⟨he', hkeeps'⟩ := ih (hready.tail.evolves he₁) hrun
      rw [participants_congr hkeeps] at he'
      rw [participants_cons]
      exact ⟨he.trans he', fun h' => (hkeeps' h').trans (hkeeps h')⟩

theorem evolves_of_foldlM (hready : Ready p.catalog hs)
    (hrun : hs.foldlM (groupStep rules) p = .ok p') :
    Catalog.Evolves hs p.catalog p'.catalog :=
  (participants_of_foldlM hready hrun).1.mono (participants_subset _ _ _)

/-- Groups that can be annotated are. -/
theorem exists_foldlM (hready : Ready p.catalog hs) :
    ∃ p', hs.foldlM (groupStep rules) p = .ok p' := by
  induction hs generalizing p with
  | nil => exact ⟨p, rfl⟩
  | cons h rest ih =>
      obtain ⟨d, g, hd, hg⟩ := hready.group h List.mem_cons_self
      obtain ⟨channel, hchannel⟩ := hready.channel? p.policy d
      obtain ⟨p₁, hstep⟩ : ∃ p₁, groupStep rules p h = .ok p₁ :=
        ⟨_, groupStep_eq hd hg hchannel⟩
      have he := evolves_of_groupStep hstep
      obtain ⟨p', hrun⟩ := ih (hready.tail.evolves he)
      exact ⟨p', by rw [List.foldlM_cons, hstep, Except.ok_bind, hrun]⟩

/-- Steps keep the table. -/
theorem table?_of_foldlM (hrun : hs.foldlM (groupStep rules) p = .ok p') :
    p'.policy.table? = p.policy.table? := by
  induction hs generalizing p with
  | nil =>
      cases hrun
      rfl
  | cons h rest ih =>
      rw [List.foldlM_cons] at hrun
      obtain ⟨p₁, hstep, hrun⟩ := Except.bind_eq_ok.mp hrun
      refine (ih hrun).trans ?_
      unfold groupStep at hstep
      split at hstep
      · next a ha =>
          cases hstep
          exact References.table?_annotate ha
      · cases hstep
        rfl
      · cases hstep

/-- Steps that take references from a table place the signals of each group. -/
theorem get?_of_foldlM {t : OffsetTable} (hready : Ready p.catalog hs)
    (hnodup : hs.Nodup) (hpolicy : p.policy = .table t)
    (hrun : hs.foldlM (groupStep rules) p = .ok p') {h : Handle} (hh : h ∈ hs)
    {d : Document} (hd : p.catalog.get? h = some d) (hbinary : isBinary d = false) :
    ∃ channel, Wiring.channel? p.catalog d = .ok channel
      ∧ p'.catalog.get? h = some (d.mapSignals (·.map (placeSignal rules t channel))) := by
  induction hs generalizing p with
  | nil => exact absurd hh List.not_mem_nil
  | cons h₁ rest ih =>
      rw [List.nodup_cons] at hnodup
      rw [List.foldlM_cons] at hrun
      obtain ⟨p₁, hstep, hrun⟩ := Except.bind_eq_ok.mp hrun
      have he := evolves_of_groupStep hstep
      obtain ⟨d₁, g, hd₁, hg⟩ := hready.group h₁ List.mem_cons_self
      obtain ⟨channel, hchannel⟩ := hready.channel? p.policy d₁
      rw [groupStep_eq hd₁ hg hchannel] at hstep
      cases hstep
      rw [hpolicy] at hchannel hrun he
      rcases List.mem_cons.mp hh with rfl | hh
      · rw [hd] at hd₁
        cases hd₁
        -- the steps behind leave this group
        have hrest := evolves_of_foldlM (hready.tail.evolves he) hrun
        refine ⟨channel, hchannel, ?_⟩
        rw [hrest.kept h hnodup.1, hbinary, if_neg Bool.false_ne_true, Progress.refer,
          Catalog.get?_revise, Catalog.get?_modify_self, hd, Option.map_some]
        exact congrArg some (Document.mapSignals_congr d fun g' hg' => by
          rw [hg] at hg'
          cases hg'
          rfl)
      · have hne : h ∉ [h₁] := fun hmem =>
          hnodup.1 (List.mem_singleton.mp hmem ▸ hh)
        have hd' := (he.kept h hne).trans hd
        have hpolicy' : (if isBinary d₁ then p.skip d₁.name
            else p.refer h₁ d₁ (referSignals rules channel g.signals (.table t))).policy
              = .table t := by
          split
          · exact hpolicy
          · rfl
        obtain ⟨channel', hchannel', hget⟩ :=
          ih (hready.tail.evolves he) hnodup.2 hpolicy' hrun hh hd'
        exact ⟨channel', (he.channel? (Eq.refl _)).symm.trans hchannel', hget⟩

end

/-! ## The same steps once more -/

/-- `q` has come as far as `p`, over the documents of `c`. -/
structure Follows (c : Catalog) (p q : Progress) : Prop where
  documents : ∀ h, q.catalog.get? h = c.get? h
  records : q.catalog.records = p.catalog.records
  flagged : q.catalog.flagged = p.catalog.flagged
  policy : q.policy = p.policy
  summary : q.summary = p.summary

namespace Follows

variable {rules : RuleSet} {c : Catalog} {p p' q : Progress} {hs later : List Handle}

/-- Groups are wired in both alike. -/
theorem channel? (f : Follows c p q) (he : Catalog.Evolves hs p.catalog c) {d d' : Document}
    (hd : d'.outline = d.outline) :
    References.channel? q.catalog q.policy d' = References.channel? p.catalog p.policy d := by
  have houtlines : ∀ h, (q.catalog.get? h).map Document.outline
      = (p.catalog.get? h).map Document.outline := fun h => by
    rw [f.documents h, he.outlines h]
  rw [f.policy]
  cases p.policy with
  | counter last => rfl
  | table t =>
      have hdocs := Catalog.map_documents_congr houtlines
      exact Wiring.channel?_congr (hdocs .stack) (hdocs .model) hd

theorem skip (f : Follows c p q) (name : String) : Follows c (p.skip name) (q.skip name) :=
  { f with
    summary := congrArg (fun s => { s with skipped := s.skipped ++ [name] }) f.summary }

/-- A group that gets the signals that it has. -/
theorem refer (f : Follows c p q) {h : Handle} {d : Document} {r r' : References.Referred}
    (hd : q.catalog.get? h = some (d.mapSignals fun _ => r.signals))
    (hsignals : r'.signals = r.signals) (hpolicy : r'.policy = r.policy) :
    Follows c (p.refer h d r) (q.refer h (d.mapSignals fun _ => r.signals) r') where
  documents h' := by
    rw [Progress.refer, Catalog.get?_revise, ← f.documents h']
    by_cases heq : h' = h
    · rw [heq, Catalog.get?_modify_self, hd, Option.map_some, Document.mapSignals_mapSignals,
        hsignals]
    · exact q.catalog.get?_modify_ne heq _
  records := by
    rw [Progress.refer, Progress.refer, Catalog.records_revise, Catalog.records_revise,
      f.records]
  flagged := Catalog.flagged_revise_congr f.records f.flagged (d.file_mapSignals _) h _ _
  policy := hpolicy
  summary := by
    rw [Progress.refer, Progress.refer, f.summary, Document.name_mapSignals]

/-- Over the documents that a step leaves, the same step comes to the same. -/
theorem groupStep (hstable : rules.Stable) (f : Follows c p q)
    (he : Catalog.Evolves hs p.catalog c) {h : Handle} (hready : Ready p.catalog [h])
    (hstep : groupStep rules p h = .ok p') (hkept : c.get? h = p'.catalog.get? h) :
    ∃ q', Run.groupStep rules q h = .ok q' ∧ Follows c p' q' := by
  obtain ⟨d, g, hd, hg⟩ := hready.group h (List.mem_singleton_self h)
  obtain ⟨channel, hchannel⟩ := hready.channel? p.policy d
  rw [groupStep_eq hd hg hchannel] at hstep
  cases hstep
  by_cases hbinary : isBinary d = true
  · rw [if_pos hbinary] at hkept ⊢
    have hd' : q.catalog.get? h = some d := by
      rw [f.documents h, hkept]
      exact hd
    have hchannel' := (f.channel? he (Eq.refl d.outline)).trans hchannel
    rw [groupStep_eq hd' hg hchannel', if_pos hbinary]
    exact ⟨_, rfl, f.skip d.name⟩
  · rw [if_neg hbinary] at hkept ⊢
    generalize hr : referSignals rules channel g.signals p.policy = r at hkept ⊢
    have hagain := References.referSignals_again hstable channel g.signals p.policy
    rw [hr] at hagain
    have houtline : (d.mapSignals fun _ => r.signals).outline = d.outline := by
      subst hr
      exact Document.outline_mapSignals hg (References.outline_referSignals _ _ _ _)
    -- the group as the first step has left it
    have hd' : q.catalog.get? h = some (d.mapSignals fun _ => r.signals) := by
      rw [f.documents h, hkept, Progress.refer, Catalog.get?_revise,
        Catalog.get?_modify_self, hd, Option.map_some]
    have hg' : (d.mapSignals fun _ => r.signals).signalGroup?
        = some { g with signals := r.signals } := by
      rw [Document.signalGroup?_mapSignals, hg, Option.map_some]
    have hbinary' : isBinary (d.mapSignals fun _ => r.signals) = isBinary d := by
      rw [isBinary, isBinary, Document.metadata_mapSignals]
    have hchannel' := (f.channel? he houtline).trans hchannel
    rw [groupStep_eq hd' hg' hchannel', hbinary', if_neg hbinary, f.policy]
    exact ⟨_, rfl, f.refer hd' hagain.1 hagain.2⟩

/-- Over the documents that all steps leave, the same steps come to the same. -/
theorem foldlM (hstable : rules.Stable) (f : Follows c p q)
    (hready : Ready p.catalog hs) (hnodup : hs.Nodup)
    (hrun : hs.foldlM (Run.groupStep rules) p = .ok p')
    (hlater : Catalog.Evolves later p'.catalog c) (hdisjoint : ∀ h ∈ hs, h ∉ later) :
    ∃ q', hs.foldlM (Run.groupStep rules) q = .ok q' ∧ Follows c p' q' := by
  induction hs generalizing p q with
  | nil =>
      cases hrun
      exact ⟨q, rfl, f⟩
  | cons h rest ih =>
      rw [List.nodup_cons] at hnodup
      rw [List.foldlM_cons] at hrun ⊢
      obtain ⟨p₁, hstep, hrun⟩ := Except.bind_eq_ok.mp hrun
      have he := evolves_of_groupStep hstep
      have hrest := evolves_of_foldlM (hready.tail.evolves he) hrun
      -- no later step of the first run comes to this group again
      have hkept : c.get? h = p₁.catalog.get? h := by
        rw [hlater.kept h (hdisjoint h List.mem_cons_self), hrest.kept h hnodup.1]
      obtain ⟨q₁, hstep', f₁⟩ :=
        f.groupStep hstable ((he.trans hrest).trans hlater) hready.head hstep hkept
      obtain ⟨q', hrun', f'⟩ := ih f₁ (hready.tail.evolves he) hnodup.2 hrun
        fun h hh => hdisjoint h (List.mem_cons_of_mem _ hh)
      exact ⟨q', Except.bind_eq_ok.mpr ⟨q₁, hstep', hrun'⟩, f'⟩

end Follows

/-! ## With or without rules -/

/-- Annotates groups, if there are rules, warnings apart. -/
def groupSteps (rules? : Option RuleSet) (handles : List Handle) (p : Progress) :
    Except Error Progress :=
  match rules? with
  | some rules => handles.foldlM (groupStep rules) p
  | none => .ok p

theorem computes_annotateGroups (rules? : Option RuleSet) (handles : List Handle)
    (p : Progress) : Computes (annotateGroups rules? handles p)
      (groupSteps rules? handles p) := by
  cases rules? with
  | none => exact computes_pure p
  | some rules => exact computes_foldlM (computes_annotateGroup rules) handles p

theorem exists_groupSteps (rules? : Option RuleSet) {hs : List Handle} {p : Progress}
    (hready : Ready p.catalog hs) : ∃ p', groupSteps rules? hs p = .ok p' := by
  cases rules? with
  | none => exact ⟨p, rfl⟩
  | some rules => exact exists_foldlM hready

section

variable {rules? : Option RuleSet} {hs : List Handle} {p p' : Progress}
  (hrun : groupSteps rules? hs p = .ok p')

include hrun

theorem participants_of_groupSteps (hready : Ready p.catalog hs) :
    Catalog.Evolves (participants rules? p.catalog hs) p.catalog p'.catalog
      ∧ KeepsMetadata p.catalog p'.catalog := by
  cases rules? with
  | none =>
      cases hrun
      exact ⟨.refl _, fun _ => rfl⟩
  | some rules => exact participants_of_foldlM hready hrun

theorem evolves_of_groupSteps (hready : Ready p.catalog hs) :
    Catalog.Evolves hs p.catalog p'.catalog :=
  (participants_of_groupSteps hrun hready).1.mono (participants_subset _ _ _)

theorem table?_of_groupSteps : p'.policy.table? = p.policy.table? := by
  cases rules? with
  | none =>
      cases hrun
      rfl
  | some rules => exact table?_of_foldlM hrun

theorem Follows.groupSteps (hstable : ∀ rules ∈ rules?, rules.Stable) {c : Catalog}
    {q : Progress} (f : Follows c p q) (hready : Ready p.catalog hs) (hnodup : hs.Nodup)
    {later : List Handle} (hlater : Catalog.Evolves later p'.catalog c)
    (hdisjoint : ∀ h ∈ hs, h ∉ later) :
    ∃ q', Run.groupSteps rules? hs q = .ok q' ∧ Follows c p' q' := by
  cases rules? with
  | none =>
      cases hrun
      exact ⟨q, rfl, f⟩
  | some rules => exact f.foldlM (hstable rules rfl) hready hnodup hrun hlater hdisjoint

end

end Run

end SimAnnotate
