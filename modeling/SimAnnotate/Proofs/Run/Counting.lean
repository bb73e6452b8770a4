import Mathlib.Algebra.GroupWithZero.Nat
import SimAnnotate.Proofs.Run.Index

/-!
# Counting references

Calls that give references from one counter share it, together with the catalog
(`Shared`). Over any sequence of calls the references that are written are the
numbers from one on, in the order of the calls and of the signals in a group; a
call that fails and a signal that is neither input nor output take no number
(`Shared.counts_calls`). A run without an offset table is such a sequence over
the selected groups, with one call for each.
-/

namespace SimAnnotate.Run

open References (referenceKey qualifies isBinary countSignals referSignals refer)
open Yaml (Value)

/-! ## Calls -/

/-- Wants references for the signal group at a handle. -/
structure Call where
  handle : Handle
  rules : RuleSet

/-- What calls have in common. -/
structure Shared where
  catalog : Catalog
  policy : ReferencePolicy

/-- How many references a call gives, or why it fails, and what there is then. A
call that fails leaves what there was. -/
def Shared.call (s : Shared) (x : Call) : Except Error Nat × Shared :=
  match References.annotate s.catalog x.handle x.rules s.policy with
  | .ok a => (.ok a.count, ⟨a.catalog, a.policy⟩)
  | .error e => (.error e, s)

/-- A call that was made, between what there was and what there is then. -/
structure Made where
  call : Call
  before : Shared
  outcome : Except Error Nat
  after : Shared

/-- Makes calls one after the other. -/
def Shared.calls : Shared → List Call → List Made × Shared
  | s, [] => ([], s)
  | s, x :: rest =>
      let r := s.call x
      let more := r.2.calls rest
      (⟨x, s, r.1, r.2⟩ :: more.1, more.2)

/-! ## What is written -/

/-- The references of signals, in order: for each that is an input or an output
after the rules, what it says as its reference then. -/
def signalReferences (rules : RuleSet) (before after : List Signal) : List (Option Value) :=
  ((before.zip after).filter fun x => qualifies (rules.apply x.1.annotations)).map
    fun x => x.2.annotations.get? referenceKey

/-- The references of a signal group. A binary one has none. -/
def references (rules : RuleSet) (before after : Option Document) : List (Option Value) :=
  match before, after with
  | some d, some d' =>
      if isBinary d then [] else signalReferences rules (signals d) (signals d')
  | _, _ => []

/-- Consecutive numbers as references. -/
def numbers (first count : Nat) : List (Option Value) :=
  (List.range' first count).map fun n => some (.ofNat n)

/-- What becomes of a signal: the rules are applied, and an input or output gets a
reference. -/
def Counted (rules : RuleSet) (s s' : Signal) : Prop :=
  if qualifies (rules.apply s.annotations) then ∃ n, s' = refer (rules.applySignal s) n
  else s' = rules.applySignal s

namespace Made

variable (m : Made)

def references : List (Option Value) :=
  Run.references m.call.rules (m.before.catalog.get? m.call.handle)
    (m.after.catalog.get? m.call.handle)

/-- The count of a call that succeeds. -/
def count : Nat := m.outcome.toOption.getD 0

/-- What one call comes to. -/
structure Counts : Prop where
  succeeds : (∃ n, m.outcome = .ok n) ↔ ∃ d, m.before.catalog.get? m.call.handle = some d
    ∧ isBinary d = false ∧ d.signalGroup?.isSome
  failed : ∀ e, m.outcome = .error e → m.after = m.before
  count : m.references.length = m.count
  signals : ∀ n, m.outcome = .ok n → List.Forall₂ (Counted m.call.rules)
    (((m.before.catalog.get? m.call.handle).map Run.signals).getD [])
    (((m.after.catalog.get? m.call.handle).map Run.signals).getD [])
  others : ∀ h, h ≠ m.call.handle → m.after.catalog.get? h = m.before.catalog.get? h

end Made

/-! ## One group -/

theorem numbers_succ (first count : Nat) :
    numbers first (count + 1) = some (.ofNat first) :: numbers (first + 1) count := rfl

theorem numbers_append (first m n : Nat) :
    numbers first m ++ numbers (first + m) n = numbers first (m + n) := by
  rw [numbers, numbers, ← List.map_append, List.range'_append_1, numbers]

theorem length_numbers (first count : Nat) : (numbers first count).length = count := by
  rw [numbers, List.length_map, List.length_range']

theorem nodup_numbers (first count : Nat) : (numbers first count).Nodup := by
  have hrange : (List.range' first count).Nodup := List.nodup_range'
  refine hrange.map fun m n h => ?_
  have hint : (m : Int) = n := by simpa [Value.ofNat] using h
  omega

section

variable (rules : RuleSet) (last : Nat) (ss : List Signal)

theorem countSignals_snd : (countSignals rules last ss).2
    = last + ss.countP fun s => qualifies (rules.apply s.annotations) := by
  induction ss generalizing last with
  | nil => rfl
  | cons s rest ih =>
      rw [References.countSignals_cons, List.countP_cons]
      dsimp only
      rw [ih]
      split <;> omega

/-- The inputs and outputs of a group get consecutive numbers. -/
theorem signalReferences_countSignals :
    signalReferences rules ss (countSignals rules last ss).1
      = numbers (last + 1) (ss.countP fun s => qualifies (rules.apply s.annotations)) := by
  induction ss generalizing last with
  | nil => rfl
  | cons s rest ih =>
      rw [References.countSignals_cons, List.countP_cons]
      unfold signalReferences at ih ⊢
      dsimp only
      rw [List.zip_cons_cons, List.filter_cons]
      by_cases hs : qualifies (rules.apply s.annotations) = true
      · have hget := (References.get?_given rules s (n := last + 1) hs).1
        rw [if_pos hs, if_pos hs, if_pos hs, List.map_cons, ih, hget, numbers_succ]
      · rw [if_neg hs, if_neg hs, if_neg hs, ih]
        rfl

theorem counted_countSignals :
    List.Forall₂ (Counted rules) ss (countSignals rules last ss).1 := by
  induction ss generalizing last with
  | nil => exact .nil
  | cons s rest ih =>
      rw [References.countSignals_cons]
      refine .cons ?_ (ih _)
      unfold Counted
      split
      · next h => exact ⟨last + 1, if_pos h⟩
      · next h => exact if_neg h

end

/-! ## One call -/

namespace Shared

variable {s : Shared} {x : Call}

/-- There is no group to refer to at a handle, or it is binary. -/
def Refused (c : Catalog) (h : Handle) : Prop :=
  ∀ d, c.get? h = some d → isBinary d = true ∨ d.signalGroup? = none

theorem not_refused {c : Catalog} {h : Handle} {d : Document} (hd : c.get? h = some d)
    (hbinary : isBinary d = false) (hg : d.signalGroup?.isSome = true) : ¬Refused c h := by
  intro hrefused
  rcases hrefused d hd with h | h
  · rw [hbinary] at h
    cases h
  · rw [h] at hg
    cases hg

theorem call_of_error {e : Error}
    (he : References.referred s.catalog x.handle x.rules s.policy = .error e) :
    s.call x = (.error e, s) := by
  rw [call, References.annotate_eq, he]
  rfl

theorem call_of_referred {r : Document × References.Referred}
    (hr : References.referred s.catalog x.handle x.rules s.policy = .ok r) :
    s.call x = (.ok r.2.count,
      ⟨s.catalog.revise x.handle r.1 (·.mapSignals fun _ => r.2.signals), r.2.policy⟩) := by
  rw [call, References.annotate_eq, hr]
  rfl

/-- A call fails and changes nothing, or it revises a group. A counter fails it only
where the group is refused. -/
theorem call_cases (s : Shared) (x : Call) :
    (∃ e, s.call x = (.error e, s)
        ∧ ∀ n, s.policy = .counter n → Refused s.catalog x.handle)
      ∨ ∃ d g channel, s.catalog.get? x.handle = some d ∧ isBinary d = false
        ∧ d.signalGroup? = some g
        ∧ s.call x = (.ok (referSignals x.rules channel g.signals s.policy).count,
          ⟨s.catalog.revise x.handle d (·.mapSignals fun _ =>
              (referSignals x.rules channel g.signals s.policy).signals),
            (referSignals x.rules channel g.signals s.policy).policy⟩) := by
  cases hr : References.referred s.catalog x.handle x.rules s.policy with
  | ok r =>
      obtain ⟨hd, hbinary, channel, g, -, hg, hreferred⟩ := References.of_referred hr
      refine .inr ⟨r.1, g, channel, hd, hbinary, hg, ?_⟩
      rw [call_of_referred hr, hreferred]
  | error e =>
      refine .inl ⟨e, call_of_error hr, ?_⟩
      intro n hpolicy d hd
      -- a counter takes no channel, so the reason is the document itself
      unfold References.referred at hr
      rw [hd, hpolicy] at hr
      cases hbinary : isBinary d with
      | true => exact .inl rfl
      | false =>
          cases hg : d.signalGroup? with
          | none => exact .inr rfl
          | some g =>
              simp [hbinary, hg, References.channel?] at hr

/-- A call leaves the documents at other handles. -/
theorem get?_call_ne (s : Shared) (x : Call) {h : Handle} (hne : h ≠ x.handle) :
    (s.call x).2.catalog.get? h = s.catalog.get? h := by
  rcases s.call_cases x with ⟨e, hcall, -⟩ | ⟨d, g, channel, -, -, -, hcall⟩
  · rw [hcall]
  · rw [hcall, Catalog.get?_revise, Catalog.get?_modify_ne _ hne]

/-- A call changes nothing where it is refused. -/
theorem call_of_refused (hrefused : Refused s.catalog x.handle) : (s.call x).2 = s := by
  rcases s.call_cases x with ⟨e, hcall, -⟩ | ⟨d, g, channel, hd, hbinary, hg, -⟩
  · rw [hcall]
  · exact absurd hrefused (not_refused hd hbinary (Option.isSome_of_mem hg))

/-- Where there is no group, or a binary one, there are no references. -/
theorem references_of_refused {c : Catalog} {h : Handle} (hrefused : Refused c h)
    (rules : RuleSet) (after : Option Document) : references rules (c.get? h) after = [] := by
  unfold references
  split
  · next d d' hd =>
      split
      · rfl
      · next hbinary =>
          have hsignals : signals d = [] := by
            rw [signals, (hrefused d hd).resolve_left hbinary]
            rfl
          rw [hsignals]
          rfl
  · rfl

/-- A call that fails writes nothing. -/
theorem counts_failed {n : Nat} (hpolicy : s.policy = .counter n) {e : Error}
    (hcall : s.call x = (.error e, s)) (hrefused : Refused s.catalog x.handle) :
    let m : Made := ⟨x, s, (s.call x).1, (s.call x).2⟩
    m.references = numbers (n + 1) m.count ∧ m.after.policy = .counter (n + m.count)
      ∧ m.Counts := by
  dsimp only
  rw [hcall]
  have hreferences : (⟨x, s, .error e, s⟩ : Made).references = [] :=
    references_of_refused hrefused x.rules _
  refine ⟨hreferences, hpolicy, ⟨?_, fun _ _ => rfl, ?_, fun n hn => ?_, fun _ _ => rfl⟩⟩
  · exact ⟨nofun, fun ⟨d, hd, hbinary, hg⟩ => absurd hrefused (not_refused hd hbinary hg)⟩
  · rw [hreferences]
    rfl
  · cases hn

/-- A call for a group counts its inputs and outputs. -/
theorem counts_referred {n : Nat} {d : Document} {g : SignalGroup}
    (hd : s.catalog.get? x.handle = some d) (hbinary : isBinary d = false)
    (hg : d.signalGroup? = some g)
    (hcall : s.call x = (.ok ((countSignals x.rules n g.signals).2 - n),
      ⟨s.catalog.revise x.handle d
          (·.mapSignals fun _ => (countSignals x.rules n g.signals).1),
        .counter (countSignals x.rules n g.signals).2⟩)) :
    let m : Made := ⟨x, s, (s.call x).1, (s.call x).2⟩
    m.references = numbers (n + 1) m.count ∧ m.after.policy = .counter (n + m.count)
      ∧ m.Counts := by
  have hothers := fun h => s.get?_call_ne x (h := h)
  have hlast := countSignals_snd x.rules n g.signals
  have hcount : (countSignals x.rules n g.signals).2 - n
      = g.signals.countP fun s => qualifies (x.rules.apply s.annotations) := by
    omega
  have hget : (s.catalog.revise x.handle d
      (·.mapSignals fun _ => (countSignals x.rules n g.signals).1)).get? x.handle
      = some (d.mapSignals fun _ => (countSignals x.rules n g.signals).1) := by
    rw [Catalog.get?_revise, Catalog.get?_modify_self, hd, Option.map_some]
  have hsignals : signals (d.mapSignals fun _ => (countSignals x.rules n g.signals).1)
      = (countSignals x.rules n g.signals).1 := by
    rw [signals, Document.signalGroup?_mapSignals, hg]
    rfl
  dsimp only
  rw [hcall, hcount] at hothers ⊢
  -- of the new catalog nothing else is used
  generalize s.catalog.revise x.handle d
    (·.mapSignals fun _ => (countSignals x.rules n g.signals).1) = c at hget hothers
  have hreferences : references x.rules (s.catalog.get? x.handle) (c.get? x.handle)
      = numbers (n + 1) (g.signals.countP fun s => qualifies (x.rules.apply s.annotations)) := by
    rw [hd, hget, references, hbinary, if_neg Bool.false_ne_true, hsignals, signals_eq hg]
    exact signalReferences_countSignals x.rules n g.signals
  refine ⟨hreferences, congrArg _ hlast, ⟨?_, fun e he => ?_, ?_, fun _ _ => ?_, hothers⟩⟩
  · refine ⟨fun _ => ⟨d, hd, hbinary, ?_⟩, fun _ => ⟨_, rfl⟩⟩
    rw [hg]
    rfl
  · cases he
  · exact (congrArg List.length hreferences).trans (length_numbers _ _)
  · rw [hd, hget, Option.map_some, Option.map_some, Option.getD_some, Option.getD_some,
      hsignals, signals_eq hg]
    exact counted_countSignals x.rules n g.signals

/-- A call to a counter writes the next numbers, as many as it says. -/
theorem counts_call {n : Nat} (hpolicy : s.policy = .counter n) :
    let m : Made := ⟨x, s, (s.call x).1, (s.call x).2⟩
    m.references = numbers (n + 1) m.count ∧ m.after.policy = .counter (n + m.count)
      ∧ m.Counts := by
  rcases s.call_cases x with ⟨e, hcall, hrefused⟩ | ⟨d, g, channel, hd, hbinary, hg, hcall⟩
  · exact counts_failed hpolicy hcall (hrefused n hpolicy)
  · rw [hpolicy] at hcall
    exact counts_referred hd hbinary hg hcall

/-! ## All calls -/

/-- Calls to a counter write consecutive numbers. -/
theorem counts_calls {n : Nat} (hpolicy : s.policy = .counter n) (xs : List Call) :
    (s.calls xs).1.flatMap Made.references
        = numbers (n + 1) ((s.calls xs).1.map Made.count).sum
      ∧ (s.calls xs).2.policy = .counter (n + ((s.calls xs).1.map Made.count).sum)
      ∧ ∀ m ∈ (s.calls xs).1, m.Counts := by
  induction xs generalizing s n with
  | nil => exact ⟨rfl, hpolicy, fun _ hm => absurd hm List.not_mem_nil⟩
  | cons x rest ih =>
      obtain ⟨hreferences, hafter, hcounts⟩ := counts_call (x := x) hpolicy
      obtain ⟨hreferences', hafter', hcounts'⟩ := ih hafter
      rw [calls, List.flatMap_cons, List.map_cons, List.sum_cons]
      refine ⟨?_, ?_, fun m hm => ?_⟩
      · rw [hreferences, hreferences', Nat.add_right_comm, numbers_append]
      · rw [hafter', Nat.add_assoc]
      · rcases List.mem_cons.mp hm with rfl | hm
        · exact hcounts
        · exact hcounts' m hm

theorem get?_calls_of_not_mem {xs : List Call} {h : Handle}
    (hh : h ∉ xs.map (·.handle)) : (s.calls xs).2.catalog.get? h = s.catalog.get? h := by
  induction xs generalizing s with
  | nil => rfl
  | cons x rest ih =>
      rw [List.map_cons, List.mem_cons, not_or] at hh
      rw [calls]
      exact (ih hh.2).trans (s.get?_call_ne x hh.1)

theorem get?_calls_of_refused (xs : List Call) {h : Handle}
    (hrefused : Refused s.catalog h) : (s.calls xs).2.catalog.get? h = s.catalog.get? h := by
  induction xs generalizing s with
  | nil => rfl
  | cons x rest ih =>
      have hstep : (s.call x).2.catalog.get? h = s.catalog.get? h := by
        by_cases heq : h = x.handle
        · subst heq
          rw [call_of_refused hrefused]
        · exact s.get?_call_ne x heq
      rw [calls]
      refine (ih ?_).trans hstep
      unfold Refused
      rwa [hstep]

/-- With one call at most for each group, its references are there in the end. -/
theorem references_calls {xs : List Call} (hnodup : (xs.map (·.handle)).Nodup) :
    (s.calls xs).1.flatMap Made.references = xs.flatMap fun x =>
      references x.rules (s.catalog.get? x.handle) ((s.calls xs).2.catalog.get? x.handle) := by
  induction xs generalizing s with
  | nil => rfl
  | cons x rest ih =>
      rw [List.map_cons, List.nodup_cons] at hnodup
      rw [calls, List.flatMap_cons, List.flatMap_cons, ih hnodup.2]
      refine congrArg₂ (· ++ ·) ?_ (List.flatMap_congr fun x' hx' => ?_)
      · -- no later call comes to this group
        rw [Made.references, get?_calls_of_not_mem hnodup.1]
      · have hne : x'.handle ≠ x.handle := fun heq =>
          hnodup.1 (heq ▸ List.mem_map_of_mem hx')
        rw [s.get?_call_ne x hne]

end Shared

/-! ## Runs -/

namespace Progress

def shared (p : Progress) : Shared := ⟨p.catalog, p.policy⟩

end Progress

theorem shared_of_groupStep {rules : RuleSet} {p p' : Progress} {h : Handle}
    (hstep : groupStep rules p h = .ok p') : (p.shared.call ⟨h, rules⟩).2 = p'.shared := by
  unfold groupStep at hstep
  unfold Shared.call Progress.shared
  dsimp only at hstep ⊢
  split at hstep
  · next a ha =>
      cases hstep
      rw [ha]
  · next e he =>
      cases hstep
      rw [he]
      rfl
  · cases hstep

/-- Annotating groups makes one call for each. -/
theorem shared_of_foldlM {rules : RuleSet} {p p' : Progress} {hs : List Handle}
    (hrun : hs.foldlM (groupStep rules) p = .ok p') :
    (p.shared.calls (hs.map (⟨·, rules⟩))).2 = p'.shared := by
  induction hs generalizing p with
  | nil =>
      cases hrun
      rfl
  | cons h rest ih =>
      rw [List.foldlM_cons] at hrun
      obtain ⟨p₁, hstep, hrun⟩ := Except.bind_eq_ok.mp hrun
      rw [List.map_cons, Shared.calls]
      dsimp only
      rw [shared_of_groupStep hstep, ih hrun]

/-- The references of a run, in the order of the selected groups: what these say
in `after`. Without rules there are none. -/
def runReferences (o : Options) (t : FileTree) (rules? : Option RuleSet) (after : Catalog) :
    List (Option Value) :=
  match rules? with
  | some rules => ((scanned o t).catalog.selected o.signalGroups).flatMap fun h =>
      references rules ((scanned o t).catalog.get? h) (after.get? h)
  | none => []

section

variable {rules? : Option RuleSet} {hs : List Handle} {p p' : Progress}
  (hrun : groupSteps rules? hs p = .ok p') (hpolicy : p.policy = .counter 0)

include hrun

/-- Groups that do not take part are left. -/
theorem get?_of_groupSteps {h : Handle}
    (hh : rules? = none ∨ h ∉ hs ∨ Shared.Refused p.catalog h) :
    p'.catalog.get? h = p.catalog.get? h := by
  cases rules? with
  | none =>
      cases hrun
      rfl
  | some rules =>
      have hcalls := shared_of_foldlM hrun
      have hcatalog : (p.shared.calls (hs.map (⟨·, rules⟩))).2.catalog = p'.catalog := by
        rw [hcalls]
        rfl
      rw [← hcatalog]
      rcases hh with hrules | hh | hh
      · cases hrules
      · refine Shared.get?_calls_of_not_mem (s := p.shared) ?_
        rw [List.map_map]
        exact fun hmem => hh (by simpa using hmem)
      · exact Shared.get?_calls_of_refused (s := p.shared) _ hh

include hpolicy

/-- Groups that are annotated once each count from one on. -/
theorem references_of_groupSteps {rules : RuleSet} (hrules : rules? = some rules)
    (hnodup : hs.Nodup) : ∃ n, hs.flatMap (fun h =>
      references rules (p.catalog.get? h) (p'.catalog.get? h)) = numbers 1 n := by
  subst hrules
  obtain ⟨hreferences, -, -⟩ :=
    Shared.counts_calls (s := p.shared) hpolicy (hs.map (⟨·, rules⟩))
  have hhandles : ((hs.map fun h => (⟨h, rules⟩ : Call)).map (·.handle)).Nodup := by
    rw [List.map_map]
    exact (List.map_id hs).symm ▸ hnodup
  rw [Shared.references_calls hhandles, shared_of_foldlM hrun, List.flatMap_map] at hreferences
  exact ⟨_, hreferences⟩

end

namespace Preparation

variable {o : Options} {t t' : FileTree} (w : Preparation o t)

/-- The summary leaves the groups. -/
theorem get?_of_kind {h : Handle} (hkind : h.kind = .signalGroup) :
    w.catalog.get? h = w.referred.catalog.get? h := by
  refine (StackSummary.evolves_annotate w.summarises).kept h fun hmem => ?_
  rw [List.mem_singleton.mp hmem] at hkind
  cases hkind

theorem runReferences_congr {rules? : Option RuleSet} {c c' : Catalog}
    (h : ∀ h ∈ (scanned o t).catalog.selected o.signalGroups, c'.get? h = c.get? h) :
    runReferences o t rules? c' = runReferences o t rules? c := by
  cases rules? with
  | none => rfl
  | some rules => exact List.flatMap_congr fun h' hh => by rw [h h' hh]

section

variable (hindex : o.index = false)

include hindex

theorem exists_numbers : ∃ n, runReferences o t w.rules? w.catalog = numbers 1 n := by
  obtain ⟨hopened, hpolicy, -⟩ := w.not_written hindex
  cases hrules : w.rules? with
  | none => exact ⟨0, rfl⟩
  | some rules =>
      obtain ⟨n, hn⟩ := references_of_groupSteps w.refers hpolicy hrules
        (Catalog.nodup_selected _ _)
      rw [Progress.start, hopened] at hn
      refine ⟨n, .trans (List.flatMap_congr fun h hh => ?_) hn⟩
      rw [w.get?_of_kind (Catalog.mem_selected.mp hh).1]

/-- A group that is not selected or is refused is as it was read, and so is every
group where there are no rules. -/
theorem get?_of_refused {h : Handle} (hkind : h.kind = .signalGroup)
    (hh : w.rules? = none ∨ h ∉ (scanned o t).catalog.selected o.signalGroups
      ∨ Shared.Refused (scanned o t).catalog h) :
    w.catalog.get? h = (scanned o t).catalog.get? h := by
  obtain ⟨hopened, -, -⟩ := w.not_written hindex
  have hkept := get?_of_groupSteps w.refers (h := h) (by rwa [Progress.start, hopened])
  rw [w.get?_of_kind hkind, hkept, Progress.start, hopened]

omit hindex in
/-- The tree that is saved has the references. -/
theorem runReferences_saved (hwf : t.WellFormed) (hyaml : w.progress.GivesBack)
    (hsave : w.catalog.writeFiles w.tree w.catalog.flagged.values = (t', none)) :
    runReferences o t w.rules? (scanned o t').catalog
      = runReferences o t w.rules? w.catalog := by
  obtain ⟨place, hsim⟩ := w.exists_place
  refine runReferences_congr fun h hh => ?_
  obtain ⟨-, d, hd, -⟩ := Catalog.mem_selected.mp hh
  exact w.get?_saved hwf hsim hyaml hsave hd

end

end Preparation

/-- Over any calls that share a fresh counter, the references that are written are
one, two and so on, in the order of the calls and of the signals in a group. The
counter ends at the sum of what the calls count, and each call behaves as
`Made.Counts` says. A run without an offset table that succeeds has written such
references, all of them different, over the selected groups in order, and leaves
the other groups. Where its files can be read back, they have these references. -/
theorem references_counted :
    (∀ (c : Catalog) (xs : List Call),
      let made := (Shared.calls ⟨c, .counter 0⟩ xs).1
      let n := (made.map Made.count).sum
      made.flatMap Made.references = numbers 1 n
        ∧ (Shared.calls ⟨c, .counter 0⟩ xs).2.policy = .counter n
        ∧ ∀ m ∈ made, m.Counts)
      ∧ ∀ (o : Options) (t : FileTree) (summary : Summary) (s : State), o.index = false →
        on t (annotate o) = (.ok summary, s) → ∃ rules? p n,
          RuleSet.select t o.rules o.ruleSet = .ok rules?
            ∧ p ∈ (on t (prepare o)).1.toOption
            ∧ p.catalog.writeFiles t p.catalog.flagged.values = (s.tree, none)
            ∧ runReferences o t rules? p.catalog = numbers 1 n
            ∧ (runReferences o t rules? p.catalog).Nodup
            ∧ (∀ h, h.kind = .signalGroup → rules? = none
                ∨ h ∉ (scanned o t).catalog.selected o.signalGroups
                ∨ Shared.Refused (scanned o t).catalog h →
              p.catalog.get? h = (scanned o t).catalog.get? h)
            ∧ (t.WellFormed → p.GivesBack →
              runReferences o t rules? (scanned o s.tree).catalog = numbers 1 n) := by
  refine ⟨fun c xs => ?_, fun o t summary s hindex hrun => ?_⟩
  · obtain ⟨hreferences, hpolicy, hcounts⟩ :=
      Shared.counts_calls (s := ⟨c, .counter 0⟩) rfl xs
    rw [Nat.zero_add] at hreferences hpolicy
    exact ⟨hreferences, hpolicy, hcounts⟩
  · obtain ⟨w, hprogress, -, hsave⟩ := exists_preparation hrun
    obtain ⟨-, -, htree⟩ := w.not_written hindex
    obtain ⟨n, hn⟩ := w.exists_numbers hindex
    refine ⟨w.rules?, w.progress, n, w.selects, hprogress, ?_, hn, ?_,
      fun h hkind => w.get?_of_refused hindex hkind, fun hwf hyaml => ?_⟩
    · rw [htree] at hsave
      exact hsave
    · have hnodup := nodup_numbers 1 n
      rwa [← hn] at hnodup
    · exact (w.runReferences_saved hwf hyaml hsave).trans hn

/-- The sample without an offset table. -/
def Sample.counting : Options := { Sample.options with index := false }

theorem Sample.catalog_counting : (scanned counting tree).catalog = read .empty :=
  catalog_scan (scannable_tree [] (by simp)) loads

def Sample.counted : Preparation counting tree :=
  .ofSteps catalog_counting ⟨⟨.stack, 0⟩, by decide +kernel⟩ selects ⟨rfl, rfl, rfl⟩
    (by decide +kernel) (by decide +kernel)

/-- What is computed of the documents that are written. -/
theorem Sample.counted_written : counted.catalog.GivesBack counted.catalog.flagged.values
    ∧ (counted.catalog.writeFiles tree counted.catalog.flagged.values).2 = none
    ∧ ((read .empty).selected counting.signalGroups).flatMap (fun h =>
        references rules ((read .empty).get? h) (counted.catalog.get? h))
      = numbers 1 3 := by
  decide +kernel

/-- The run succeeds, with texts that give back their values. -/
theorem Sample.counts : ∃ summary s, on tree (annotate counting) = (.ok summary, s)
    ∧ ∀ p ∈ (on tree (prepare counting)).1.toOption, p.GivesBack
      ∧ runReferences counting tree (some rules) p.catalog = numbers 1 3 := by
  obtain ⟨hgives, hsaves, hreferences⟩ := counted_written
  obtain ⟨s, hrun, -⟩ := counted.exists_on_annotate hsaves
  rw [counted.on_prepare]
  refine ⟨_, s, hrun, ?_⟩
  rintro p ⟨⟩
  refine ⟨⟨hgives, nofun⟩, ?_⟩
  unfold runReferences
  rw [catalog_counting]
  exact hreferences

/-- The inputs and the output of the sample, in two groups, have the references one, two and
three in the files. -/
theorem references_counted_sample : ∃ summary s,
    on Sample.tree (annotate Sample.counting) = (.ok summary, s)
      ∧ runReferences Sample.counting Sample.tree (some Sample.rules)
          (scanned Sample.counting s.tree).catalog
        = [some (.ofNat 1), some (.ofNat 2), some (.ofNat 3)] := by
  obtain ⟨summary, s, hrun, hprepared⟩ := Sample.counts
  obtain ⟨rules?, p, n, hselects, hp, -, hnumbers, -, -, hsaved⟩ :=
    references_counted.2 Sample.counting Sample.tree summary s rfl hrun
  have hrules : rules? = some Sample.rules :=
    Except.ok.inj (hselects.symm.trans Sample.selects)
  subst hrules
  obtain ⟨hyaml, hthree⟩ := hprepared p hp
  exact ⟨summary, s, hrun, ((hsaved Sample.wellFormed hyaml).trans hnumbers.symm).trans hthree⟩

end SimAnnotate.Run
