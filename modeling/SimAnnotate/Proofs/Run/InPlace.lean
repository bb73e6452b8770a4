import SimAnnotate.Proofs.Run.Counting

/-!
# Annotating a group in place

`Call.inPlace` annotates a group step by step: it looks the group up, checks it, and
then changes one signal after the other where it stands, with the counter going on as
numbers are taken. What a step has changed stays changed if a later one fails.

None does once a signal has changed: the steps come to what `Shared.call` comes to
as a whole (`run_inPlace`). The loop over the signals is followed by what is done so
far: signals in front that are annotated, and signals behind that are as they were
(`run_annotateSignals`).
-/

theorem List.modify_length_append {α : Type*} (before after : List α) (a : α) (f : α → α) :
    (before ++ a :: after).modify before.length f = before ++ f a :: after := by
  rw [modify_eq_take_drop, take_left, drop_left]
  rfl

namespace SimAnnotate

/-! ## Taking references -/

namespace ReferencePolicy

/-- The reference for a signal, if there is one. -/
def reference? : ReferencePolicy → Option String → Signal → Option Nat
  | .counter last, _, _ => some (last + 1)
  | .table t, channel, signal => References.place? t channel signal

/-- The policy when a reference has been taken. -/
def advance : ReferencePolicy → ReferencePolicy
  | .counter last => .counter (last + 1)
  | .table t => .table t

end ReferencePolicy

/-! ## A group whose signals change -/

namespace Catalog

variable (c : Catalog) (h : Handle)

/-- With other signals in a group. -/
def withSignals (c : Catalog) (h : Handle) (ss : List Signal) : Catalog :=
  c.modify h (·.mapSignals fun _ => ss)

theorem modify_withSignals (ss : List Signal) (f : List Signal → List Signal) :
    (c.withSignals h ss).modify h (·.mapSignals f) = c.withSignals h (f ss) := by
  simp only [withSignals, modify_modify, Document.mapSignals_mapSignals]

variable {c h} {d : Document} {g : SignalGroup} (hd : c.get? h = some d)
  (hg : d.signalGroup? = some g)

include hd hg

theorem withSignals_self : c.withSignals h g.signals = c := by
  refine modify_eq_self c fun d' hd' => ?_
  rw [hd] at hd'
  cases hd'
  obtain ⟨m, spec, file⟩ := d
  cases spec <;> cases hg
  rfl

theorem signalGroup?_withSignals (ss : List Signal) :
    ((c.withSignals h ss).get? h).bind Document.signalGroup?
      = some { g with signals := ss } := by
  rw [withSignals, get?_modify_self, hd, Option.map_some, Option.bind_some,
    Document.signalGroup?_mapSignals, hg, Option.map_some]

end Catalog

end SimAnnotate

namespace SimAnnotate.Run

open References (isBinary qualifies refer place? referSignals given)

/-! ## The steps -/

/-- Steps on a catalog and a policy, which keep what they have changed when a later
one fails. -/
abbrev Steps := ExceptT Error (StateM Shared)

namespace Steps

def document (h : Handle) : Steps Document := do
  match (← get).catalog.get? h with
  | some d => return d
  | none => throw (.notFound (.document h))

/-- Changes one signal of a group. -/
def changeSignal (h : Handle) (i : Nat) (f : Signal → Signal) : StateM Shared Unit :=
  modify fun s => { s with catalog := s.catalog.modify h (·.mapSignals (·.modify i f)) }

def signal? (h : Handle) (i : Nat) : StateM Shared (Option Signal) := do
  return (((← get).catalog.get? h).bind Document.signalGroup?).bind (·.signals[i]?)

/-- A reference for a signal, if there is one. A counter goes on. -/
def takeReference (channel : Option String) (signal : Signal) :
    StateM Shared (Option Nat) := do
  let s ← get
  match s.policy with
  | .counter last =>
      set { s with policy := .counter (last + 1) }
      return some (last + 1)
  | .table t => return place? t channel signal

/-- Annotates one signal of a group; says how many references that takes. -/
def annotateSignal (x : Call) (channel : Option String) (i : Nat) : StateM Shared Nat := do
  changeSignal x.handle i x.rules.applySignal
  match ← signal? x.handle i with
  | none => return 0
  | some signal =>
      if qualifies signal.annotations then
        match ← takeReference channel signal with
        | none => return 0
        | some n =>
            changeSignal x.handle i (refer · n)
            return 1
      else return 0

/-- Annotates signals of a group one after the other. -/
def annotateSignals (x : Call) (channel : Option String) : List Nat → StateM Shared Nat
  | [] => return 0
  | i :: rest => do
      let count ← annotateSignal x channel i
      return count + (← annotateSignals x channel rest)

end Steps

/-- Annotates a group, one signal after the other. -/
def Call.inPlace (x : Call) : Steps Nat := do
  let d ← Steps.document x.handle
  if isBinary d then throw (.unsupported (.binary d.name))
  let s ← get
  let channel ← References.channel? s.catalog s.policy d
  let d ← Steps.document x.handle
  match d.signalGroup? with
  | none => throw (.unsupported (.notSignalGroup d.name))
  | some g =>
      let count ← Steps.annotateSignals x channel (List.range g.signals.length)
      modify fun s => { s with catalog := References.flagFile s.catalog d }
      return count

/-- What the steps come to: an outcome, and what there is then. -/
def Steps.from {α : Type} (act : Steps α) (s : Shared) : Except Error α × Shared :=
  StateT.run (m := Id) (ExceptT.run act) s

/-! ## One step after the other -/

namespace Steps

variable {α β : Type} (s : Shared)

@[simp] theorem from_get : (get : Steps Shared).from s = (.ok s, s) := rfl

@[simp] theorem from_outcome (r : Except Error α) :
    (liftM r : Steps α).from s = (r, s) := rfl

@[simp] theorem from_changes (act : StateM Shared α) :
    (liftM act : Steps α).from s = (.ok (act.run s).1, (act.run s).2) := rfl

theorem from_bind (act : Steps α) (f : α → Steps β) :
    (act >>= f).from s = match act.from s with
      | (.ok a, s') => (f a).from s'
      | (.error e, s') => (.error e, s') := by
  unfold Steps.from
  rw [ExceptT.run_bind, StateT.run_bind]
  cases (ExceptT.run act).run s with
  | mk r s' => cases r <;> rfl

theorem from_document (h : Handle) : (document h).from s = match s.catalog.get? h with
    | some d => (.ok d, s)
    | none => (.error (.notFound (.document h)), s) := by
  rw [document, from_bind, from_get]
  dsimp only
  split <;> rfl

end Steps

/-! ## One signal -/

section

variable (x : Call) (channel : Option String) (policy : ReferencePolicy) (signal : Signal)

/-- Whether a signal takes a reference. -/
def takes : Bool :=
  qualifies (x.rules.apply signal.annotations) && (policy.reference? channel signal).isSome

/-- The policy when the signal has been annotated. -/
def policyAfter : ReferencePolicy :=
  if qualifies (x.rules.apply signal.annotations) then policy.advance else policy

theorem referSignals_nil :
    referSignals x.rules channel [] policy = ⟨[], 0, policy⟩ := by
  cases policy with
  | counter last =>
      show (⟨[], last - last, .counter last⟩ : References.Referred) = _
      rw [Nat.sub_self]
  | table t => rfl

theorem referSignals_cons (rest : List Signal) :
    referSignals x.rules channel (signal :: rest) policy
      = (let more := referSignals x.rules channel rest (policyAfter x policy signal)
        ⟨given x.rules (policy.reference? channel signal) signal :: more.signals,
          (if takes x channel policy signal then 1 else 0) + more.count, more.policy⟩) := by
  unfold takes policyAfter
  cases policy with
  | counter last =>
      have hlast := countSignals_snd x.rules
      simp only [referSignals, References.countSignals_cons, ReferencePolicy.reference?,
        ReferencePolicy.advance, Option.isSome_some, Bool.and_true]
      split
      · simp only [hlast, References.Referred.mk.injEq, true_and, and_true]
        omega
      · simp only [Nat.zero_add]
  | table t =>
      rw [ReferencePolicy.advance, ite_self, referSignals, referSignals, List.map_cons,
        List.countP_cons, Nat.add_comm]
      rfl

namespace Steps

theorem run_bind_of {α β : Type} {act : StateM Shared α} {f : α → StateM Shared β}
    {s s' : Shared} {a : α} (h : act.run s = (a, s')) : (act >>= f).run s = (f a).run s' := by
  rw [StateT.run_bind, h]
  rfl

theorem run_takeReference (s : Shared) : (takeReference channel signal).run s
    = (s.policy.reference? channel signal, ⟨s.catalog, s.policy.advance⟩) := by
  obtain ⟨c, policy⟩ := s
  cases policy <;> rfl

section

variable {x} {c : Catalog} {d : Document} {g : SignalGroup}
  (hd : c.get? x.handle = some d) (hg : d.signalGroup? = some g)
  (before after : List Signal)

theorem run_changeSignal (f : Signal → Signal) :
    (changeSignal x.handle before.length f).run
        ⟨c.withSignals x.handle (before ++ signal :: after), policy⟩
      = ((), ⟨c.withSignals x.handle (before ++ f signal :: after), policy⟩) := by
  have hmodify := c.modify_withSignals x.handle (before ++ signal :: after)
    (·.modify before.length f)
  rw [List.modify_length_append] at hmodify
  exact congrArg (fun c => ((), (⟨c, policy⟩ : Shared))) hmodify

include hd hg

theorem run_signal? : (signal? x.handle before.length).run
        ⟨c.withSignals x.handle (before ++ signal :: after), policy⟩
      = (some signal, ⟨c.withSignals x.handle (before ++ signal :: after), policy⟩) := by
  have hgroup := Catalog.signalGroup?_withSignals hd hg (before ++ signal :: after)
  have hsignal : (((c.withSignals x.handle (before ++ signal :: after)).get? x.handle).bind
      Document.signalGroup?).bind (·.signals[before.length]?) = some signal := by
    rw [hgroup]
    simp
  exact congrArg (·, _) hsignal

/-- Annotating one signal leaves the signals before and after it. -/
theorem run_annotateSignal : (annotateSignal x channel before.length).run
        ⟨c.withSignals x.handle (before ++ signal :: after), policy⟩
      = (if takes x channel policy signal then 1 else 0,
        ⟨c.withSignals x.handle (before
            ++ given x.rules (policy.reference? channel signal) signal :: after),
          policyAfter x policy signal⟩) := by
  have hrules := run_changeSignal (x := x) (c := c) policy signal before after
    x.rules.applySignal
  have hread := run_signal? policy (x.rules.applySignal signal) hd hg before after
  unfold takes policyAfter given
  rw [annotateSignal, run_bind_of hrules, run_bind_of hread]
  dsimp only
  by_cases hqualifies : qualifies (x.rules.applySignal signal).annotations = true
  · have happly : qualifies (x.rules.apply signal.annotations) = true := hqualifies
    have htake := run_takeReference channel (x.rules.applySignal signal)
      ⟨c.withSignals x.handle (before ++ x.rules.applySignal signal :: after), policy⟩
    -- a reference is looked up by the name, which the rules leave
    have hname : policy.reference? channel (x.rules.applySignal signal)
        = policy.reference? channel signal := by
      cases policy <;> rfl
    rw [if_pos hqualifies, if_pos hqualifies, if_pos happly, happly, run_bind_of htake, hname]
    cases policy.reference? channel signal with
    | none => rfl
    | some n => exact run_bind_of (run_changeSignal policy.advance _ before after (refer · n))
  · have happly : qualifies (x.rules.apply signal.annotations) = false :=
      Bool.eq_false_iff.mpr hqualifies
    rw [if_neg hqualifies, if_neg hqualifies, happly]
    rfl

end

/-- The loop has annotated the signals before, and leaves those that are to come. -/
theorem run_annotateSignals {c : Catalog} {d : Document} {g : SignalGroup}
    (hd : c.get? x.handle = some d) (hg : d.signalGroup? = some g)
    (before after : List Signal) :
    (annotateSignals x channel (List.range' before.length after.length)).run
        ⟨c.withSignals x.handle (before ++ after), policy⟩
      = (let r := referSignals x.rules channel after policy
        (r.count, ⟨c.withSignals x.handle (before ++ r.signals), r.policy⟩)) := by
  induction after generalizing before policy with
  | nil =>
      rw [referSignals_nil]
      rfl
  | cons signal rest ih =>
      have hstep := run_annotateSignal channel policy signal hd hg before rest
      have hrest := ih (policyAfter x policy signal)
        (before ++ [given x.rules (policy.reference? channel signal) signal])
      rw [List.length_append, List.length_singleton, List.append_assoc, List.singleton_append]
        at hrest
      rw [List.length_cons, List.range'_succ, annotateSignals, run_bind_of hstep,
        run_bind_of hrest, referSignals_cons, List.append_assoc, List.singleton_append]
      rfl

theorem run_group {s : Shared} {d : Document} {g : SignalGroup}
    (hd : s.catalog.get? x.handle = some d) (hg : d.signalGroup? = some g) :
    (annotateSignals x channel (List.range g.signals.length)).run s
      = (let r := referSignals x.rules channel g.signals s.policy
        (r.count, ⟨s.catalog.withSignals x.handle r.signals, r.policy⟩)) := by
  have hloop := run_annotateSignals x channel s.policy hd hg [] g.signals
  rw [List.nil_append, Catalog.withSignals_self hd hg] at hloop
  rw [List.range_eq_range']
  exact hloop

end Steps

end

/-! ## One group -/

/-- The steps of a call come to what the call comes to as a whole. -/
theorem run_inPlace (s : Shared) (x : Call) : x.inPlace.from s = s.call x := by
  have hdocument := Steps.from_document s x.handle
  unfold Call.inPlace Shared.call References.annotate
  rw [Steps.from_bind, hdocument]
  cases hd : s.catalog.get? x.handle with
  | none => rfl
  | some d =>
      rw [hd] at hdocument
      dsimp only
      -- both fail at the same check, or go on to the signals
      cases isBinary d with
      | true => rfl
      | false =>
          simp only [Bool.false_eq_true, if_false, Steps.from_bind, Steps.from_get,
            Steps.from_outcome]
          cases References.channel? s.catalog s.policy d with
          | error e => rfl
          | ok channel =>
              simp only [hdocument]
              cases hg : d.signalGroup? with
              | none => rfl
              | some g =>
                  dsimp only
                  rw [Steps.from_bind, Steps.from_changes, Steps.run_group x channel hd hg]
                  rfl

end SimAnnotate.Run
