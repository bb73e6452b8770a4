import SimAnnotate.Proofs.Document.Outline
import SimAnnotate.Proofs.Document.Sound
import SimAnnotate.Proofs.Rules

/-!
# Signals with references

A signal that takes part in a run ends as `References.given`: rules first, then
the reference that it gets, if any. Both insert annotations, and where no rule
looks at what is inserted (`RuleSet.Stable`), a second time changes nothing
(`given_given`). So signals that have their references keep them
(`referSignals_again`).
-/

namespace SimAnnotate

open Yaml (Value)

namespace References

/-- The annotations that a reference sets. -/
def keys : List String := [referenceKey, typeKey, nameKey]

end References

/-- No rule looks at an annotation that a rule or a reference sets. -/
structure RuleSet.Stable (s : RuleSet) : Prop where
  targets : ∀ r ∈ s.rules, ∀ r' ∈ s.rules, r.source ≠ r'.target
  references : ∀ r ∈ s.rules, r.source ∉ References.keys

instance (s : RuleSet) : Decidable s.Stable :=
  decidable_of_iff ((∀ r ∈ s.rules, ∀ r' ∈ s.rules, r.source ≠ r'.target)
      ∧ ∀ r ∈ s.rules, r.source ∉ References.keys)
    ⟨fun h => ⟨h.1, h.2⟩, fun h => ⟨h.targets, h.references⟩⟩

/-- The built-in rules look at the direction only. -/
theorem RuleSet.stable_signalDirection : RuleSet.signalDirection.Stable := by decide

namespace References

/-! ## What a signal ends as -/

/-- What a reference inserts. -/
def insertions (name : String) (n : Nat) : List (String × Value) :=
  [(referenceKey, .ofNat n), (typeKey, .string variableType),
    (nameKey, .string name)]

/-- A signal after the rules, with a reference if it is an input or an output and
there is one for it. -/
def given (rules : RuleSet) (reference : Option Nat) (s : Signal) : Signal :=
  let s := rules.applySignal s
  if qualifies s.annotations then
    match reference with
    | some n => refer s n
    | none => s
  else s

section

variable (rules : RuleSet) (reference : Option Nat) (s : Signal)

@[simp] theorem name_given : (given rules reference s).name = s.name := by
  unfold given
  dsimp only
  split
  · cases reference <;> rfl
  · rfl

@[simp] theorem extra_given : (given rules reference s).extra = s.extra := by
  unfold given
  dsimp only
  split
  · cases reference <;> rfl
  · rfl

theorem placeSignal_eq (t : OffsetTable) (channel : Option String) :
    placeSignal rules t channel s = given rules (place? t channel s) s := rfl

theorem countSignals_cons (last : Nat) (rest : List Signal) :
    countSignals rules last (s :: rest)
      = (let next := if qualifies (rules.apply s.annotations) then last + 1 else last
        let more := countSignals rules next rest
        (given rules (some (last + 1)) s :: more.1, more.2)) := by
  rw [countSignals, given]
  dsimp only [RuleSet.applySignal]
  by_cases h : qualifies (rules.apply s.annotations) = true
  · simp [h]
  · simp [h]

/-- A signal with a reference has it in its annotations. -/
theorem get?_given {n : Nat} (h : qualifies (rules.apply s.annotations) = true) :
    let a := (given rules (some n) s).annotations
    a.get? referenceKey = some (.ofNat n)
      ∧ a.get? typeKey = some (.string variableType)
      ∧ a.get? nameKey = some (.string s.name) := by
  have hgiven : given rules (some n) s = refer (rules.applySignal s) n := by
    unfold given
    exact if_pos h
  rw [hgiven]
  have htype : typeKey ≠ nameKey := by decide
  have hreference : referenceKey ≠ nameKey := by decide
  have hreference' : referenceKey ≠ typeKey := by decide
  dsimp only [refer]
  refine ⟨?_, ?_, OrderedMap.get?_insert_self _ _ _⟩
  · rw [OrderedMap.get?_insert_ne _ _ hreference, OrderedMap.get?_insert_ne _ _ hreference',
      OrderedMap.get?_insert_self]
  · rw [OrderedMap.get?_insert_ne _ _ htype, OrderedMap.get?_insert_self]

theorem given_none : given rules none s = rules.applySignal s := by
  unfold given
  dsimp only
  split <;> rfl

theorem given_of_not_qualifies (h : qualifies (rules.apply s.annotations) = false) :
    given rules reference s = rules.applySignal s := by
  unfold given
  dsimp only [RuleSet.applySignal]
  rw [h]
  rfl

end

/-! ## A second time -/

/-- What the reference of a signal inserts, if it gets one. -/
def referenceInsertions (rules : RuleSet) (reference : Option Nat) (s : Signal) :
    List (String × Value) :=
  match qualifies (rules.apply s.annotations), reference with
  | true, some n => insertions s.name n
  | _, _ => []

theorem mem_keys_of_referenceInsertions {rules : RuleSet} {reference : Option Nat}
    {s : Signal} {key : String}
    (h : key ∈ (referenceInsertions rules reference s).map Prod.fst) : key ∈ keys := by
  unfold referenceInsertions at h
  split at h
  · exact h
  · cases h

section

variable {rules : RuleSet} (hrules : rules.Stable)

include hrules

omit hrules in
/-- All that a signal's annotations get. -/
theorem annotations_given (reference : Option Nat) (s : Signal) :
    (given rules reference s).annotations = OrderedMap.insertAll s.annotations
      (RuleSet.inserted (rules.matching s.annotations)
        ++ referenceInsertions rules reference s) := by
  rw [OrderedMap.insertAll_append, ← RuleSet.apply_eq_insertAll]
  unfold given referenceInsertions
  dsimp only [RuleSet.applySignal]
  cases qualifies (rules.apply s.annotations) with
  | false => rfl
  | true => cases reference <;> rfl

/-- The rules see what they saw before. -/
theorem matching_given (reference : Option Nat) (s : Signal) :
    rules.matching (given rules reference s).annotations = rules.matching s.annotations := by
  have hunlinked : rules.Unlinked := hrules.targets
  rw [RuleSet.matching_of_unlinked hunlinked, RuleSet.matching_of_unlinked hunlinked]
  refine List.filter_congr fun r hr => decide_eq_decide.mpr ?_
  refine Annotations.holds_congr ?_ _
  rw [annotations_given]
  refine OrderedMap.get?_insertAll_of_not_mem fun hmem => ?_
  rw [List.map_append, List.mem_append] at hmem
  rcases hmem with hmem | hmem
  · obtain ⟨r', hr', hkey⟩ := RuleSet.mem_targets_inserted hmem
    exact hrules.targets r hr r' (rules.mem_of_mem_matching _ hr') hkey
  · exact hrules.references r hr (mem_keys_of_referenceInsertions hmem)

/-- The causality after the rules is the same. -/
theorem qualifies_given (reference : Option Nat) (s : Signal) :
    qualifies (rules.apply (given rules reference s).annotations)
      = qualifies (rules.apply s.annotations) := by
  have hcausality : (rules.apply (given rules reference s).annotations).get?
      RuleSet.causality = (rules.apply s.annotations).get? RuleSet.causality := by
    rw [RuleSet.apply_eq_insertAll, RuleSet.apply_eq_insertAll, matching_given hrules]
    -- either the rules set it, to the same again, or nothing does
    by_cases hmem : RuleSet.causality
        ∈ (RuleSet.inserted (rules.matching s.annotations)).map Prod.fst
    · exact OrderedMap.get?_insertAll_of_mem hmem _ _
    · rw [OrderedMap.get?_insertAll_of_not_mem hmem,
        OrderedMap.get?_insertAll_of_not_mem hmem, annotations_given]
      refine OrderedMap.get?_insertAll_of_not_mem fun hmem' => ?_
      rw [List.map_append, List.mem_append] at hmem'
      have hkey := mem_keys_of_referenceInsertions (hmem'.resolve_left hmem)
      exact absurd hkey (by decide)
  unfold qualifies
  rw [Annotations.string?_congr hcausality]

/-- A signal that has its reference stays as it is. -/
theorem given_given (reference : Option Nat) (s : Signal) :
    given rules reference (given rules reference s) = given rules reference s := by
  have hreference : referenceInsertions rules reference (given rules reference s)
      = referenceInsertions rules reference s := by
    unfold referenceInsertions
    rw [qualifies_given hrules, name_given]
  have hannotations : (given rules reference (given rules reference s)).annotations
      = (given rules reference s).annotations := by
    rw [annotations_given, matching_given hrules, hreference, annotations_given,
      OrderedMap.insertAll_insertAll]
  have hname := name_given rules reference (given rules reference s)
  have hextra := extra_given rules reference (given rules reference s)
  -- field by field
  generalize given rules reference (given rules reference s) = s' at *
  cases s'
  cases hs : given rules reference s
  simp only [hs] at hannotations hname hextra
  simp only [hannotations, hname, hextra]

theorem countSignals_again (last : Nat) (signals : List Signal) :
    countSignals rules last (countSignals rules last signals).1
      = countSignals rules last signals := by
  induction signals generalizing last with
  | nil => rfl
  | cons s rest ih =>
      rw [countSignals_cons]
      dsimp only
      rw [countSignals_cons, given_given hrules, qualifies_given hrules]
      dsimp only
      rw [ih]

/-- Signals that have their references keep them. -/
theorem referSignals_again (channel : Option String) (signals : List Signal)
    (policy : ReferencePolicy) :
    let r := referSignals rules channel signals policy
    (referSignals rules channel r.signals policy).signals = r.signals
      ∧ (referSignals rules channel r.signals policy).policy = r.policy := by
  cases policy with
  | counter last =>
      dsimp only [referSignals]
      rw [countSignals_again hrules]
      exact ⟨rfl, rfl⟩
  | table t =>
      refine ⟨?_, rfl⟩
      dsimp only [referSignals]
      rw [List.map_map]
      refine List.map_congr_left fun s _ => ?_
      rw [Function.comp_apply, placeSignal_eq, placeSignal_eq, place?, place?, name_given,
        given_given hrules]

end

/-! ## Sound signals -/

theorem sound_refer {s : Signal} (h : s.Sound) (n : Nat) : (refer s n).Sound := by
  refine ⟨?_, h.extra⟩
  have hinserted : ∀ e ∈ insertions s.name n, e.2.repeatsKey = false := by
    simp [insertions, Value.repeatsKey, Value.ofNat]
  exact h.annotations.insertAll hinserted

theorem sound_apply (rules : RuleSet) {a : Annotations} (h : Annotations.Sound a) :
    Annotations.Sound (rules.apply a) := by
  unfold RuleSet.apply
  induction rules.rules generalizing a with
  | nil => exact h
  | cons r rest ih =>
      refine ih ?_
      dsimp only [Rule.apply]
      split
      · exact h.insert r.target (Value.repeatsKey_string r.value)
      · exact h

theorem sound_given (rules : RuleSet) (reference : Option Nat) {s : Signal}
    (h : s.Sound) : (given rules reference s).Sound := by
  have hrules : (rules.applySignal s).Sound := ⟨sound_apply rules h.annotations, h.extra⟩
  unfold given
  dsimp only
  split
  · cases reference with
    | none => exact hrules
    | some n => exact sound_refer hrules n
  · exact hrules

/-- Giving references keeps signals sound. -/
theorem sound_referSignals (rules : RuleSet) (channel : Option String)
    {signals : List Signal} (h : ∀ s ∈ signals, s.Sound) (policy : ReferencePolicy) :
    ∀ s ∈ (referSignals rules channel signals policy).signals, s.Sound := by
  cases policy with
  | counter last =>
      dsimp only [referSignals]
      induction signals generalizing last with
      | nil => exact fun _ hs => absurd hs List.not_mem_nil
      | cons s rest ih =>
          rw [countSignals_cons]
          intro s' hs'
          rcases List.mem_cons.mp hs' with rfl | hs'
          · exact sound_given rules _ (h s List.mem_cons_self)
          · exact ih (fun s hs => h s (List.mem_cons_of_mem _ hs)) _ s' hs'
  | table t =>
      intro s' hs'
      obtain ⟨s, hs, rfl⟩ := List.mem_map.mp hs'
      exact sound_given rules _ (h s hs)

end References

end SimAnnotate
