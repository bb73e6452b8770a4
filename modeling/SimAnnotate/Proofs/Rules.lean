import SimAnnotate.Proofs.OrderedMap
import SimAnnotate.Rules

/-!
# What rules do

A rule sees what the rules before it left. The ones that match (`RuleSet.matching`) say
all that a rule set does: it inserts their targets, one after the other
(`RuleSet.apply_eq_insertAll`). Where no rule looks at a target, all of them match as they
would at once (`RuleSet.matching_of_unlinked`), so the order of rules with different
targets does not matter, and a second time changes nothing.
-/

namespace SimAnnotate

open Yaml (Value)

namespace Annotations

/-- The annotation is there and is the string, with tags or without. -/
def Holds (a : Annotations) (key text : String) : Prop :=
  ∃ v, a.get? key = some v ∧ v.untag = .string text

theorem string?_eq_some {a : Annotations} {key text : String} :
    a.string? key = some text ↔ a.Holds key text := by
  rw [string?, Option.bind_eq_some_iff]
  refine exists_congr fun v => and_congr_right fun _ => ?_
  unfold Value.string?
  cases v.untag <;> simp

instance (a : Annotations) (key text : String) : Decidable (a.Holds key text) :=
  decidable_of_iff _ string?_eq_some

theorem string?_congr {a b : Annotations} {key : String} (h : a.get? key = b.get? key) :
    a.string? key = b.string? key := by
  rw [string?, string?, h]

theorem holds_congr {a b : Annotations} {key : String} (h : a.get? key = b.get? key)
    (text : String) : a.Holds key text ↔ b.Holds key text := by
  rw [Holds, Holds, h]

end Annotations

theorem Rule.applies_iff {r : Rule} {a : Annotations} :
    r.applies a = true ↔ a.Holds r.source r.expected := by
  rw [applies, beq_iff_eq, Annotations.string?_eq_some]

namespace RuleSet

/-! ## Rules that match -/

/-- What the first `i` rules leave. -/
def left (s : RuleSet) (a : Annotations) (i : Nat) : Annotations :=
  RuleSet.apply ⟨s.rules.take i⟩ a

/-- The rules whose source holds the expected string in what the rules before them left. -/
def matching (s : RuleSet) (a : Annotations) : List Rule :=
  (s.rules.zipIdx.filter fun x => (s.left a x.2).Holds x.1.source x.1.expected).map Prod.fst

/-- The last rule that matches and has the target. -/
def setter? (s : RuleSet) (a : Annotations) (key : String) : Option Rule :=
  (s.matching a).reverse.find? (·.target = key)

/-- What rules insert that match. -/
def inserted (rules : List Rule) : List (String × Value) :=
  rules.map fun r => (r.target, .string r.value)

/-- No rule looks at what a rule sets. -/
def Unlinked (s : RuleSet) : Prop := ∀ r ∈ s.rules, ∀ r' ∈ s.rules, r.source ≠ r'.target

instance (s : RuleSet) : Decidable s.Unlinked :=
  inferInstanceAs (Decidable (∀ r ∈ s.rules, ∀ r' ∈ s.rules, r.source ≠ r'.target))

/-- The same rules, those with the same target in the same order. -/
structure Reorders (s s' : RuleSet) : Prop where
  perm : s'.rules.Perm s.rules
  order : ∀ key, s'.rules.filter (·.target = key) = s.rules.filter (·.target = key)

theorem mem_targets_inserted {rules : List Rule} {key : String}
    (h : key ∈ (inserted rules).map Prod.fst) : ∃ r ∈ rules, key = r.target := by
  rw [inserted, List.map_map] at h
  obtain ⟨r, hr, rfl⟩ := List.mem_map.mp h
  exact ⟨r, hr, rfl⟩

section

variable (rules : List Rule) (r : Rule) (a : Annotations)

theorem apply_concat : RuleSet.apply ⟨rules ++ [r]⟩ a = r.apply (RuleSet.apply ⟨rules⟩ a) :=
  List.foldl_append

theorem left_concat {i : Nat} (h : i ≤ rules.length) :
    RuleSet.left ⟨rules ++ [r]⟩ a i = RuleSet.left ⟨rules⟩ a i := by
  rw [left, left, List.take_append_of_le_length h]

theorem left_length : RuleSet.left ⟨rules⟩ a rules.length = RuleSet.apply ⟨rules⟩ a := by
  rw [left, List.take_length]

/-- The last rule matches in what the others leave. -/
theorem matching_concat : RuleSet.matching ⟨rules ++ [r]⟩ a = RuleSet.matching ⟨rules⟩ a
    ++ if r.applies (RuleSet.apply ⟨rules⟩ a) then [r] else [] := by
  -- the rules before the last one do not see what it sets
  have hbefore : rules.zipIdx.filter (fun x =>
      (RuleSet.left ⟨rules ++ [r]⟩ a x.2).Holds x.1.source x.1.expected)
      = rules.zipIdx.filter fun x =>
        (RuleSet.left ⟨rules⟩ a x.2).Holds x.1.source x.1.expected := by
    refine List.filter_congr fun x hx => ?_
    have hlt := (List.mem_zipIdx' hx).1
    rw [left_concat rules r a (Nat.le_of_lt hlt)]
  have hlast : RuleSet.left ⟨rules ++ [r]⟩ a (0 + rules.length) = RuleSet.apply ⟨rules⟩ a := by
    rw [Nat.zero_add, left_concat rules r a (Nat.le_refl _), left_length]
  rw [matching, matching, List.zipIdx_append, List.filter_append, hbefore, List.map_append,
    List.append_cancel_left_eq, List.zipIdx_singleton, List.filter_singleton, hlast]
  by_cases hr : r.applies (RuleSet.apply ⟨rules⟩ a) = true
  · rw [if_pos hr, decide_eq_true (Rule.applies_iff.mp hr)]
    rfl
  · rw [if_neg hr, decide_eq_false fun h => hr (Rule.applies_iff.mpr h)]
    rfl

theorem countFrom_concat : countFrom (rules ++ [r]) a
    = countFrom rules a + if r.applies (RuleSet.apply ⟨rules⟩ a) then 1 else 0 := by
  induction rules generalizing a with
  | nil => exact Nat.add_comm _ _
  | cons r' rest ih =>
      rw [List.cons_append, countFrom, countFrom, ih, Nat.add_assoc]
      rfl

end

variable (s : RuleSet) (a : Annotations)

theorem mem_of_mem_matching {r : Rule} (h : r ∈ s.matching a) : r ∈ s.rules := by
  obtain ⟨x, hx, rfl⟩ := List.mem_map.mp h
  exact List.fst_mem_of_mem_zipIdx (List.mem_of_mem_filter hx)

/-- A rule set inserts what its matching rules say. -/
theorem apply_eq_insertAll : s.apply a = OrderedMap.insertAll a (inserted (s.matching a)) := by
  obtain ⟨rules⟩ := s
  induction rules using List.reverseRecOn with
  | nil => rfl
  | append_singleton rules r ih =>
      rw [apply_concat, matching_concat, inserted, List.map_append, OrderedMap.insertAll_append,
        ← inserted, ← ih]
      unfold Rule.apply
      split <;> rfl

theorem count_eq : s.count a = (s.matching a).length := by
  obtain ⟨rules⟩ := s
  unfold count
  induction rules using List.reverseRecOn with
  | nil => rfl
  | append_singleton rules r ih =>
      rw [countFrom_concat, ih, matching_concat, List.length_append]
      split <;> rfl

theorem get?_apply (key : String) : (s.apply a).get? key
    = ((s.setter? a key).map fun r => Value.string r.value).or (a.get? key) := by
  rw [apply_eq_insertAll, OrderedMap.get?_insertAll, inserted, ← List.map_reverse,
    List.find?_map, Option.map_map]
  rfl

theorem keys_apply : (s.apply a).keys
    = a.keys ++ (((s.matching a).map (·.target)).filter (· ∉ a.keys)).eraseDups := by
  rw [apply_eq_insertAll, OrderedMap.keys_insertAll, inserted, List.map_map]
  rfl

theorem get?_apply_of_no_match {key : String} (h : ∀ r ∈ s.matching a, r.target ≠ key) :
    (s.apply a).get? key = a.get? key := by
  have hnone : s.setter? a key = none := by
    rw [setter?, List.find?_eq_none]
    intro r hr heq
    exact h r (List.mem_reverse.mp hr) (of_decide_eq_true heq)
  rw [get?_apply, hnone]
  rfl

/-- Targets of no rule stay. -/
theorem get?_apply_of_not_target {key : String} (h : ∀ r ∈ s.rules, key ≠ r.target) :
    (s.apply a).get? key = a.get? key :=
  s.get?_apply_of_no_match a fun r hr => (h r (s.mem_of_mem_matching a hr)).symm

/-! ## Rules that do not look at targets -/

section

variable {s} {a : Annotations} (hs : s.Unlinked)

include hs

/-- Rules leave what rules look at. -/
theorem holds_left {r : Rule} (hr : r ∈ s.rules) (i : Nat) :
    (s.left a i).Holds r.source r.expected ↔ a.Holds r.source r.expected := by
  refine Annotations.holds_congr (get?_apply_of_not_target _ a fun r' hr' => ?_) _
  exact hs r hr r' (List.mem_of_mem_take hr')

theorem matching_of_unlinked :
    s.matching a = s.rules.filter fun r => a.Holds r.source r.expected := by
  have hfilter : s.rules.zipIdx.filter (fun x => (s.left a x.2).Holds x.1.source x.1.expected)
      = s.rules.zipIdx.filter fun x => a.Holds x.1.source x.1.expected := by
    refine List.filter_congr fun x hx => ?_
    exact decide_eq_decide.mpr (holds_left hs (List.fst_mem_of_mem_zipIdx hx) x.2)
  have hfst := List.filter_map (f := Prod.fst) (l := s.rules.zipIdx)
    (p := fun r : Rule => a.Holds r.source r.expected)
  rw [List.zipIdx_map_fst] at hfst
  rw [matching, hfilter, hfst]
  rfl

theorem matching_apply : s.matching (s.apply a) = s.matching a := by
  rw [matching_of_unlinked hs, matching_of_unlinked hs]
  refine List.filter_congr fun r hr => decide_eq_decide.mpr ?_
  exact Annotations.holds_congr (s.get?_apply_of_not_target a fun r' hr' => hs r hr r' hr') _

/-- The second time nothing changes. -/
theorem apply_apply : s.apply (s.apply a) = s.apply a := by
  rw [apply_eq_insertAll s (s.apply a), matching_apply hs, apply_eq_insertAll s a,
    OrderedMap.insertAll_insertAll]

variable {s' : RuleSet} (h : s.Reorders s')

include h

theorem unlinked_reorders : s'.Unlinked := fun r hr r' hr' =>
  hs r (h.perm.mem_iff.mp hr) r' (h.perm.mem_iff.mp hr')

theorem setter?_reorders (key : String) : s'.setter? a key = s.setter? a key := by
  have hmatching : (s'.matching a).filter (·.target = key)
      = (s.matching a).filter (·.target = key) := by
    rw [matching_of_unlinked hs, matching_of_unlinked (unlinked_reorders hs h), List.filter_comm,
      h.order, List.filter_comm]
  rw [setter?, setter?, ← List.head?_filter, ← List.head?_filter, List.filter_reverse,
    List.filter_reverse, hmatching]

theorem count_reorders : s'.count a = s.count a := by
  rw [count_eq, count_eq, matching_of_unlinked hs, matching_of_unlinked (unlinked_reorders hs h)]
  exact (h.perm.filter _).length_eq

end

/-! ## Correctness -/

theorem get?_apply_of_last {before after : List Rule} {r : Rule}
    (hsplit : s.matching a = before ++ r :: after) (hafter : ∀ r' ∈ after, r'.target ≠ r.target) :
    (s.apply a).get? r.target = some (.string r.value) := by
  have hnone : after.reverse.find? (·.target = r.target) = none := by
    rw [List.find?_eq_none]
    intro r' hr' heq
    exact hafter r' (List.mem_reverse.mp hr') (of_decide_eq_true heq)
  have hsetter : s.setter? a r.target = some r := by
    rw [setter?, hsplit, List.reverse_append, List.reverse_cons, List.append_assoc,
      List.find?_append, hnone, Option.none_or, List.singleton_append, List.find?_cons,
      decide_eq_true rfl]
  rw [get?_apply, hsetter]
  rfl

/-- A rule matches when its source holds the expected string in what the rules before it
left. Of the matching rules with one target the last one counts; other annotations stay,
and new ones come behind in the order in which rules first match. Where no rule looks at
a target, rules match as on the signal itself; rules with different targets can change
places, and a second time nothing changes. -/
theorem applySignal_correct (s : RuleSet) (x : Signal) :
    let a := x.annotations
    let x' := s.applySignal x
    (∀ i r, s.rules[i]? = some r →
        (r.applies (s.left a i) = true ↔ (s.left a i).Holds r.source r.expected))
      ∧ (∀ before r after, s.matching a = before ++ r :: after →
        (∀ r' ∈ after, r'.target ≠ r.target) →
          x'.annotations.get? r.target = some (.string r.value))
      ∧ (∀ key, (∀ r ∈ s.matching a, r.target ≠ key) → x'.annotations.get? key = a.get? key)
      ∧ x'.annotations.keys
          = a.keys ++ (((s.matching a).map (·.target)).filter (· ∉ a.keys)).eraseDups
      ∧ x'.name = x.name
      ∧ x'.extra = x.extra
      ∧ s.count a = (s.matching a).length
      ∧ (s.Unlinked →
        (∀ i r, s.rules[i]? = some r →
            ((s.left a i).Holds r.source r.expected ↔ a.Holds r.source r.expected))
          ∧ (∀ s', s.Reorders s' →
            (∀ key, (s'.applySignal x).annotations.get? key = x'.annotations.get? key)
              ∧ s'.count a = s.count a)
          ∧ s.applySignal x' = x') := by
  intro a x'
  refine ⟨?_, ?_, ?_, s.keys_apply a, rfl, rfl, s.count_eq a, ?_⟩
  · intro i r _
    exact Rule.applies_iff
  · intro before r after hsplit hafter
    exact s.get?_apply_of_last a hsplit hafter
  · intro key hnone
    exact s.get?_apply_of_no_match a hnone
  intro hs
  refine ⟨?_, ?_, ?_⟩
  · intro i r hr
    exact holds_left hs (List.mem_of_getElem? hr) i
  · intro s' h
    refine ⟨?_, count_reorders hs h⟩
    intro key
    change (s'.apply a).get? key = (s.apply a).get? key
    rw [get?_apply, get?_apply, setter?_reorders hs h]
  · have htwice : s.apply (s.apply a) = s.apply a := apply_apply hs
    exact congrArg (fun a => { x with annotations := a }) htwice

namespace Sample

def real : Rule := ⟨"type", "float", "t", "Real"⟩

def input : Rule := ⟨"direction", "input", "c", "input"⟩

def parameter : Rule := ⟨"direction", "input", "c", "parameter"⟩

def rules : RuleSet := ⟨[input, real, parameter]⟩

/-- Two rules with different targets have changed places. -/
def reordered : RuleSet := ⟨[real, input, parameter]⟩

theorem reorders : rules.Reorders reordered := by
  refine ⟨.swap _ _ _, fun key => ?_⟩
  by_cases hreal : real.target = key
  · subst hreal
    decide
  · have hneighbours : ∀ rest, (real :: input :: rest).filter (·.target = key)
        = (input :: real :: rest).filter (·.target = key) := fun rest => by
      simp only [List.filter_cons, hreal, decide_false, Bool.false_eq_true, if_false]
    exact hneighbours [parameter]

def signal : Signal :=
  ⟨"s", .ofList [("direction", .string "input"), ("type", .tagged "!" (.string "float"))], ∅⟩

end Sample

theorem applySignal_correct_sample :
    (Sample.reordered.applySignal Sample.signal).annotations.get? "c"
        = some (.string "parameter")
      ∧ (Sample.rules.applySignal Sample.signal).annotations.keys
        = ["direction", "type", "c", "t"]
      ∧ Sample.rules.count Sample.signal.annotations = 3
      ∧ Sample.rules.applySignal (Sample.rules.applySignal Sample.signal)
          = Sample.rules.applySignal Sample.signal := by
  obtain ⟨-, hlast, -, hkeys, -, -, hcount, hunlinked⟩ :=
    applySignal_correct Sample.rules Sample.signal
  obtain ⟨-, hreordered, htwice⟩ := hunlinked (by decide)
  refine ⟨?_, hkeys.trans (by decide), hcount.trans (by decide), htwice⟩
  rw [(hreordered _ Sample.reorders).1]
  exact hlast [Sample.input, Sample.real] Sample.parameter [] (by decide) (by decide)

end RuleSet

end SimAnnotate
