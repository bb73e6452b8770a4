import SimAnnotate.Proofs.Run.InPlace
import SimAnnotate.Proofs.Wiring.FirstMatch

/-!
# One group, all or nothing

What annotating a group ought to do, said without computing it: `Refusal` says why it
fails, where the first reason that applies decides, and `Annotates` what there is
afterwards when it does not. `inPlace_allOrNothing` says that the steps of a call do
just this, and that a call that fails leaves everything as it was, although each step
changes what it works on in place.
-/

namespace SimAnnotate.Run

open References (isBinary qualifies referSignals given)

/-! ## What ought to be -/

/-- A document that says that its signals are binary. -/
def Binary (d : Document) : Prop :=
  d.metadata.annotations.string? "vector_type" = some "binary"

/-- A signal that is an input or an output after the rules. -/
def IsVariable (rules : RuleSet) (signal : Signal) : Prop :=
  (rules.apply signal.annotations).string? "fmi_variable_causality"
    ∈ [some "input", some "output"]

instance (rules : RuleSet) (signal : Signal) : Decidable (IsVariable rules signal) :=
  inferInstanceAs (Decidable (_ ∈ _))

/-- Places are wanted, but there is not exactly one Stack. -/
def Stackless (s : Shared) : Prop :=
  (∃ t, s.policy = .table t) ∧ (s.catalog.documents .stack).length ≠ 1

/-- Why no references are given at a handle. -/
inductive Refusal (s : Shared) (h : Handle) : Error → Prop where
  | missing : s.catalog.get? h = none → Refusal s h (.notFound (.document h))
  | binary {d : Document} : s.catalog.get? h = some d → Binary d →
      Refusal s h (.unsupported (.binary d.name))
  | stackCount {d : Document} : s.catalog.get? h = some d → ¬Binary d → Stackless s →
      Refusal s h (.stackCount (s.catalog.documents .stack).length)
  | other {d : Document} : s.catalog.get? h = some d → ¬Binary d → ¬Stackless s →
      d.kind ≠ .signalGroup → Refusal s h (.unsupported (.notSignalGroup d.name))

/-- The reference for a signal behind others, if it gets one: the next number, or its
place in the channel of the group. -/
def referenceAt? (rules : RuleSet) (channel : Option String) (policy : ReferencePolicy)
    (before : List Signal) (signal : Signal) : Option Nat :=
  if IsVariable rules signal then
    match policy with
    | .counter last => some (last + (before.countP fun b => IsVariable rules b) + 1)
    | .table t => channel.bind (t.lookup · signal.name)
  else none

/-- The references for the signals of a group. -/
def referencesFor (rules : RuleSet) (channel : Option String) (policy : ReferencePolicy)
    (signals : List Signal) : List (Option Nat) :=
  signals.zipIdx.map fun (signal, i) =>
    referenceAt? rules channel policy (signals.take i) signal

/-- A signal afterwards, for which there was a reference or not. -/
def annotated (rules : RuleSet) (signal : Signal) (reference : Option Nat) : Signal :=
  { signal with
    annotations :=
      match reference with
      | some n =>
          (((rules.apply signal.annotations).insert "fmi_variable_vref" (.ofNat n)).insert
            "fmi_variable_type" (.string "Real")).insert "fmi_variable_name"
              (.string signal.name)
      | none => rules.apply signal.annotations }

/-- The policy when `n` references have been given: a table stays as it is. -/
def advancedBy : ReferencePolicy → Nat → ReferencePolicy
  | .counter last, n => .counter (last + n)
  | .table t, _ => .table t

/-- The references for a group. -/
def Shared.referencesOf (s : Shared) (x : Call) (d : Document) (g : SignalGroup) :
    List (Option Nat) :=
  referencesFor x.rules (Wiring.channel s.catalog d).toOption s.policy g.signals

/-- A call that gives `n` references to the group `g`, which is the document `d` of the
file `p`, turns `s` into `s'`. -/
structure Annotates (s : Shared) (x : Call) (d : Document) (g : SignalGroup) (p : Path)
    (n : Nat) (s' : Shared) : Prop where
  found : s.catalog.get? x.handle = some d
  group : d.spec = .signalGroup g
  file : d.file = some p
  count : n = (s.referencesOf x d g).countP (·.isSome)
  /-- Of the group only the annotations of its signals are new. -/
  document : s'.catalog.get? x.handle = some { d with
    spec := .signalGroup { g with
      signals := List.zipWith (annotated x.rules) g.signals (s.referencesOf x d g) } }
  others : ∀ h, h ≠ x.handle → s'.catalog.get? h = s.catalog.get? h
  records : s'.catalog.records = s.catalog.records
  excluded : s'.catalog.excluded = s.catalog.excluded
  flagged : s'.catalog.flagged.values
    = s.catalog.flagged.values ++ if s.catalog.isFlagged p then [] else [p]
  policy : s'.policy = advancedBy s.policy n

/-! ## The signals of a group -/

theorem qualifies_iff {rules : RuleSet} {signal : Signal} :
    qualifies (rules.apply signal.annotations) = true ↔ IsVariable rules signal := by
  simp [qualifies, IsVariable, RuleSet.causality]

theorem given_eq (rules : RuleSet) (reference : Option Nat) (signal : Signal) :
    given rules reference signal
      = annotated rules signal (if IsVariable rules signal then reference else none) := by
  unfold given
  by_cases h : IsVariable rules signal
  · have hqualifies := qualifies_iff.mpr h
    rw [if_pos h]
    dsimp only [RuleSet.applySignal]
    rw [if_pos hqualifies]
    cases reference <;> rfl
  · have hqualifies := mt qualifies_iff.mp h
    rw [if_neg h]
    dsimp only [RuleSet.applySignal]
    rw [if_neg hqualifies]
    rfl

section

variable (x : Call) (channel : Option String) (policy : ReferencePolicy) (signal : Signal)

theorem referenceAt?_nil : referenceAt? x.rules channel policy [] signal
    = if IsVariable x.rules signal then policy.reference? channel signal else none := by
  unfold referenceAt?
  cases policy <;> rfl

/-- What a signal takes is gone for the signals behind it. -/
theorem referenceAt?_cons (before : List Signal) (signal' : Signal) :
    referenceAt? x.rules channel policy (signal :: before) signal'
      = referenceAt? x.rules channel (policyAfter x policy signal) before signal' := by
  unfold referenceAt? policyAfter
  cases policy with
  | table t => rw [ReferencePolicy.advance, ite_self]
  | counter last =>
      by_cases h : IsVariable x.rules signal
      · have hqualifies := qualifies_iff.mpr h
        have hnext : ∀ n, last + (n + 1) = last + 1 + n := fun n => by omega
        rw [if_pos hqualifies, List.countP_cons_of_pos (by simpa using h)]
        dsimp only [ReferencePolicy.advance]
        rw [hnext]
      · have hqualifies := mt qualifies_iff.mp h
        rw [if_neg hqualifies, List.countP_cons_of_neg (by simpa using h)]

theorem referencesFor_cons (rest : List Signal) :
    referencesFor x.rules channel policy (signal :: rest)
      = referenceAt? x.rules channel policy [] signal
        :: referencesFor x.rules channel (policyAfter x policy signal) rest := by
  rw [referencesFor, List.zipIdx_cons, List.map_cons, Nat.zero_add, List.zipIdx_succ,
    List.map_map, referencesFor]
  refine congrArg _ (List.map_congr_left fun e _ => ?_)
  exact referenceAt?_cons x channel policy signal _ _

theorem takes_eq : takes x channel policy signal
    = (referenceAt? x.rules channel policy [] signal).isSome := by
  rw [referenceAt?_nil, takes]
  by_cases h : IsVariable x.rules signal
  · rw [if_pos h, qualifies_iff.mpr h, Bool.true_and]
  · rw [if_neg h, Bool.eq_false_iff.mpr (mt qualifies_iff.mp h), Bool.false_and]
    rfl

theorem policyAfter_eq : policyAfter x policy signal
    = advancedBy policy (if takes x channel policy signal then 1 else 0) := by
  unfold policyAfter takes
  cases policy with
  | counter last =>
      rw [ReferencePolicy.reference?, Option.isSome_some, Bool.and_true]
      split <;> rfl
  | table t => exact ite_self _

omit x channel signal in
theorem advancedBy_add (m n : Nat) :
    advancedBy (advancedBy policy m) n = advancedBy policy (m + n) := by
  cases policy with
  | counter last => exact congrArg _ (Nat.add_assoc last m n)
  | table t => rfl

/-- What is computed for a group is what ought to be. -/
theorem referSignals_eq (signals : List Signal) :
    referSignals x.rules channel signals policy
      = (let references := referencesFor x.rules channel policy signals
        let n := references.countP (·.isSome)
        ⟨List.zipWith (annotated x.rules) signals references, n,
          advancedBy policy n⟩) := by
  induction signals generalizing policy with
  | nil =>
      rw [referSignals_nil]
      cases policy <;> rfl
  | cons signal rest ih =>
      have hpolicy := policyAfter_eq x channel policy signal
      rw [takes_eq] at hpolicy
      rw [referSignals_cons, ih, referencesFor_cons, given_eq, ← referenceAt?_nil, takes_eq]
      dsimp only
      rw [List.zipWith_cons_cons, List.countP_cons]
      generalize policyAfter x policy signal = after at hpolicy ⊢
      subst hpolicy
      rw [advancedBy_add, Nat.add_comm (List.countP _ _)]

end

/-! ## A call -/

theorem isBinary_iff {d : Document} : isBinary d = true ↔ Binary d := by
  simp [isBinary, Binary, References.encodingKey]

theorem isBinary_of_not {d : Document} (h : ¬Binary d) : isBinary d = false :=
  Bool.eq_false_iff.mpr (mt isBinary_iff.mp h)

variable {s : Shared} {x : Call}

/-- Where there is the Stack that a policy needs, it is known how a group is wired. -/
theorem exists_channel? (h : ¬Stackless s) (d : Document) : ∃ channel,
    References.channel? s.catalog s.policy d = .ok channel ∧ ∀ rules signals,
      referSignals rules channel signals s.policy
        = referSignals rules (Wiring.channel s.catalog d).toOption signals s.policy := by
  obtain ⟨c, policy⟩ := s
  cases policy with
  | counter last => exact ⟨none, rfl, fun _ _ => rfl⟩
  | table t =>
      have hlength : (c.documents .stack).length = 1 := by
        by_contra hne
        exact h ⟨⟨t, rfl⟩, hne⟩
      obtain ⟨stack, hstack⟩ := List.length_eq_one_iff.mp hlength
      obtain ⟨channel, hchannel⟩ :=
        Wiring.exists_channel? ⟨stack, Catalog.stackDocument_eq_ok.mpr hstack⟩ d
      refine ⟨channel, hchannel, fun rules signals => ?_⟩
      have hoption : (Wiring.channel c d).toOption = channel := by
        rw [Wiring.channel, hchannel]
        cases channel <;> rfl
      rw [hoption]

theorem signalGroup?_of_kind {d : Document} (h : d.kind ≠ .signalGroup) :
    d.signalGroup? = none := by
  unfold Document.kind at h
  unfold Document.signalGroup?
  split <;> simp_all

/-- A call that there is a reason to refuse. -/
theorem call_of_refusal {e : Error} (h : Refusal s x.handle e) : s.call x = (.error e, s) := by
  unfold Shared.call References.annotate
  -- each reason stops the call at its own check, behind those of the reasons before it
  cases h with
  | missing hd => rw [hd]
  | binary hd hbinary =>
      rw [hd]
      dsimp only
      rw [if_pos (isBinary_iff.mpr hbinary)]
  | stackCount hd hbinary hstacks =>
      obtain ⟨⟨t, hpolicy⟩, hlength⟩ := hstacks
      have hchannel := Wiring.channel?_of_length_ne hlength
      rw [hd]
      dsimp only
      rw [isBinary_of_not hbinary, hpolicy, References.channel?, hchannel]
      rfl
  | other hd hbinary hstacks hkind =>
      obtain ⟨channel, hchannel, -⟩ := exists_channel? hstacks _
      rw [hd]
      dsimp only
      rw [isBinary_of_not hbinary, hchannel, signalGroup?_of_kind hkind]
      rfl

/-- Where there is no reason to refuse a call there is a group. -/
theorem refusal_or_group (s : Shared) (h : Handle) : (∃ e, Refusal s h e)
    ∨ ∃ d g, s.catalog.get? h = some d ∧ ¬Binary d ∧ ¬Stackless s ∧ d.spec = .signalGroup g := by
  cases hd : s.catalog.get? h with
  | none => exact .inl ⟨_, .missing hd⟩
  | some d =>
      by_cases hbinary : Binary d
      · exact .inl ⟨_, .binary hd hbinary⟩
      · by_cases hstacks : Stackless s
        · exact .inl ⟨_, .stackCount hd hbinary hstacks⟩
        · cases hspec : d.spec with
          | signalGroup g => exact .inr ⟨d, g, rfl, hbinary, hstacks, hspec⟩
          | stack _ | model _ | other _ _ =>
              refine .inl ⟨_, .other hd hbinary hstacks ?_⟩
              rw [Document.kind, hspec]
              intro hkind
              cases hkind

/-- A call that there is no reason to refuse. -/
theorem annotates_of_group {d : Document} {g : SignalGroup} {p : Path}
    (hd : s.catalog.get? x.handle = some d) (hbinary : ¬Binary d) (hstacks : ¬Stackless s)
    (hspec : d.spec = .signalGroup g) (hfile : d.file = some p)
    (hp : s.catalog.contains p = true) :
    ∃ n, (s.call x).1 = .ok n ∧ Annotates s x d g p n (s.call x).2 := by
  have hg : d.signalGroup? = some g := by
    rw [Document.signalGroup?, hspec]
  obtain ⟨channel, hchannel, hrefer⟩ := exists_channel? hstacks d
  have hcall : s.call x = (.ok ((s.referencesOf x d g).countP (·.isSome)),
      ⟨s.catalog.revise x.handle d (·.mapSignals fun _ =>
          List.zipWith (annotated x.rules) g.signals (s.referencesOf x d g)),
        advancedBy s.policy ((s.referencesOf x d g).countP (·.isSome))⟩) := by
    rw [Shared.call, References.annotate_of_get? hd hg, isBinary_of_not hbinary, hchannel]
    simp only [Bool.false_eq_true, if_false, Except.map]
    rw [hrefer, referSignals_eq]
    rfl
  rw [hcall]
  refine ⟨_, rfl, hd, hspec, hfile, rfl, ?_, fun h hne => ?_, ?_, ?_, ?_, rfl⟩
  · rw [Catalog.get?_revise, Catalog.get?_modify_self, hd, Option.map_some,
      Document.mapSignals, hspec]
  · rw [Catalog.get?_revise, Catalog.get?_modify_ne _ hne]
  · exact Catalog.records_revise _ _ _ _
  · exact Catalog.excluded_revise _ _ _ _
  · exact Catalog.flagged_revise _ _ _ hfile hp

/-- Over every catalog that operations build, the steps of a call come to what the
call comes to as a whole. They fail just where there is a reason to refuse the call,
for the first such reason, and then the catalog and the policy are as they were.
Otherwise they annotate the group and nothing else, flag its file, and count the
references that they give. -/
theorem inPlace_allOrNothing (ops : List Catalog.Operation) (policy : ReferencePolicy)
    (x : Call) :
    let s : Shared := ⟨Catalog.ofOperations ops, policy⟩
    let r := x.inPlace.from s
    r = s.call x
      ∧ (∀ e, r.1 = .error e ↔ Refusal s x.handle e)
      ∧ (∀ e, r.1 = .error e → r.2 = s)
      ∧ ∀ n, r.1 = .ok n → ∃ d g p, Annotates s x d g p n r.2 := by
  intro s r
  have hr : r = s.call x := run_inPlace s x
  rcases refusal_or_group s x.handle with ⟨e, he⟩ | ⟨d, g, hd, hbinary, hstacks, hspec⟩
  · have hcall : r = (.error e, s) := hr.trans (call_of_refusal he)
    rw [hcall]
    refine ⟨hcall ▸ hr, fun e' => ⟨fun h => ?_, fun h => ?_⟩, fun _ _ => rfl, nofun⟩
    · cases h
      exact he
    · exact congrArg Prod.fst ((call_of_refusal he).symm.trans (call_of_refusal h))
  · -- a document with a handle came with a file, which can be flagged
    have hrefines := Catalog.refines_ofOperations ops
    obtain ⟨f, hf, hmem⟩ := hrefines.exists_file hd
    have hfile : d.file = some f.path := hrefines.filed f hf d hmem
    have hp : s.catalog.contains f.path = true := by
      rw [hrefines.contains, Listing.contains_iff]
      exact List.mem_map_of_mem hf
    obtain ⟨n, hok, hannotates⟩ := annotates_of_group hd hbinary hstacks hspec hfile hp
    rw [← hr] at hok hannotates
    refine ⟨hr, fun e => ⟨fun h => ?_, fun h => ?_⟩, fun e h => ?_, fun n' h => ?_⟩
    · cases hok.symm.trans h
    · rw [hr, call_of_refusal h]
    · cases hok.symm.trans h
    · cases hok.symm.trans h
      exact ⟨d, g, f.path, hannotates⟩

end SimAnnotate.Run
