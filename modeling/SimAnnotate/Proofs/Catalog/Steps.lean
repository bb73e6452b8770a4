import SimAnnotate.Proofs.Except
import SimAnnotate.References
import SimAnnotate.StackSummary

/-!
# What the steps of a run do to a catalog

Giving references and summarising come down to one thing, `Catalog.revise`: a
look at a document, a change of it and a flag on its file. The lemmas here say
so once, so that no other proof opens these steps.
-/

namespace SimAnnotate

namespace Catalog

variable (c : Catalog)

/-! ## Documents -/

theorem exists_get? {p : Path} {d : Document} (hd : d ∈ c.documentsOf p) :
    ∃ h, c.get? h = some d := by
  unfold documentsOf at hd
  cases hr : c.records.get? p.parts with
  | none =>
      rw [hr] at hd
      cases hd
  | some r =>
      rw [hr] at hd
      obtain ⟨h, -, hd⟩ := List.mem_filterMap.mp hd
      exact ⟨h, hd⟩

/-! ## Changing a document -/

theorem documents_modify (h : Handle) (f : Document → Document) (k : Kind) :
    (c.modify h f).documents k
      = if k = h.kind then (c.documents k).modify h.position f
        else c.documents k := by
  rw [documents, modify, OrderedMap.get?_map]
  cases hk : c.byKind.get? k with
  | none => simp [documents, hk]
  | some ds => split <;> simp [documents, hk]

theorem get?_handle (k : Kind) (n : Nat) : c.get? ⟨k, n⟩ = (c.documents k)[n]? := rfl

theorem get?_modify_self (h : Handle) (f : Document → Document) :
    (c.modify h f).get? h = (c.get? h).map f := by
  rw [get?, documents_modify, if_pos rfl, List.getElem?_modify_eq]
  rfl

theorem get?_modify_ne {h h' : Handle} (hne : h' ≠ h) (f : Document → Document) :
    (c.modify h f).get? h' = c.get? h' := by
  rw [get?, documents_modify]
  split
  · next hk =>
      have hpos : h.position ≠ h'.position := by
        intro hpos
        exact hne (by cases h; cases h'; simp_all)
      rw [List.getElem?_modify_ne _ _ hpos]
      rfl
  · rfl

variable {c} in
/-- Catalogs with the same kinds, documents, files and flags are the same. -/
theorem ext_get? {c' : Catalog} (hkeys : c'.byKind.keys = c.byKind.keys)
    (hget : ∀ h, c'.get? h = c.get? h) (hrecords : c'.records = c.records)
    (hflagged : c'.flagged = c.flagged) (hexcluded : c'.excluded = c.excluded) : c' = c := by
  have hdocuments : ∀ k, c'.documents k = c.documents k := fun k =>
    List.ext_getElem? fun i => hget ⟨k, i⟩
  -- a kind without an entry and one with no documents look the same, hence the keys
  have hbyKind : c'.byKind = c.byKind := by
    refine OrderedMap.ext_get? hkeys fun k => ?_
    by_cases hk : k ∈ c.byKind.keys
    · have hds := OrderedMap.contains_iff.mpr hk
      have hds' := OrderedMap.contains_iff.mpr (hkeys ▸ hk)
      obtain ⟨ds, hds⟩ := Option.isSome_iff_exists.mp hds
      obtain ⟨ds', hds'⟩ := Option.isSome_iff_exists.mp hds'
      have hsame := hdocuments k
      rw [documents, documents, hds, hds'] at hsame
      rw [hds, hds']
      exact congrArg some hsame
    · rw [OrderedMap.get?_eq_none hk, OrderedMap.get?_eq_none (hkeys ▸ hk)]
  cases c
  cases c'
  cases hbyKind
  cases hrecords
  cases hflagged
  cases hexcluded
  rfl

theorem modify_modify (h : Handle) (f g : Document → Document) :
    (c.modify h f).modify h g = c.modify h fun d => g (f d) := by
  refine ext_get? (by simp [modify]) (fun h' => ?_) rfl rfl rfl
  by_cases hh : h' = h
  · subst hh
    simp only [get?_modify_self, Option.map_map, Function.comp_def]
  · simp only [get?_modify_ne _ hh]

/-- A change that leaves the document at a handle changes nothing. -/
theorem modify_eq_self {h : Handle} {f : Document → Document}
    (hf : ∀ d, c.get? h = some d → f d = d) : c.modify h f = c := by
  refine ext_get? (OrderedMap.keys_map _ _) (fun h' => ?_) rfl rfl rfl
  by_cases hh : h' = h
  · subst hh
    rw [get?_modify_self]
    cases hd : c.get? h' with
    | none => rfl
    | some d => rw [Option.map_some, hf d hd]
  · rw [get?_modify_ne _ hh]

/-! ## Flags -/

@[simp] theorem byKind_flag (p : Path) : (c.flag p).byKind = c.byKind := by
  unfold flag
  split <;> rfl

@[simp] theorem records_flag (p : Path) : (c.flag p).records = c.records := by
  unfold flag
  split <;> rfl

@[simp] theorem excluded_flag (p : Path) : (c.flag p).excluded = c.excluded := by
  unfold flag
  split <;> rfl

/-- A file that is known is flagged then. -/
theorem isFlagged_flag_self {p : Path} (hp : c.contains p = true) :
    (c.flag p).isFlagged p = true := by
  unfold flag
  by_cases hflagged : c.isFlagged p = true
  · rw [if_neg (by simp [hflagged])]
    exact hflagged
  · rw [if_pos (by simp [hp, hflagged]), isFlagged, OrderedMap.contains_iff]
    exact OrderedMap.mem_keys_insert.mpr (.inl rfl)

theorem isFlagged_flag (p : Path) {q : Path} (hq : c.isFlagged q = true) :
    (c.flag p).isFlagged q = true := by
  unfold flag
  split
  · rw [isFlagged, OrderedMap.contains_iff] at hq ⊢
    exact OrderedMap.mem_keys_insert.mpr (.inr hq)
  · exact hq

/-- A flag is for the one file. -/
theorem isFlagged_flag_iff {p q : Path} : (c.flag p).isFlagged q = true ↔
    c.isFlagged q = true ∨ c.contains p = true ∧ q.parts = p.parts := by
  constructor
  · intro hq
    by_cases hp : c.contains p = true ∧ c.isFlagged p = false
    · rw [flag, if_pos (by simp [hp]), isFlagged, OrderedMap.contains_iff,
        OrderedMap.mem_keys_insert, ← OrderedMap.contains_iff] at hq
      exact hq.symm.imp_right fun hparts => ⟨hp.1, hparts⟩
    · rw [flag, if_neg (by simpa using hp)] at hq
      exact .inl hq
  · rintro (hq | ⟨hp, hparts⟩)
    · exact c.isFlagged_flag p hq
    · rw [isFlagged, hparts]
      exact c.isFlagged_flag_self hp

/-- A flag comes behind the others, if it is new and its file is known. -/
theorem flagged_flag (p : Path) : (c.flag p).flagged.values
    = c.flagged.values ++ if c.contains p && !c.isFlagged p then [p] else [] := by
  unfold flag
  split
  · next hp =>
      have hnew : p.parts ∉ c.flagged.keys := by
        rw [Bool.and_eq_true, Bool.not_eq_true'] at hp
        rw [← OrderedMap.contains_iff]
        exact Bool.eq_false_iff.mp hp.2
      rw [OrderedMap.values, OrderedMap.entries_insert_of_not_mem hnew, List.map_append]
      rfl
  · exact (List.append_nil _).symm

theorem mem_flagged_flag {p q : Path} (hq : q ∈ (c.flag p).flagged.values) :
    q ∈ c.flagged.values ∨ q = p := by
  rw [flagged_flag, List.mem_append] at hq
  refine hq.imp_right fun hq => ?_
  split at hq
  · exact List.mem_singleton.mp hq
  · cases hq

/-- What is flagged depends on the files and the flags. -/
theorem flagged_flag_congr {c c' : Catalog} (hrecords : c'.records = c.records)
    (hflagged : c'.flagged = c.flagged) (p : Path) :
    (c'.flag p).flagged = (c.flag p).flagged := by
  unfold flag contains isFlagged
  rw [hrecords, hflagged]
  split
  · rfl
  · exact hflagged

/-! ## Revising a document -/

/-- Changes a document, as which `d` was found, and flags its file. -/
def revise (c : Catalog) (h : Handle) (d : Document) (f : Document → Document) :
    Catalog :=
  References.flagFile (c.modify h f) d

section

variable (h : Handle) (d : Document) (f : Document → Document)

@[simp] theorem documents_revise (k : Kind) :
    (c.revise h d f).documents k = (c.modify h f).documents k := by
  unfold revise References.flagFile documents
  split <;> simp

@[simp] theorem get?_revise (h' : Handle) :
    (c.revise h d f).get? h' = (c.modify h f).get? h' := by
  rw [get?, documents_revise]
  rfl

@[simp] theorem records_revise : (c.revise h d f).records = c.records := by
  unfold revise References.flagFile
  split <;> simp [modify]

@[simp] theorem excluded_revise : (c.revise h d f).excluded = c.excluded := by
  unfold revise References.flagFile
  split <;> simp [modify]

theorem isFlagged_revise_self {d : Document} {p : Path} (hfile : d.file = some p)
    (hp : c.contains p = true) : (c.revise h d f).isFlagged p = true := by
  unfold revise References.flagFile
  rw [hfile]
  exact isFlagged_flag_self _ hp

theorem isFlagged_revise {q : Path} (hq : c.isFlagged q = true) :
    (c.revise h d f).isFlagged q = true := by
  unfold revise References.flagFile
  split
  · exact isFlagged_flag _ _ hq
  · exact hq

theorem isFlagged_revise_iff {q : Path} : (c.revise h d f).isFlagged q = true ↔
    c.isFlagged q = true
      ∨ ∃ p, d.file = some p ∧ c.contains p = true ∧ q.parts = p.parts := by
  unfold revise References.flagFile
  split
  · next p hfile =>
      refine (isFlagged_flag_iff _).trans (or_congr_right ?_)
      rw [hfile]
      exact ⟨fun hp => ⟨p, rfl, hp⟩, fun ⟨_, hp', hp⟩ => Option.some.inj hp' ▸ hp⟩
  · next hfile =>
      refine ⟨.inl, fun hq => hq.resolve_right ?_⟩
      rintro ⟨p, hp, -⟩
      rw [hfile] at hp
      cases hp

theorem mem_flagged_revise {q : Path} (hq : q ∈ (c.revise h d f).flagged.values) :
    q ∈ c.flagged.values ∨ d.file = some q := by
  unfold revise References.flagFile at hq
  split at hq
  · next p hfile =>
      rcases mem_flagged_flag _ hq with hq | rfl
      · exact .inl hq
      · exact .inr hfile
  · exact .inl hq

/-- The flag of a known file is the only one that can be new. -/
theorem flagged_revise {d : Document} {p : Path} (hfile : d.file = some p)
    (hp : c.contains p = true) : (c.revise h d f).flagged.values
      = c.flagged.values ++ if c.isFlagged p then [] else [p] := by
  have hflagged := flagged_flag (c.modify h f) p
  unfold revise References.flagFile
  rw [hfile]
  refine hflagged.trans ?_
  show c.flagged.values ++ (if c.contains p && !c.isFlagged p then [p] else []) = _
  rw [hp]
  cases c.isFlagged p <;> rfl

theorem flagged_revise_congr {c c' : Catalog} (hrecords : c'.records = c.records)
    (hflagged : c'.flagged = c.flagged) {d d' : Document} (hfile : d'.file = d.file)
    (h : Handle) (f f' : Document → Document) :
    (c'.revise h d' f').flagged = (c.revise h d f).flagged := by
  have hrecords' : (c'.modify h f').records = (c.modify h f).records := hrecords
  have hflagged' : (c'.modify h f').flagged = (c.modify h f).flagged := hflagged
  unfold revise References.flagFile
  rw [hfile]
  split
  · exact flagged_flag_congr hrecords' hflagged' _
  · exact hflagged'

end

/-! ## The only Stack -/

theorem stackDocument_eq_ok {c : Catalog} {d : Document} :
    c.stackDocument = .ok d ↔ c.documents .stack = [d] := by
  unfold stackDocument
  split
  · next d' h => simp [h]
  · next h =>
      refine ⟨nofun, fun hd => ?_⟩
      exact absurd hd (h d)

/-- The only Stack is the first one. -/
theorem stackHandle_eq : c.stackHandle = c.stackDocument.map fun _ => ⟨.stack, 0⟩ := by
  unfold stackHandle handles stackDocument
  cases hc : c.documents .stack with
  | nil => rfl
  | cons d rest =>
      cases rest with
      | nil => rfl
      | cons d' rest =>
          have hlen : (d :: d' :: rest).length = rest.length + 1 + 1 := rfl
          rw [hlen, List.range_succ_eq_map, List.range_succ_eq_map]
          simp [Except.map]

theorem exists_stackHandle_iff {c : Catalog} :
    (∃ h, c.stackHandle = .ok h) ↔ ∃ d, c.stackDocument = .ok d := by
  simp only [stackHandle_eq, Except.map_eq_ok]
  exact ⟨fun ⟨_, d, hd, _⟩ => ⟨d, hd⟩, fun ⟨d, hd⟩ => ⟨_, d, hd, rfl⟩⟩

end Catalog

/-- The summary revises the only Stack. -/
theorem StackSummary.annotate_eq (c : Catalog) (sim : Path) :
    annotate c sim = c.stackDocument.map fun d =>
      c.revise ⟨.stack, 0⟩ d (summarise (filesBelow c sim)) := by
  unfold annotate
  rw [c.stackHandle_eq]
  cases hd : c.stackDocument with
  | error e => rfl
  | ok d =>
      have hget : c.get? ⟨.stack, 0⟩ = some d := by
        rw [c.get?_handle, Catalog.stackDocument_eq_ok.mp hd]
        rfl
      change Except.ok (((c.get? ⟨.stack, 0⟩).bind (·.file)).elim _ _)
        = Except.ok (c.revise _ d _)
      rw [hget, Option.bind_some]
      unfold Catalog.revise References.flagFile
      cases d.file <;> rfl

/-! ## Giving references -/

namespace References

variable {c : Catalog} {h : Handle} {d : Document}

/-- A signal group that is not binary is revised. -/
theorem annotate_of_get? {g : SignalGroup} (hd : c.get? h = some d)
    (hg : d.signalGroup? = some g) (rules : RuleSet) (policy : ReferencePolicy) :
    annotate c h rules policy
      = if isBinary d then .error (.unsupported (.binary d.name))
        else (channel? c policy d).map fun channel =>
          let r := referSignals rules channel g.signals policy
          ⟨c.revise h d (·.mapSignals fun _ => r.signals), r.policy, r.count⟩ := by
  unfold annotate
  rw [hd]
  dsimp only
  rw [hg]
  split
  · rfl
  · cases channel? c policy d <;> rfl

/-- The signal group at a handle with the references that it gets. -/
def referred (c : Catalog) (h : Handle) (rules : RuleSet) (policy : ReferencePolicy) :
    Except Error (Document × Referred) :=
  match c.get? h with
  | none => .error (.notFound (.document h))
  | some d =>
      if isBinary d then .error (.unsupported (.binary d.name))
      else do
        let channel ← channel? c policy d
        match d.signalGroup? with
        | none => throw (.unsupported (.notSignalGroup d.name))
        | some g => return (d, referSignals rules channel g.signals policy)

theorem annotate_eq (c : Catalog) (h : Handle) (rules : RuleSet) (policy : ReferencePolicy) :
    annotate c h rules policy = (referred c h rules policy).map fun x =>
      ⟨c.revise h x.1 (·.mapSignals fun _ => x.2.signals), x.2.policy, x.2.count⟩ := by
  unfold annotate referred
  cases c.get? h with
  | none => rfl
  | some d =>
      dsimp only
      split
      · rfl
      · cases channel? c policy d with
        | error e => rfl
        | ok channel =>
            rw [Except.ok_bind, Except.ok_bind]
            cases d.signalGroup? <;> rfl

theorem of_referred {rules : RuleSet} {policy : ReferencePolicy} {x : Document × Referred}
    (hx : referred c h rules policy = .ok x) : c.get? h = some x.1 ∧ isBinary x.1 = false
      ∧ ∃ channel g, channel? c policy x.1 = .ok channel ∧ x.1.signalGroup? = some g
        ∧ x.2 = referSignals rules channel g.signals policy := by
  unfold referred at hx
  cases hd : c.get? h with
  | none =>
      rw [hd] at hx
      cases hx
  | some d =>
      rw [hd] at hx
      dsimp only at hx
      cases hbinary : isBinary d with
      | true =>
          rw [hbinary, if_pos rfl] at hx
          cases hx
      | false =>
          rw [hbinary, if_neg Bool.false_ne_true] at hx
          obtain ⟨channel, hchannel, hx⟩ := Except.bind_eq_ok.mp hx
          cases hg : d.signalGroup? with
          | none =>
              rw [hg] at hx
              cases hx
          | some g =>
              rw [hg] at hx
              cases hx
              exact ⟨rfl, hbinary, channel, g, hchannel, hg, rfl⟩

end References

end SimAnnotate
