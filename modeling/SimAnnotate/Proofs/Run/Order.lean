import SimAnnotate.Proofs.Run.Counting

/-!
# Calls in any order

Calls that take references from a table share nothing that they change: what a call reads
of other documents are outlines, and these stay. So a call has the outcome that it has
alone, whatever calls at other handles come before it (`Shared.call_since`), and calls at
different handles can be made in any order (`Shared.calls_perm`).
-/

namespace SimAnnotate

/-- What a group gets from a table depends on the group and on what groups are wired to. -/
theorem References.referred_congr {c c' : Catalog} {h : Handle} (hget : c'.get? h = c.get? h)
    (hchannel : ∀ d, Wiring.channel? c' d = Wiring.channel? c d) (rules : RuleSet)
    (t : OffsetTable) : referred c' h rules (.table t) = referred c h rules (.table t) := by
  unfold referred channel?
  rw [hget]
  simp only [hchannel]

namespace Run

namespace Shared

/-! ## One call -/

variable {s s' : Shared} {x : Call}

theorem evolves_call : s.catalog.Evolves [x.handle] (s.call x).2.catalog := by
  unfold call
  cases ha : References.annotate s.catalog x.handle x.rules s.policy with
  | error e => exact .mono (.refl s.catalog) (List.nil_subset _)
  | ok a => exact .annotate ha

/-- The table stays. -/
theorem policy_call {t : OffsetTable} (hpolicy : s.policy = .table t) :
    (s.call x).2.policy = .table t := by
  cases hr : References.referred s.catalog x.handle x.rules s.policy with
  | error e => rw [call_of_error hr, hpolicy]
  | ok r =>
      obtain ⟨-, -, channel, g, -, -, hreferred⟩ := References.of_referred hr
      rw [call_of_referred hr, hreferred, hpolicy]
      rfl

/-- What a call at a handle comes to when it is made in `s'` instead of `s`. -/
structure Alone (s s' : Shared) (x : Call) : Prop where
  outcome : (s'.call x).1 = (s.call x).1
  document : (s'.call x).2.catalog.get? x.handle = (s.call x).2.catalog.get? x.handle
  flagged : ∀ p, (s'.call x).2.catalog.isFlagged p = true ↔
    s'.catalog.isFlagged p = true ∨ (s.call x).2.catalog.isFlagged p = true

/-- Calls at other handles do not matter to a call that takes references from a table. -/
theorem call_since {t : OffsetTable} {hs : List Handle} (hpolicy : s.policy = .table t)
    (hpolicy' : s'.policy = .table t) (he : s.catalog.Evolves hs s'.catalog)
    (hx : x.handle ∉ hs) : Alone s s' x := by
  have hget := he.kept x.handle hx
  have hreferred : References.referred s'.catalog x.handle x.rules s'.policy
      = References.referred s.catalog x.handle x.rules s.policy := by
    rw [hpolicy, hpolicy']
    exact References.referred_congr hget (fun d => he.channel? rfl) x.rules t
  cases hr : References.referred s.catalog x.handle x.rules s.policy with
  | error e =>
      have hcall := call_of_error hr
      have hcall' := call_of_error (hreferred.trans hr)
      refine ⟨by rw [hcall, hcall'], by rw [hcall, hcall', hget], fun p => ?_⟩
      rw [hcall, hcall']
      exact ⟨.inl, fun hp => hp.elim id (he.flags p)⟩
  | ok r =>
      have hcall := call_of_referred hr
      have hcall' := call_of_referred (hreferred.trans hr)
      refine ⟨by rw [hcall, hcall'], ?_, fun p => ?_⟩
      · rw [hcall, hcall', Catalog.get?_revise, Catalog.get?_revise, Catalog.get?_modify_self,
          Catalog.get?_modify_self, hget]
      · rw [hcall, hcall', Catalog.isFlagged_revise_iff, Catalog.isFlagged_revise_iff]
        -- the same files are known, and what was flagged still is
        simp only [Catalog.contains, he.records]
        exact ⟨fun hp => hp.imp_right .inr, fun hp => hp.elim .inl (Or.imp_left (he.flags p))⟩

/-! ## All calls -/

theorem policy_calls {t : OffsetTable} (hpolicy : s.policy = .table t) (xs : List Call) :
    (s.calls xs).2.policy = .table t := by
  induction xs generalizing s with
  | nil => exact hpolicy
  | cons x rest ih => exact ih (policy_call hpolicy)

/-- What calls come to that are made in `s'`, each told from what it does in `s`. -/
structure AllAlone (s s' : Shared) (xs : List Call) : Prop where
  outcomes : (s'.calls xs).1.map (fun m => (m.call, m.outcome)) = xs.map fun x => (x, (s.call x).1)
  called : ∀ x ∈ xs,
    (s'.calls xs).2.catalog.get? x.handle = (s.call x).2.catalog.get? x.handle
  flagged : ∀ p, (s'.calls xs).2.catalog.isFlagged p = true ↔
    s'.catalog.isFlagged p = true ∨ ∃ x ∈ xs, (s.call x).2.catalog.isFlagged p = true

/-- Calls at different handles have the outcomes that they have alone. -/
theorem calls_since {t : OffsetTable} (hpolicy : s.policy = .table t) {hs : List Handle}
    (hpolicy' : s'.policy = .table t) (he : s.catalog.Evolves hs s'.catalog) {xs : List Call}
    (hnodup : (hs ++ xs.map Call.handle).Nodup) : AllAlone s s' xs := by
  -- `hs` grows by the handle of each call that has been made
  induction xs generalizing hs s' with
  | nil =>
      refine ⟨rfl, fun x hx => absurd hx List.not_mem_nil, fun p => ⟨.inl, fun hp => ?_⟩⟩
      obtain hp | ⟨x, hx, -⟩ := hp
      · exact hp
      · exact absurd hx List.not_mem_nil
  | cons x rest ih =>
      obtain ⟨-, hrest, hdisjoint⟩ := List.nodup_append.mp hnodup
      have hx : x.handle ∉ hs := fun hmem => hdisjoint _ hmem _ List.mem_cons_self rfl
      have halone := call_since hpolicy hpolicy' he hx
      have hmore : AllAlone s (s'.call x).2 rest :=
        ih (policy_call hpolicy') (he.trans evolves_call) (by simpa using hnodup)
      refine ⟨?_, fun y hy => ?_, fun p => ?_⟩
      · rw [calls, List.map_cons, List.map_cons, hmore.outcomes, halone.outcome]
      · rcases List.mem_cons.mp hy with rfl | hy
        · exact (get?_calls_of_not_mem (List.nodup_cons.mp hrest).1).trans halone.document
        · exact hmore.called y hy
      · rw [List.exists_mem_cons_iff, ← or_assoc, ← halone.flagged p]
        exact hmore.flagged p

/-- Calls that take references from one table and have different handles can be made in any
order. Each has the same outcome, and in the end the documents, the flagged files and the
table are the same. -/
theorem calls_perm (c : Catalog) (t : OffsetTable) {xs ys : List Call} (hperm : xs.Perm ys)
    (hnodup : (xs.map Call.handle).Nodup) :
    let s : Shared := ⟨c, .table t⟩
    ((s.calls xs).1.map fun m => (m.call, m.outcome)).Perm
        ((s.calls ys).1.map fun m => (m.call, m.outcome))
      ∧ (∀ k, (s.calls ys).2.catalog.documents k = (s.calls xs).2.catalog.documents k)
      ∧ (∀ p, (s.calls ys).2.catalog.isFlagged p = (s.calls xs).2.catalog.isFlagged p)
      ∧ (s.calls xs).2.policy = .table t
      ∧ (s.calls ys).2.policy = .table t := by
  intro s
  have hxs : AllAlone s s xs := calls_since rfl rfl (.refl c) hnodup
  have hys : AllAlone s s ys :=
    calls_since rfl rfl (.refl c) ((hperm.map Call.handle).nodup_iff.mp hnodup)
  refine ⟨?_, fun k => ?_, fun p => ?_, policy_calls rfl xs, policy_calls rfl ys⟩
  · rw [hxs.outcomes, hys.outcomes]
    exact hperm.map _
  · refine List.ext_getElem? fun i => ?_
    change (s.calls ys).2.catalog.get? ⟨k, i⟩ = (s.calls xs).2.catalog.get? ⟨k, i⟩
    by_cases hcalled : (⟨k, i⟩ : Handle) ∈ xs.map Call.handle
    · obtain ⟨x, hx, hhandle⟩ := List.mem_map.mp hcalled
      rw [← hhandle, hxs.called x hx, hys.called x (hperm.mem_iff.mp hx)]
    · rw [get?_calls_of_not_mem hcalled, get?_calls_of_not_mem]
      exact fun hmem => hcalled ((hperm.map Call.handle).mem_iff.mpr hmem)
  · rw [Bool.eq_iff_iff, hxs.flagged, hys.flagged]
    simp only [hperm.mem_iff]

namespace Sample

def group (labels : Labels) (annotations : Annotations) : Document :=
  ⟨⟨"g", labels, annotations⟩,
    .signalGroup ⟨[⟨"a", .ofList [("direction", .string "input")], ∅⟩], ∅⟩, none⟩

/-- A Stack and three groups, each in a file: one is wired, one is binary, one is not wired. -/
def sharing : Catalog :=
  let bound : Channel := ⟨some "physical", none, some (.ofList [("side", "p")]), ∅⟩
  .ofOperations
    [.insert ⟨"s.yml"⟩ [⟨⟨"s", ∅, ∅⟩, .stack ⟨some [⟨"i", default, some [bound], ∅⟩], ∅⟩, none⟩],
      .insert ⟨"a.yml"⟩ [group (.ofList [("side", "p")]) ∅],
      .insert ⟨"b.yml"⟩ [group ∅ (.ofList [(References.encodingKey, .string "binary")])],
      .insert ⟨"c.yml"⟩ [group ∅ ∅]]

def places : OffsetTable := (OffsetTable.empty.addAll "physical" ["a"]).calculate

/-- Calls for the groups, the Stack and a document that is not there. -/
def mixed : List Call :=
  [⟨⟨.signalGroup, 0⟩, .signalDirection⟩, ⟨⟨.signalGroup, 1⟩, .signalDirection⟩,
    ⟨⟨.signalGroup, 2⟩, .signalDirection⟩, ⟨⟨.stack, 0⟩, ⟨[]⟩⟩, ⟨⟨.model, 3⟩, ⟨[]⟩⟩]

end Sample

theorem calls_perm_sample :
    let s : Shared := ⟨Sample.sharing, .table Sample.places⟩
    (Sample.mixed.map Call.handle).Nodup
      ∧ (s.calls Sample.mixed).1.map Made.outcome
        = [.ok 1, .error (.unsupported (.binary "g")), .ok 0,
          .error (.unsupported (.notSignalGroup "s")), .error (.notFound (.document ⟨.model, 3⟩))]
      ∧ ((s.calls Sample.mixed).1.map fun m => (m.call, m.outcome)).Perm
          ((s.calls Sample.mixed.reverse).1.map fun m => (m.call, m.outcome))
      ∧ (s.calls Sample.mixed.reverse).2.catalog.isFlagged ⟨"c.yml"⟩ = true := by
  intro s
  have hnodup : (Sample.mixed.map Call.handle).Nodup := by decide
  obtain ⟨houtcomes, -, hflagged, -⟩ :=
    calls_perm Sample.sharing Sample.places Sample.mixed.reverse_perm.symm hnodup
  refine ⟨hnodup, by decide, houtcomes, ?_⟩
  rw [hflagged]
  decide

end Shared

end Run

end SimAnnotate
