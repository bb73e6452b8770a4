import SimAnnotate.Proofs.Except
import SimAnnotate.Run

/-!
# What activities come to

An activity works on a tree and collects warnings, but no activity ever looks at
the warnings. So what it comes to where it succeeds is a relation between the
tree before, the result and the tree after: `Run.Means`. Activities that follow
each other mean the composition of what they mean (`Means.bind`).
-/

namespace SimAnnotate.Run

variable {α β : Type}

/-- Carries an activity out from a state. -/
def exec (act : Run α) (s : State) : Except Error α × State :=
  StateT.run (m := Id) (ExceptT.run act) s

theorem on_eq (t : FileTree) (act : Run α) : on t act = exec act ⟨t, []⟩ := rfl

/-- What a run gives is the outcome that it has. -/
theorem exists_on {t : FileTree} {act : Run α} {outcome : Except Error α}
    (h : (on t act).1 = outcome) : ∃ s, on t act = (outcome, s) :=
  ⟨(on t act).2, Prod.ext h rfl⟩

theorem exec_bind (act : Run α) (f : α → Run β) (s : State) :
    exec (act >>= f) s =
      match exec act s with
      | (.ok a, s') => exec (f a) s'
      | (.error e, s') => (.error e, s') := by
  change (ExceptT.bindCont f (exec act s).1) (exec act s).2 = _
  obtain ⟨x, s'⟩ := exec act s
  cases x <;> rfl

theorem exec_bind_of_ok {act : Run α} {f : α → Run β} {s s' : State} {a : α}
    (h : exec act s = (.ok a, s')) : exec (act >>= f) s = exec (f a) s' := by
  rw [exec_bind, h]

theorem exec_bind_of_error {act : Run α} {f : α → Run β} {s s' : State} {e : Error}
    (h : exec act s = (.error e, s')) : exec (act >>= f) s = (.error e, s') := by
  rw [exec_bind, h]

theorem exec_lift {x y : Except Error α} (h : x = y) (s : State) :
    exec (liftM x : Run α) s = (y, s) := by
  rw [← h]
  rfl

theorem exec_tree (s : State) : exec tree s = (.ok s.tree, s) := rfl

/-- Where the activity succeeds, `R` says how: from which tree, with which result
and which tree then. -/
def Means (act : Run α) (R : FileTree → α → FileTree → Prop) : Prop :=
  ∀ s a t', (∃ ws, exec act s = (.ok a, ⟨t', ws⟩)) ↔ R s.tree a t'

namespace Means

variable {act : Run α} {R R' : FileTree → α → FileTree → Prop}

theorem congr (h : Means act R) (hR : ∀ t a t', R t a t' ↔ R' t a t') :
    Means act R' := by
  intro s a t'
  rw [h s a t', hR]

/-- Activities that follow each other. -/
theorem bind (h : Means act R) {f : α → Run β} {S : α → FileTree → β → FileTree → Prop}
    (hf : ∀ a, Means (f a) (S a)) :
    Means (act >>= f) fun t b t'' => ∃ a t', R t a t' ∧ S a t' b t'' := by
  intro s b t''
  rw [exec_bind]
  constructor
  · rintro ⟨ws, hexec⟩
    split at hexec
    · next a s' hact =>
        have hR := (h s a s'.tree).mp ⟨s'.warnings, hact⟩
        have hS := (hf a s' b t'').mp ⟨ws, hexec⟩
        exact ⟨a, s'.tree, hR, hS⟩
    · cases hexec
  · rintro ⟨a, t', hR, hS⟩
    obtain ⟨ws, hact⟩ := (h s a t').mpr hR
    obtain ⟨ws', hexec⟩ := (hf a ⟨t', ws⟩ b t'').mpr hS
    exact ⟨ws', by rw [hact]; exact hexec⟩

end Means

/-! ## Single activities -/

theorem means_pure (a : α) : Means (pure a) fun t b t' => b = a ∧ t' = t := by
  intro s b t'
  change (∃ ws, (Except.ok a, s) = (Except.ok b, State.mk t' ws)) ↔ _
  constructor
  · rintro ⟨ws, h⟩
    cases h
    exact ⟨rfl, rfl⟩
  · rintro ⟨rfl, rfl⟩
    exact ⟨s.warnings, rfl⟩

theorem means_throw (e : Error) : Means (throw e : Run α) fun _ _ _ => False := by
  intro s a t'
  change (∃ ws, (Except.error e, s) = (Except.ok a, State.mk t' ws)) ↔ _
  simp

/-- A computation that knows nothing of the tree. -/
theorem means_lift (x : Except Error α) :
    Means (liftM x) fun t a t' => x = .ok a ∧ t' = t := by
  intro s a t'
  change (∃ ws, (x, s) = (Except.ok a, State.mk t' ws)) ↔ _
  constructor
  · rintro ⟨ws, h⟩
    cases h
    exact ⟨rfl, rfl⟩
  · rintro ⟨rfl, rfl⟩
    exact ⟨s.warnings, rfl⟩

theorem means_tree : Means tree fun t a t' => a = t ∧ t' = t := by
  intro s a t'
  change (∃ ws, (Except.ok s.tree, s) = (Except.ok a, State.mk t' ws)) ↔ _
  constructor
  · rintro ⟨ws, h⟩
    cases h
    exact ⟨rfl, rfl⟩
  · rintro ⟨rfl, rfl⟩
    exact ⟨s.warnings, rfl⟩

theorem means_setTree (u : FileTree) : Means (setTree u) fun _ _ t' => t' = u := by
  intro s a t'
  change (∃ ws, (Except.ok (), State.mk u s.warnings) = (Except.ok a, State.mk t' ws)) ↔ _
  simp [eq_comm]

/-- Warnings change nothing. -/
theorem means_warn (ws : List Warning) : Means (warn ws) fun t _ t' => t' = t := by
  intro s a t'
  change (∃ ws', (Except.ok (), State.mk s.tree (s.warnings ++ ws))
    = (Except.ok a, State.mk t' ws')) ↔ _
  simp [eq_comm]

theorem means_change (f : FileTree → Except Error FileTree) :
    Means (change f) fun t _ t' => f t = .ok t' := by
  have h := means_tree.bind fun t => (means_lift (f t)).bind means_setTree
  refine h.congr fun t _ t' => ?_
  constructor
  · rintro ⟨_, _, ⟨rfl, rfl⟩, u, _, ⟨hu, rfl⟩, rfl⟩
    exact hu
  · intro ht'
    exact ⟨t, t, ⟨rfl, rfl⟩, t', t, ⟨ht', rfl⟩, rfl⟩

/-! ## Activities that leave the tree -/

/-- The activity comes to `x` and leaves the tree. -/
def Computes (act : Run α) (x : Except Error α) : Prop :=
  ∀ s, ∃ ws, exec act s = (x, ⟨s.tree, ws⟩)

namespace Computes

variable {act : Run α} {x : Except Error α}

theorem bind (h : Computes act x) {f : α → Run β} {g : α → Except Error β}
    (hf : ∀ a, Computes (f a) (g a)) : Computes (act >>= f) (x >>= g) := by
  intro s
  obtain ⟨ws, hact⟩ := h s
  rw [exec_bind, hact]
  cases x with
  | ok a => exact hf a ⟨s.tree, ws⟩
  | error e => exact ⟨ws, rfl⟩

theorem means (h : Computes act x) : Means act fun t a t' => x = .ok a ∧ t' = t := by
  intro s a t'
  obtain ⟨ws, hact⟩ := h s
  rw [hact]
  constructor
  · rintro ⟨ws', heq⟩
    cases heq
    exact ⟨rfl, rfl⟩
  · rintro ⟨rfl, rfl⟩
    exact ⟨ws, rfl⟩

end Computes

theorem computes_pure (a : α) : Computes (pure a) (.ok a) := fun s => ⟨s.warnings, rfl⟩

theorem computes_throw (e : Error) : Computes (throw e : Run α) (.error e) :=
  fun s => ⟨s.warnings, rfl⟩

theorem computes_warn (ws : List Warning) : Computes (warn ws) (.ok ()) :=
  fun s => ⟨s.warnings ++ ws, rfl⟩

/-- Warnings before an activity. -/
theorem Computes.warned {act : Run α} {x : Except Error α} (h : Computes act x)
    (ws : List Warning) : Computes (warn ws >>= fun _ => act) x :=
  (computes_warn ws).bind fun _ => h

/-- Items that only turn one value into the next. -/
theorem computes_foldlM {γ : Type} {f : β → γ → Run β} {g : β → γ → Except Error β}
    (h : ∀ b x, Computes (f b x) (g b x)) (xs : List γ) (b : β) :
    Computes (xs.foldlM f b) (xs.foldlM g b) := by
  induction xs generalizing b with
  | nil => exact computes_pure b
  | cons x rest ih =>
      rw [List.foldlM_cons, List.foldlM_cons]
      exact (h b x).bind ih

end SimAnnotate.Run
