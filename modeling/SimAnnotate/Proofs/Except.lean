import Mathlib.Data.List.Forall2

/-!
# Computations that can fail

What a sequence of steps comes to, read from its success: a bind, a map or a
walk through a list succeeds exactly when its parts do.
-/

namespace Except

universe u v w

variable {ε : Type u} {α : Type v} {β : Type v}

@[simp] theorem ok_bind (a : α) (f : α → Except ε β) :
    ((.ok a : Except ε α) >>= f) = f a := rfl

@[simp] theorem error_bind (e : ε) (f : α → Except ε β) :
    ((.error e : Except ε α) >>= f) = .error e := rfl

theorem bind_eq_ok {x : Except ε α} {f : α → Except ε β} {b : β} :
    (x >>= f) = .ok b ↔ ∃ a, x = .ok a ∧ f a = .ok b := by
  cases x with
  | error e => simp
  | ok a => simp

theorem map_eq_ok {x : Except ε α} {f : α → β} {b : β} :
    x.map f = .ok b ↔ ∃ a, x = .ok a ∧ f a = b := by
  cases x with
  | error e => simp [Except.map]
  | ok a => simp [Except.map]

theorem mapError_eq_ok {ε' : Type w} {x : Except ε α} {f : ε → ε'} {a : α} :
    x.mapError f = .ok a ↔ x = .ok a := by
  cases x <;> simp [Except.mapError]

theorem mapError_eq_error {ε' : Type w} {x : Except ε α} {f : ε → ε'} {e' : ε'} :
    x.mapError f = .error e' ↔ ∃ e, x = .error e ∧ f e = e' := by
  cases x <;> simp [Except.mapError]

theorem mem_toOption {x : Except ε α} {a : α} : a ∈ x.toOption ↔ x = .ok a := by
  cases x <;> simp [Except.toOption]

theorem eq_ok_get {x : Except ε α} (h : x.toOption.isSome = true) :
    x = .ok (x.toOption.get h) :=
  mem_toOption.mp (Option.get_mem h)

end Except

namespace List

universe u v w

variable {ε : Type u} {α : Type v} {β : Type w} {f : α → Except ε β}

theorem mapM_eq_ok {xs : List α} {ys : List β} :
    xs.mapM f = .ok ys ↔ Forall₂ (fun x y => f x = .ok y) xs ys := by
  induction xs generalizing ys with
  | nil =>
      cases ys with
      | nil => simp [pure, Except.pure]
      | cons y ys => simp [pure, Except.pure]
  | cons x rest ih =>
      rw [mapM_cons]
      -- a step that fails ends the walk, whatever is behind it
      cases hx : f x with
      | error e =>
          cases ys with
          | nil => simp
          | cons y ys => simp [hx]
      | ok y =>
          rw [Except.ok_bind]
          simp only [Except.bind_eq_ok, pure, Except.pure, Except.ok.injEq]
          constructor
          · rintro ⟨zs, hzs, rfl⟩
            exact .cons hx (ih.mp hzs)
          · intro h
            cases h with
            | cons hy hrest =>
                rw [hx, Except.ok.injEq] at hy
                exact ⟨_, ih.mpr hrest, by rw [hy]⟩

theorem exists_of_mem_mapM {xs : List α} {ys : List β} (h : xs.mapM f = .ok ys)
    {y : β} (hy : y ∈ ys) : ∃ x ∈ xs, f x = .ok y := by
  have hall := mapM_eq_ok.mp h
  clear h
  induction hall with
  | nil => cases hy
  | @cons x y' xs ys hx hrest ih =>
      rcases mem_cons.mp hy with rfl | hy
      · exact ⟨x, mem_cons_self, hx⟩
      · obtain ⟨x', hx', hf⟩ := ih hy
        exact ⟨x', mem_cons_of_mem x hx', hf⟩

/-- What each result has in common with its item. -/
theorem map_eq_map_of_mapM {γ : Type*} {g : β → γ} {k : α → γ} {xs : List α} {ys : List β}
    (h : xs.mapM f = .ok ys) (hf : ∀ x ∈ xs, ∀ y, f x = .ok y → g y = k x) :
    ys.map g = xs.map k := by
  have hall := mapM_eq_ok.mp h
  clear h
  induction hall with
  | nil => rfl
  | @cons x y xs ys hx hrest ih =>
      rw [map_cons, map_cons, hf x mem_cons_self y hx,
        ih fun x hx => hf x (mem_cons_of_mem _ hx)]

/-- A walk fails at the first item at which it can. -/
theorem mapM_eq_error {xs : List α} {e : ε} :
    xs.mapM f = .error e ↔ ∃ before x after, xs = before ++ x :: after
      ∧ (∀ y ∈ before, ∃ z, f y = .ok z) ∧ f x = .error e := by
  constructor
  · intro h
    induction xs with
    | nil => cases h
    | cons x rest ih =>
        rw [mapM_cons] at h
        cases hx : f x with
        | error e' =>
            rw [hx, Except.error_bind] at h
            cases h
            exact ⟨[], x, rest, rfl, by simp, hx⟩
        | ok y =>
            rw [hx, Except.ok_bind] at h
            cases hrest : rest.mapM f with
            | ok ys =>
                rw [hrest] at h
                cases h
            | error e' =>
                -- the first failure of the rest is that of the list
                rw [hrest] at h
                cases h
                obtain ⟨before, x', after, rfl, hbefore, hx'⟩ := ih hrest
                refine ⟨x :: before, x', after, rfl, ?_, hx'⟩
                intro y' hy'
                rcases mem_cons.mp hy' with rfl | hy'
                · exact ⟨y, hx⟩
                · exact hbefore y' hy'
  · rintro ⟨before, x, after, rfl, hbefore, hx⟩
    induction before with
    | nil => rw [nil_append, mapM_cons, hx, Except.error_bind]
    | cons y rest ih =>
        obtain ⟨z, hz⟩ := hbefore y mem_cons_self
        rw [cons_append, mapM_cons, hz, Except.ok_bind,
          ih fun y hy => hbefore y (mem_cons_of_mem _ hy)]
        rfl

/-- A walk succeeds when each of its steps does. -/
theorem exists_mapM_iff {xs : List α} :
    (∃ ys, xs.mapM f = .ok ys) ↔ ∀ x ∈ xs, ∃ y, f x = .ok y := by
  constructor
  · rintro ⟨ys, hys⟩ x hx
    have hall := mapM_eq_ok.mp hys
    clear hys
    induction hall with
    | nil => cases hx
    | @cons x' y xs ys hy hrest ih =>
        rcases mem_cons.mp hx with rfl | hx
        · exact ⟨y, hy⟩
        · exact ih hx
  · intro h
    cases hmap : xs.mapM f with
    | ok ys => exact ⟨ys, rfl⟩
    | error e =>
        -- a walk fails at one of its steps
        obtain ⟨before, x, after, rfl, -, hx⟩ := mapM_eq_error.mp hmap
        obtain ⟨y, hy⟩ := h x (by simp)
        rw [hx] at hy
        cases hy

/-- A walk that succeeds everywhere. -/
theorem mapM_eq_ok_map {g : α → β} {xs : List α}
    (h : ∀ x ∈ xs, f x = .ok (g x)) : xs.mapM f = .ok (xs.map g) := by
  rw [mapM_eq_ok, forall₂_map_right_iff]
  exact forall₂_same.mpr h

end List
