import Mathlib.Data.List.Basic
import SimAnnotate.Proofs.Document.Outline

/-!
# Handles of documents in a list

In a list of documents a document's handle is its kind together with the number
of documents of that kind in front of it. `number` gives the handles of a list
in order. They address the documents (`get?_number`), and every handle below
the count of its kind occurs (`mem_number`) and occurs once (`nodup_number`).

`editAt` changes the document with a given handle. In the list of one kind this
is a change at the handle's position (`ofKind_editAt`).
-/

namespace SimAnnotate

namespace Document

/-- The documents of one kind, in order. -/
def ofKind (k : Kind) (ds : List Document) : List Document :=
  ds.filter (·.kind = k)

section

variable (k : Kind)

@[simp] theorem ofKind_nil : ofKind k [] = [] := rfl

@[simp] theorem ofKind_append (xs ys : List Document) :
    ofKind k (xs ++ ys) = ofKind k xs ++ ofKind k ys :=
  List.filter_append ..

theorem ofKind_cons_self (d : Document) (ds : List Document) :
    ofKind d.kind (d :: ds) = d :: ofKind d.kind ds := by simp [ofKind]

theorem ofKind_cons_ne {k : Kind} {d : Document} (h : d.kind ≠ k)
    (ds : List Document) : ofKind k (d :: ds) = ofKind k ds := by
  simp [ofKind, h]

theorem length_ofKind_congr {xs ys : List Document}
    (h : xs.map kind = ys.map kind) :
    (ofKind k xs).length = (ofKind k ys).length := by
  -- the length counts kinds
  have hc : ∀ zs : List Document,
      (ofKind k zs).length = (zs.map kind).count k := by
    intro zs
    induction zs with
    | nil => rfl
    | cons z zs ih =>
        by_cases hz : z.kind = k
        · subst hz
          rw [ofKind_cons_self, List.map_cons, List.count_cons_self,
            List.length_cons, ih]
        · rw [ofKind_cons_ne hz, List.map_cons, List.count_cons_of_ne hz, ih]
  rw [hc, hc, h]

end

/-! ## Handles -/

/-- The handle of a document behind others. -/
def handleAfter (before : List Document) (d : Document) : Handle :=
  ⟨d.kind, (ofKind d.kind before).length⟩

/-- The handles of documents behind others, in order. -/
def number : List Document → List Document → List Handle
  | _, [] => []
  | before, d :: rest => handleAfter before d :: number (before ++ [d]) rest

theorem number_append (before xs ys : List Document) :
    number before (xs ++ ys)
      = number before xs ++ number (before ++ xs) ys := by
  induction xs generalizing before with
  | nil => simp [number]
  | cons x xs ih => simp [number, ih]

/-- Handles depend on the kinds only. -/
theorem number_congr {before before' ds ds' : List Document}
    (hb : before.map kind = before'.map kind) (h : ds.map kind = ds'.map kind) :
    number before ds = number before' ds' := by
  induction ds generalizing before before' ds' with
  | nil =>
      rw [List.map_nil, eq_comm, List.map_eq_nil_iff] at h
      rw [h]
      rfl
  | cons d rest ih =>
      cases ds' with
      | nil => cases h
      | cons d' rest' =>
          simp only [List.map_cons, List.cons.injEq] at h
          obtain ⟨hd, h⟩ := h
          have hb' : (before ++ [d]).map kind = (before' ++ [d']).map kind := by
            simp [hb, hd]
          rw [number, number, ih hb' h, handleAfter, handleAfter, hd,
            length_ofKind_congr d'.kind hb]

theorem mem_number {before ds : List Document} {h : Handle} :
    h ∈ number before ds ↔ (ofKind h.kind before).length ≤ h.position
      ∧ h.position < (ofKind h.kind (before ++ ds)).length := by
  induction ds generalizing before with
  | nil => simp [number]
  | cons d rest ih =>
      have hsplit : before ++ d :: rest = (before ++ [d]) ++ rest := by simp
      rw [number, List.mem_cons, ih, hsplit]
      obtain ⟨k, n⟩ := h
      simp only [handleAfter, Handle.mk.injEq, ofKind_append, List.length_append]
      by_cases hk : d.kind = k
      · subst hk
        simp only [ofKind_cons_self, ofKind_nil, List.length_singleton, true_and]
        omega
      · simp only [ofKind_cons_ne hk, ofKind_nil, List.length_nil, Ne.symm hk,
          false_and, false_or, Nat.add_zero]

theorem nodup_number (before ds : List Document) :
    (number before ds).Nodup := by
  induction ds generalizing before with
  | nil => exact List.nodup_nil
  | cons d rest ih =>
      refine List.nodup_cons.mpr ⟨fun h => ?_, ih _⟩
      have hle := (mem_number.mp h).1
      simp only [handleAfter, ofKind_append, ofKind_cons_self, ofKind_nil,
        List.length_append, List.length_singleton] at hle
      omega

/-- The handles address the documents, whatever stands behind them. -/
theorem get?_number (before ds after : List Document) :
    (number before ds).map
        (fun h => (ofKind h.kind (before ++ ds ++ after))[h.position]?)
      = ds.map some := by
  induction ds generalizing before with
  | nil => rfl
  | cons d rest ih =>
      have hd : (ofKind d.kind (before ++ d :: rest ++ after))[
          (ofKind d.kind before).length]? = some d := by
        rw [List.append_assoc, List.cons_append, ofKind_append, ofKind_cons_self,
          List.getElem?_append_right (Nat.le_refl _), Nat.sub_self]
        rfl
      have hrest := ih (before ++ [d])
      rw [show before ++ [d] ++ rest ++ after = before ++ d :: rest ++ after by
        simp] at hrest
      rw [number, List.map_cons, List.map_cons, hrest]
      exact congrArg (· :: _) hd

/-! ## Changing one document -/

/-- Changes the document with handle `h` among documents behind others. -/
def editAt (h : Handle) (f : Document → Document) :
    List Document → List Document → List Document
  | _, [] => []
  | before, d :: rest =>
      (if handleAfter before d = h then f d else d)
        :: editAt h f (before ++ [d]) rest

variable {h : Handle} {f : Document → Document}

theorem editAt_append (before xs ys : List Document) :
    editAt h f before (xs ++ ys)
      = editAt h f before xs ++ editAt h f (before ++ xs) ys := by
  induction xs generalizing before with
  | nil => simp [editAt]
  | cons x xs ih => simp [editAt, ih]

/-- The document with handle `h` is the only one that changes, so what the
change keeps of it is kept in all documents. -/
theorem map_editAt_of_get? {α : Type} (g : Document → α)
    (before ds after : List Document)
    (hg : ∀ d, (ofKind h.kind (before ++ ds ++ after))[h.position]? = some d →
      g (f d) = g d) :
    (editAt h f before ds).map g = ds.map g := by
  induction ds generalizing before with
  | nil => rfl
  | cons d rest ih =>
      have hrest : before ++ [d] ++ rest ++ after = before ++ d :: rest ++ after := by
        simp
      rw [editAt, List.map_cons, List.map_cons,
        ih (before ++ [d]) fun d' hd' => hg d' (hrest ▸ hd')]
      split
      · next he =>
          -- the handle finds the document itself
          have hget := congrArg List.head? (get?_number before (d :: rest) after)
          simp only [number, List.map_cons, List.head?_cons, Option.some.injEq] at hget
          rw [he] at hget
          rw [hg d hget]
      · rfl

/-- What every change keeps is kept in all documents. -/
theorem map_editAt {α : Type} (g : Document → α) (hg : ∀ d, g (f d) = g d)
    (before ds : List Document) :
    (editAt h f before ds).map g = ds.map g :=
  map_editAt_of_get? g before ds [] fun d _ => hg d

theorem ofKind_editAt_ne {k : Kind} (hk : k ≠ h.kind)
    (hf : ∀ d, (f d).kind = d.kind) (before ds : List Document) :
    ofKind k (editAt h f before ds) = ofKind k ds := by
  induction ds generalizing before with
  | nil => rfl
  | cons d rest ih =>
      rw [editAt]
      by_cases hd : d.kind = k
      · have hne : handleAfter before d ≠ h := by
          intro he
          exact hk (hd ▸ congrArg Handle.kind he)
        subst hd
        rw [if_neg hne, ofKind_cons_self, ofKind_cons_self, ih]
      · rw [ofKind_cons_ne hd, ← ih (before ++ [d])]
        split
        · rw [ofKind_cons_ne (by rwa [hf])]
        · rw [ofKind_cons_ne hd]

theorem ofKind_editAt_drop (hf : ∀ d, (f d).kind = d.kind)
    (before ds : List Document) :
    ofKind h.kind (editAt h f before ds)
      = ((ofKind h.kind (before ++ ds)).modify h.position f).drop
          (ofKind h.kind before).length := by
  induction ds generalizing before with
  | nil => simp [editAt]
  | cons d rest ih =>
      have hrest := ih (before ++ [d])
      rw [show before ++ [d] ++ rest = before ++ d :: rest by simp,
        ofKind_append] at hrest
      rw [editAt]
      by_cases hd : d.kind = h.kind
      · -- the document is the first one behind `before`
        have hlt : (ofKind h.kind before).length
            < ((ofKind h.kind (before ++ d :: rest)).modify h.position f).length := by
          rw [List.length_modify, ofKind_append, ← hd, ofKind_cons_self,
            List.length_append, List.length_cons]
          omega
        have hhead : (if handleAfter before d = h then f d else d)
            = ((ofKind h.kind (before ++ d :: rest)).modify h.position f)[
                (ofKind h.kind before).length] := by
          obtain ⟨k, n⟩ := h
          dsimp only at hd
          subst hd
          rw [List.getElem_modify]
          simp only [handleAfter, Handle.mk.injEq, true_and, eq_comm, ofKind_append,
            ofKind_cons_self, List.getElem_append_right (Nat.le_refl _),
            Nat.sub_self, List.getElem_cons_zero]
        have hkind : (if handleAfter before d = h then f d else d).kind = h.kind := by
          split
          · rw [hf, hd]
          · exact hd
        rw [List.drop_eq_getElem_cons hlt, ← hhead, ← hkind, ofKind_cons_self,
          hkind, hrest, ← hd, ofKind_cons_self, ofKind_nil, hd,
          List.length_append, List.length_singleton]
      · -- a document of another kind counts on neither side
        have hne : handleAfter before d ≠ h := fun he =>
          hd (congrArg Handle.kind he)
        rw [if_neg hne, ofKind_cons_ne hd, hrest, ofKind_cons_ne hd, ofKind_nil,
          List.append_nil]

/-- Among the documents of its kind the change is one at the handle's
position. -/
theorem ofKind_editAt (hf : ∀ d, (f d).kind = d.kind) (k : Kind)
    (ds : List Document) :
    ofKind k (editAt h f [] ds)
      = if k = h.kind then (ofKind k ds).modify h.position f else ofKind k ds := by
  split
  · next hk =>
      subst hk
      rw [ofKind_editAt_drop hf]
      rfl
  · next hk => exact ofKind_editAt_ne hk hf [] ds

end Document

end SimAnnotate
