import Mathlib.Data.List.Induction
import Mathlib.Data.List.Nodup
import SimAnnotate.OrderedMap

/-!
# Maps that pairs are inserted into

A key has the value that was inserted last (`get?_insertAll`); it stands where it was,
or behind the keys that were there, in the order in which new keys came first
(`keys_insertAll`).
-/

namespace SimAnnotate

/-! ## First occurrences -/

theorem eraseDups_concat {α : Type} [BEq α] [LawfulBEq α] (l : List α) (a : α) :
    (l ++ [a]).eraseDups = if a ∈ l then l.eraseDups else l.eraseDups ++ [a] := by
  rw [List.eraseDups_append]
  split
  · next h => simp [List.removeAll, h]
  · next h => simp [List.removeAll, h, List.eraseDups_cons]

/-- What occurs in front adds nothing behind. -/
theorem eraseDups_append_of_subset {α : Type} [BEq α] [LawfulBEq α] {xs ys : List α}
    (h : ∀ y ∈ ys, y ∈ xs) (zs : List α) :
    (xs ++ (ys ++ zs)).eraseDups = (xs ++ zs).eraseDups := by
  have hnone : ys.removeAll xs = [] := by
    simpa [List.removeAll, List.filter_eq_nil_iff] using h
  rw [List.eraseDups_append, List.eraseDups_append]
  congr 2
  rw [List.removeAll, List.filter_append, ← List.removeAll, ← List.removeAll, hnone,
    List.nil_append]

theorem nodup_eraseDups {α : Type} [BEq α] [LawfulBEq α] (l : List α) :
    l.eraseDups.Nodup := by
  induction l using List.reverseRecOn with
  | nil => exact List.nodup_nil
  | append_singleton l a ih =>
      rw [eraseDups_concat]
      split
      · exact ih
      · next h =>
          have hnew : a ∉ l.eraseDups := fun hmem => h (List.mem_eraseDups.mp hmem)
          rw [← List.concat_eq_append]
          exact ih.concat hnew

theorem eraseDups_of_nodup {α : Type} [BEq α] [LawfulBEq α] {l : List α} (h : l.Nodup) :
    l.eraseDups = l := by
  induction l using List.reverseRecOn with
  | nil => rfl
  | append_singleton l a ih =>
      rw [List.nodup_append] at h
      obtain ⟨hl, -, ha⟩ := h
      have hnew : a ∉ l := fun hmem => ha a hmem a (List.mem_singleton_self a) rfl
      rw [eraseDups_concat, if_neg hnew, ih hl]

namespace OrderedMap

variable {κ α : Type} [DecidableEq κ]

theorem keys_insert_eraseDups {m : OrderedMap κ α} {l : List κ} (h : m.keys = l.eraseDups)
    (k : κ) (a : α) : (m.insert k a).keys = (l ++ [k]).eraseDups := by
  rw [keys_insert, h, eraseDups_concat]
  simp only [List.mem_eraseDups]

/-- A map is settled by its keys and their values. -/
theorem map_entries {β : Type} (m : OrderedMap κ α) (f : Option α → β) :
    (m.entries.map fun e => (e.1, f (some e.2))) = m.keys.map fun k => (k, f (m.get? k)) := by
  rw [keys, List.map_map]
  refine List.map_congr_left fun e he => ?_
  rw [Function.comp_apply, mem_entries_iff.mp he]

/-! ## Erasing -/

theorem erase_put (es : List (κ × α)) (k : κ) (a : α) :
    Entries.erase (Entries.put es k a) k = Entries.erase es k := by
  unfold Entries.erase
  induction es with
  | nil => simp [Entries.put]
  | cons e rest ih =>
      obtain ⟨k', a'⟩ := e
      by_cases hk : k' = k
      · simp [Entries.put, hk]
      · rw [Entries.put, if_neg hk, List.filter_cons, List.filter_cons, ih]

/-- What was inserted leaves no trace when its key is erased. -/
theorem erase_insert_self (m : OrderedMap κ α) (k : κ) (a : α) :
    (m.insert k a).erase k = m.erase k :=
  ext_entries (erase_put m.entries k a)

theorem erase_comm (m : OrderedMap κ α) (k k' : κ) :
    (m.erase k).erase k' = (m.erase k').erase k :=
  ext_entries (List.filter_comm _ _ m.entries)

/-! ## Inserting pairs -/

theorem insertAll_concat (m : OrderedMap κ α) (es : List (κ × α)) (e : κ × α) :
    m.insertAll (es ++ [e]) = (m.insertAll es).insert e.1 e.2 :=
  insertAll_append m es [e]

/-- The last pair of a key counts. -/
theorem get?_insertAll (m : OrderedMap κ α) (es : List (κ × α)) (k : κ) :
    (m.insertAll es).get? k
      = ((es.reverse.find? (·.1 = k)).map Prod.snd).or (m.get? k) := by
  induction es using List.reverseRecOn with
  | nil => rfl
  | append_singleton es e ih =>
      rw [insertAll_concat, List.reverse_append, List.reverse_singleton,
        List.singleton_append, List.find?_cons]
      by_cases hk : e.1 = k
      · rw [hk, get?_insert_self, decide_eq_true rfl]
        rfl
      · rw [get?_insert_ne _ _ (Ne.symm hk), ih, decide_eq_false hk]

/-- New keys come behind the old ones, each where its first pair has it. -/
theorem keys_insertAll (m : OrderedMap κ α) (es : List (κ × α)) :
    (m.insertAll es).keys
      = m.keys ++ ((es.map Prod.fst).filter (· ∉ m.keys)).eraseDups := by
  induction es using List.reverseRecOn with
  | nil => exact (List.append_nil _).symm
  | append_singleton es e ih =>
      rw [insertAll_concat, keys_insert, ih, List.map_append, List.map_singleton,
        List.filter_append, List.filter_singleton]
      by_cases hold : e.1 ∈ m.keys
      · rw [if_pos (List.mem_append_left _ hold), decide_eq_false (not_not.mpr hold)]
        simp
      · rw [decide_eq_true hold, cond_true, eraseDups_concat]
        by_cases hes : e.1 ∈ (es.map Prod.fst).filter (· ∉ m.keys)
        · rw [if_pos hes, if_pos (List.mem_append_right _ (List.mem_eraseDups.mpr hes))]
        · have hnew : e.1 ∉ m.keys ++ ((es.map Prod.fst).filter (· ∉ m.keys)).eraseDups := by
            rw [List.mem_append, List.mem_eraseDups, not_or]
            exact ⟨hold, hes⟩
          rw [if_neg hes, if_neg hnew, List.append_assoc]

end OrderedMap

end SimAnnotate
