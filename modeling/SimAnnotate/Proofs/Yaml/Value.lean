import SimAnnotate.Yaml.Value

/-!
# Repeated keys and marks, item by item

`Value.repeatsKey` and `Value.dropMarks` walk through a whole value. The lemmas
here say what they come to for a sequence and for a mapping, in particular for
one whose keys are strings. Marks do not matter to looking a string up, and a value
without tags has none.
-/

namespace SimAnnotate.Yaml.Value

/-! ## Repeated keys -/

@[simp] theorem repeatsKey_untag (v : Value) : v.untag.repeatsKey = v.repeatsKey := by
  fun_induction untag v with
  | case1 tag v ih => rw [ih, repeatsKey]
  | case2 v => rfl

@[simp] theorem repeatsKey_string (s : String) : (string s).repeatsKey = false := by
  rw [repeatsKey] <;> exact nofun

theorem repeatsKey_sequence {xs : List Value} :
    (sequence xs).repeatsKey = false ↔ ∀ x ∈ xs, x.repeatsKey = false := by
  rw [repeatsKey]
  induction xs with
  | nil => simp [anyRepeatsKey]
  | cons x rest ih => simp [anyRepeatsKey, ih]

theorem repeatsKey_of_mem {es : List (Value × Value)}
    (h : (mapping es).repeatsKey = false) {e : Value × Value} (he : e ∈ es) :
    e.2.repeatsKey = false := by
  rw [repeatsKey] at h
  induction es with
  | nil => cases he
  | cons f rest ih =>
      simp only [entriesRepeatKey, Bool.or_eq_false_iff] at h
      rcases List.mem_cons.mp he with rfl | he
      · exact h.1.2
      · exact ih h.2 he

@[simp] theorem same_string (a b : String) :
    (string a).same (string b) = (a == b) := by
  rw [same]

/-- Strings that are keys repeat only when they are the same. -/
theorem repeatsKey_mapping {es : List (Value × Value)}
    (hkey : ∀ e ∈ es, ∃ name, e.1 = string name)
    (hvalue : ∀ e ∈ es, e.2.repeatsKey = false)
    (hes : (es.map Prod.fst).Nodup) : (mapping es).repeatsKey = false := by
  rw [repeatsKey]
  induction es with
  | nil => rfl
  | cons e rest ih =>
      obtain ⟨k, v⟩ := e
      obtain ⟨name, rfl⟩ := hkey (k, v) List.mem_cons_self
      rw [List.map_cons, List.nodup_cons] at hes
      have hrest := ih (fun e he => hkey e (List.mem_cons_of_mem _ he))
        (fun e he => hvalue e (List.mem_cons_of_mem _ he)) hes.2
      -- an equal key behind this one would be the same string
      have hnew : rest.any (·.1.same (string name)) = false := by
        rw [List.any_eq_false]
        intro e he hsame
        obtain ⟨other, hother⟩ := hkey e (List.mem_cons_of_mem _ he)
        rw [hother, same_string, beq_iff_eq] at hsame
        have hmem := List.mem_map_of_mem (f := Prod.fst) he
        rw [hother, hsame] at hmem
        exact hes.1 hmem
      have hv := hvalue (string name, v) List.mem_cons_self
      rw [entriesRepeatKey, hnew, hv, hrest, repeatsKey_string]
      rfl

/-! ## Marks -/

theorem dropMarks_sequence {xs : List Value} :
    (sequence xs).dropMarks = sequence xs ↔ ∀ x ∈ xs, x.dropMarks = x := by
  rw [dropMarks, sequence.injEq]
  induction xs with
  | nil => simp [dropItemMarks]
  | cons x rest ih => simp [dropItemMarks, ih]

theorem dropMarks_mapping {es : List (Value × Value)} :
    (mapping es).dropMarks = mapping es ↔
      ∀ e ∈ es, e.1.dropMarks = e.1 ∧ e.2.dropMarks = e.2 := by
  rw [dropMarks, mapping.injEq]
  induction es with
  | nil => simp [dropEntryMarks]
  | cons e rest ih =>
      obtain ⟨k, v⟩ := e
      simp [dropEntryMarks, ih]

theorem dropItemMarks_eq_map (xs : List Value) : dropItemMarks xs = xs.map dropMarks := by
  induction xs with
  | nil => rfl
  | cons x rest ih => rw [dropItemMarks, ih, List.map_cons]

theorem dropEntryMarks_eq_map (es : List (Value × Value)) :
    dropEntryMarks es = es.map fun e => (e.1.dropMarks, e.2.dropMarks) := by
  induction es with
  | nil => rfl
  | cons e rest ih => rw [dropEntryMarks, ih, List.map_cons]

@[simp] theorem dropMarks_string (s : String) : (string s).dropMarks = string s := by
  rw [dropMarks] <;> exact nofun

/-- Marks stand in front of tags, so no other value becomes a string. -/
theorem dropMarks_eq_string {v : Value} {s : String} :
    v.dropMarks = string s ↔ v = string s := by
  cases v <;> simp [dropMarks]

theorem dropMarks_eq_null {v : Value} : v.dropMarks = null ↔ v = null := by
  cases v <;> simp [dropMarks]

theorem lookup_dropEntryMarks (es : List (Value × Value)) (s : String) :
    (dropEntryMarks es).lookup (string s) = (es.lookup (string s)).map dropMarks := by
  induction es with
  | nil => rfl
  | cons e rest ih =>
      obtain ⟨k, v⟩ := e
      rw [dropEntryMarks, List.lookup_cons, List.lookup_cons, ih]
      have hkey : (string s == k.dropMarks) = (string s == k) := by
        rw [Bool.eq_iff_iff, beq_iff_eq, beq_iff_eq, eq_comm, dropMarks_eq_string, eq_comm]
      rw [hkey]
      cases string s == k <;> rfl

mutual

/-- A value without tags has no marks. -/
theorem dropMarks_of_hasTag : (v : Value) → v.hasTag = false → v.dropMarks = v
  | .null, _ | .bool _, _ | .number _, _ | .string _, _ => by simp [dropMarks]
  | .sequence xs, h => by
      rw [hasTag] at h
      rw [dropMarks, dropItemMarks_of_hasTag xs h]
  | .mapping es, h => by
      rw [hasTag] at h
      rw [dropMarks, dropEntryMarks_of_hasTag es h]

theorem dropItemMarks_of_hasTag :
    (xs : List Value) → anyHasTag xs = false → dropItemMarks xs = xs
  | [], _ => rfl
  | x :: rest, h => by
      rw [anyHasTag, Bool.or_eq_false_iff] at h
      rw [dropItemMarks, dropMarks_of_hasTag x h.1, dropItemMarks_of_hasTag rest h.2]

theorem dropEntryMarks_of_hasTag :
    (es : List (Value × Value)) → anyEntryHasTag es = false → dropEntryMarks es = es
  | [], _ => rfl
  | (k, v) :: rest, h => by
      rw [anyEntryHasTag, Bool.or_eq_false_iff, Bool.or_eq_false_iff] at h
      rw [dropEntryMarks, dropMarks_of_hasTag k h.1.1, dropMarks_of_hasTag v h.1.2,
        dropEntryMarks_of_hasTag rest h.2]

end

/-! ## Tags in front -/

def isTagged : Value → Bool
  | .tagged _ _ => true
  | _ => false

@[simp] theorem isTagged_dropMarks (v : Value) : v.dropMarks.isTagged = v.isTagged := by
  cases v <;> simp [dropMarks, isTagged]

theorem untag_of_isTagged {v : Value} (h : v.isTagged = false) : v.untag = v := by
  cases v with
  | tagged t w => cases h
  | _ => simp [untag]

/-- Keys that are strings, and are not repeated, are different. -/
theorem nodup_keys {es : List (Value × Value)} (h : (mapping es).repeatsKey = false)
    (hkey : ∀ e ∈ es, ∃ name, e.1 = string name) : (es.map Prod.fst).Nodup := by
  rw [repeatsKey] at h
  induction es with
  | nil => exact List.nodup_nil
  | cons e rest ih =>
      obtain ⟨k, v⟩ := e
      obtain ⟨name, rfl⟩ := hkey (k, v) List.mem_cons_self
      simp only [entriesRepeatKey, Bool.or_eq_false_iff] at h
      rw [List.map_cons, List.nodup_cons]
      refine ⟨fun hmem => ?_, ih h.2 fun e he => hkey e (List.mem_cons_of_mem _ he)⟩
      obtain ⟨e, he, heq⟩ := List.mem_map.mp hmem
      have hnone := List.any_eq_false.mp h.1.1.1 e he
      rw [heq, same_string, beq_self_eq_true] at hnone
      exact hnone rfl

end SimAnnotate.Yaml.Value
