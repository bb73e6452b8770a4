/-!
# Insertion-ordered maps

A map is the list of its entries in the order in which their keys were first
put, no key twice. Putting a known key replaces its value in place, putting a
new one appends. The lemmas say what each operation does to `get?` and to
`keys`.
-/

namespace SimAnnotate

universe u v w

/-! ## Entry lists -/

namespace Entries

variable {κ : Type u} {α : Type v} [DecidableEq κ]

/-- The value of the first entry with key `k`. -/
def get? : List (κ × α) → κ → Option α
  | [], _ => none
  | (k', a) :: rest, k => if k' = k then some a else get? rest k

/-- Replaces the value of the first entry with key `k`, or appends an entry. -/
def put : List (κ × α) → κ → α → List (κ × α)
  | [], k, a => [(k, a)]
  | (k', a') :: rest, k, a =>
      if k' = k then (k', a) :: rest else (k', a') :: put rest k a

@[simp] theorem get?_put_self (es : List (κ × α)) (k : κ) (a : α) :
    get? (put es k a) k = some a := by
  induction es with
  | nil => simp [put, get?]
  | cons e rest ih =>
      obtain ⟨k', a'⟩ := e
      by_cases h : k' = k <;> simp [put, get?, h, ih]

theorem get?_put_ne (es : List (κ × α)) {k k' : κ} (a : α) (h : k' ≠ k) :
    get? (put es k a) k' = get? es k' := by
  induction es with
  | nil => simp [put, get?, Ne.symm h]
  | cons e rest ih =>
      obtain ⟨k₀, a₀⟩ := e
      by_cases h₀ : k₀ = k
      · subst h₀
        simp [put, get?, Ne.symm h]
      · by_cases h₁ : k₀ = k'
        · subst h₁
          simp [put, get?, h₀]
        · simp [put, get?, h₀, h₁, ih]

/-- A put keeps the keys when the key is known and appends it when it is new. -/
theorem keys_put (es : List (κ × α)) (k : κ) (a : α) :
    (put es k a).map Prod.fst
      = if k ∈ es.map Prod.fst then es.map Prod.fst
        else es.map Prod.fst ++ [k] := by
  induction es with
  | nil => simp [put]
  | cons e rest ih =>
      obtain ⟨k', a'⟩ := e
      by_cases h : k' = k
      · simp [put, h]
      · rw [put, if_neg h, List.map_cons, ih]
        by_cases hr : k ∈ rest.map Prod.fst
        · rw [if_pos hr, if_pos (by simp [hr]), List.map_cons]
        · rw [if_neg hr, if_neg (by simp [Ne.symm h, hr]), List.map_cons,
            List.cons_append]

theorem nodup_put {es : List (κ × α)} (h : (es.map Prod.fst).Nodup) (k : κ)
    (a : α) : ((put es k a).map Prod.fst).Nodup := by
  rw [keys_put]
  split
  · exact h
  · next hk =>
      rw [List.nodup_append]
      refine ⟨h, by simp, ?_⟩
      intro x hx y hy hxy
      rw [List.mem_singleton] at hy
      exact hk (hy ▸ hxy ▸ hx)

/-- Without the entries with key `k`. -/
def erase (es : List (κ × α)) (k : κ) : List (κ × α) :=
  es.filter fun e => decide (e.1 ≠ k)

theorem nodup_erase {es : List (κ × α)} (h : (es.map Prod.fst).Nodup)
    (k : κ) : ((erase es k).map Prod.fst).Nodup :=
  h.sublist (List.filter_sublist.map Prod.fst)

theorem get?_erase (es : List (κ × α)) (k k' : κ) :
    get? (erase es k) k' = if k' = k then none else get? es k' := by
  induction es with
  | nil => simp [erase, get?]
  | cons e rest ih =>
      obtain ⟨k₀, a₀⟩ := e
      simp only [erase] at ih
      by_cases h₀ : k₀ = k
      · subst h₀
        by_cases h : k' = k₀
        · simpa [erase, h] using ih
        · simpa [erase, get?, h, Ne.symm h] using ih
      · by_cases h : k₀ = k'
        · subst h
          simp [erase, get?, h₀]
        · simpa [erase, get?, h₀, h] using ih

/-! ### Keys and values -/

theorem get?_isSome (es : List (κ × α)) (k : κ) :
    (get? es k).isSome = decide (k ∈ es.map Prod.fst) := by
  induction es with
  | nil => simp [get?]
  | cons e rest ih =>
      by_cases h : e.1 = k
      · simp [get?, h]
      · simp [get?, h, ih, Ne.symm h]

theorem mem_of_get? {es : List (κ × α)} {k : κ} {a : α}
    (h : get? es k = some a) : (k, a) ∈ es := by
  induction es with
  | nil => simp [get?] at h
  | cons e rest ih =>
      by_cases hk : e.1 = k
      · have ha : e.2 = a := by simpa [get?, hk] using h
        simp [← hk, ← ha]
      · exact List.mem_cons_of_mem e (ih (by simpa [get?, hk] using h))

theorem get?_of_mem {es : List (κ × α)} (hes : (es.map Prod.fst).Nodup)
    {k : κ} {a : α} (h : (k, a) ∈ es) : get? es k = some a := by
  induction es with
  | nil => simp at h
  | cons e rest ih =>
      rw [List.map_cons, List.nodup_cons] at hes
      rcases List.mem_cons.mp h with rfl | h
      · simp [get?]
      · have hk : e.1 ≠ k := by
          intro he
          exact hes.1 (he ▸ List.mem_map_of_mem h)
        simpa [get?, hk] using ih hes.2 h

/-- Entry lists with the same keys in the same order and the same values are
the same. -/
theorem eq_of_get? {es es' : List (κ × α)} (hes : (es.map Prod.fst).Nodup)
    (hk : es.map Prod.fst = es'.map Prod.fst)
    (hg : ∀ k, get? es k = get? es' k) : es = es' := by
  induction es generalizing es' with
  | nil => simpa using hk.symm
  | cons e rest ih =>
      cases es' with
      | nil => simp at hk
      | cons e' rest' =>
          obtain ⟨k, a⟩ := e
          obtain ⟨k', a'⟩ := e'
          simp only [List.map_cons, List.cons.injEq] at hk
          obtain ⟨rfl, hk⟩ := hk
          rw [List.map_cons, List.nodup_cons] at hes
          have ha : a = a' := by simpa [get?] using hg k
          have hrest : rest = rest' := by
            refine ih hes.2 hk fun j => ?_
            by_cases hj : k = j
            · subst hj
              have h₁ := get?_isSome rest k
              have h₂ := get?_isSome rest' k
              have hk' : k ∉ rest'.map Prod.fst := hk ▸ hes.1
              rw [decide_eq_false hes.1, Option.isSome_eq_false_iff,
                Option.isNone_iff_eq_none] at h₁
              rw [decide_eq_false hk', Option.isSome_eq_false_iff,
                Option.isNone_iff_eq_none] at h₂
              rw [h₁, h₂]
            · simpa [get?, hj] using hg j
          rw [ha, hrest]

theorem put_of_not_mem {es : List (κ × α)} {k : κ}
    (h : k ∉ es.map Prod.fst) (a : α) : put es k a = es ++ [(k, a)] := by
  induction es with
  | nil => rfl
  | cons e rest ih =>
      simp only [List.map_cons, List.mem_cons, not_or] at h
      simp [put, Ne.symm h.1, ih h.2]

theorem get?_map {β : Type w} (f : κ → α → β) (es : List (κ × α)) (k : κ) :
    get? (es.map fun e => (e.1, f e.1 e.2)) k = (get? es k).map (f k) := by
  induction es with
  | nil => rfl
  | cons e rest ih =>
      by_cases h : e.1 = k
      · simp [get?, h]
      · simp [get?, h, ih]

theorem foldl_put_append (es fs : List (κ × α))
    (h : ((es ++ fs).map Prod.fst).Nodup) :
    fs.foldl (fun m e => put m e.1 e.2) es = es ++ fs := by
  induction fs generalizing es with
  | nil => simp
  | cons e rest ih =>
      have he : e.1 ∉ es.map Prod.fst := by
        rw [List.map_append, List.nodup_append] at h
        intro hmem
        exact h.2.2 e.1 hmem e.1 (by simp) rfl
      rw [List.foldl_cons, put_of_not_mem he, ih]
      · simp
      · simpa using h

end Entries

/-! ## Maps -/

/-- A map that remembers the order in which its keys were first put. -/
structure OrderedMap (κ : Type u) (α : Type v) where
  entries : List (κ × α)
  nodup : (entries.map Prod.fst).Nodup
deriving DecidableEq

namespace OrderedMap

variable {κ : Type u} {α : Type v} {β : Type w}

def empty : OrderedMap κ α := ⟨[], by simp⟩

instance : EmptyCollection (OrderedMap κ α) := ⟨empty⟩
instance : Inhabited (OrderedMap κ α) := ⟨empty⟩

def keys (m : OrderedMap κ α) : List κ := m.entries.map Prod.fst

def values (m : OrderedMap κ α) : List α := m.entries.map Prod.snd

def size (m : OrderedMap κ α) : Nat := m.entries.length

def isEmpty (m : OrderedMap κ α) : Bool := m.entries.isEmpty

theorem isEmpty_iff {m : OrderedMap κ α} : m.isEmpty = true ↔ m = ∅ := by
  cases m with
  | mk es hes => cases es <;> simp [isEmpty, EmptyCollection.emptyCollection, empty]

/-- The same keys in the same order, each value changed by `f`. -/
def map (f : κ → α → β) (m : OrderedMap κ α) : OrderedMap κ β :=
  ⟨m.entries.map fun e => (e.1, f e.1 e.2), by
    have h := m.nodup
    rwa [List.map_map]⟩

@[simp] theorem keys_map (f : κ → α → β) (m : OrderedMap κ α) :
    (m.map f).keys = m.keys := by
  simp [keys, map]

variable [DecidableEq κ]

def get? (m : OrderedMap κ α) (k : κ) : Option α := Entries.get? m.entries k

def contains (m : OrderedMap κ α) (k : κ) : Bool := (m.get? k).isSome

def insert (m : OrderedMap κ α) (k : κ) (a : α) : OrderedMap κ α :=
  ⟨Entries.put m.entries k a, Entries.nodup_put m.nodup k a⟩

def erase (m : OrderedMap κ α) (k : κ) : OrderedMap κ α :=
  ⟨Entries.erase m.entries k, Entries.nodup_erase m.nodup k⟩

/-- Inserts the pairs in order: of two pairs with one key the later value
stands at the earlier place. -/
def insertAll (m : OrderedMap κ α) (es : List (κ × α)) : OrderedMap κ α :=
  es.foldl (fun m e => m.insert e.1 e.2) m

def ofList (es : List (κ × α)) : OrderedMap κ α := empty.insertAll es

@[simp] theorem get?_insert_self (m : OrderedMap κ α) (k : κ) (a : α) :
    (m.insert k a).get? k = some a :=
  Entries.get?_put_self m.entries k a

theorem get?_insert_ne (m : OrderedMap κ α) {k k' : κ} (a : α) (h : k' ≠ k) :
    (m.insert k a).get? k' = m.get? k' :=
  Entries.get?_put_ne m.entries a h

theorem get?_erase (m : OrderedMap κ α) (k k' : κ) :
    (m.erase k).get? k' = if k' = k then none else m.get? k' :=
  Entries.get?_erase m.entries k k'

theorem keys_insert (m : OrderedMap κ α) (k : κ) (a : α) :
    (m.insert k a).keys = if k ∈ m.keys then m.keys else m.keys ++ [k] :=
  Entries.keys_put m.entries k a

theorem keys_insert_of_mem {m : OrderedMap κ α} {k : κ} (h : k ∈ m.keys)
    (a : α) : (m.insert k a).keys = m.keys := by
  rw [keys_insert, if_pos h]

theorem mem_keys_insert {m : OrderedMap κ α} {k k' : κ} {a : α} :
    k' ∈ (m.insert k a).keys ↔ k' = k ∨ k' ∈ m.keys := by
  rw [keys_insert]
  split
  · next h => exact ⟨.inr, fun h' => h'.elim (· ▸ h) id⟩
  · simp [or_comm]

@[simp] theorem get?_empty (k : κ) : (∅ : OrderedMap κ α).get? k = none := rfl

theorem contains_eq (m : OrderedMap κ α) (k : κ) :
    m.contains k = decide (k ∈ m.keys) :=
  Entries.get?_isSome m.entries k

theorem contains_iff {m : OrderedMap κ α} {k : κ} :
    m.contains k = true ↔ k ∈ m.keys := by
  rw [contains_eq, decide_eq_true_iff]

theorem get?_eq_none {m : OrderedMap κ α} {k : κ} (h : k ∉ m.keys) :
    m.get? k = none := by
  cases hm : m.get? k with
  | none => rfl
  | some a => exact absurd (contains_iff.mp (by simp [contains, hm])) h

theorem mem_entries_iff {m : OrderedMap κ α} {k : κ} {a : α} :
    (k, a) ∈ m.entries ↔ m.get? k = some a :=
  ⟨Entries.get?_of_mem m.nodup, Entries.mem_of_get?⟩

/-- The entry of a key is the only one with the key. -/
theorem filter_entries {m : OrderedMap κ α} {k : κ} {a : α} (h : m.get? k = some a) :
    m.entries.filter (·.1 = k) = [(k, a)] := by
  have hmem := mem_entries_iff.mpr h
  obtain ⟨before, after, hsplit⟩ := List.append_of_mem hmem
  have hnodup := m.nodup
  rw [hsplit, List.map_append, List.map_cons, List.nodup_append, List.nodup_cons]
    at hnodup
  obtain ⟨-, ⟨hafter, -⟩, hbefore⟩ := hnodup
  have hnone : ∀ es : List (κ × α), k ∉ es.map Prod.fst →
      es.filter (·.1 = k) = [] := by
    intro es hes
    rw [List.filter_eq_nil_iff]
    intro e he hek
    exact hes (of_decide_eq_true hek ▸ List.mem_map_of_mem he)
  have hbefore' : k ∉ before.map Prod.fst := fun hk =>
    hbefore k hk k List.mem_cons_self rfl
  rw [hsplit, List.filter_append, hnone before hbefore', List.filter_cons_of_pos (by simp),
    hnone after hafter]
  rfl

omit [DecidableEq κ] in
theorem ext_entries {m m' : OrderedMap κ α} (h : m.entries = m'.entries) : m = m' := by
  cases m
  cases m'
  cases h
  rfl

theorem ext_get? {m m' : OrderedMap κ α} (hk : m.keys = m'.keys)
    (hg : ∀ k, m.get? k = m'.get? k) : m = m' :=
  ext_entries (Entries.eq_of_get? m.nodup hk hg)

theorem entries_insert_of_not_mem {m : OrderedMap κ α} {k : κ}
    (h : k ∉ m.keys) (a : α) : (m.insert k a).entries = m.entries ++ [(k, a)] :=
  Entries.put_of_not_mem h a

/-- Putting a value that is there changes nothing. -/
theorem insert_of_get? {m : OrderedMap κ α} {k : κ} {a : α}
    (h : m.get? k = some a) : m.insert k a = m := by
  have hk : k ∈ m.keys := contains_iff.mp (by simp [contains, h])
  refine ext_get? (keys_insert_of_mem hk a) fun k' => ?_
  by_cases hk' : k' = k
  · rw [hk', get?_insert_self, h]
  · rw [get?_insert_ne m a hk']

theorem get?_map (f : κ → α → β) (m : OrderedMap κ α) (k : κ) :
    (m.map f).get? k = (m.get? k).map (f k) :=
  Entries.get?_map f m.entries k

/-! ## Inserting pairs -/

theorem insertAll_append (m : OrderedMap κ α) (es fs : List (κ × α)) :
    m.insertAll (es ++ fs) = (m.insertAll es).insertAll fs :=
  List.foldl_append

theorem mem_keys_insertAll {m : OrderedMap κ α} {es : List (κ × α)} {k : κ} :
    k ∈ (m.insertAll es).keys ↔ k ∈ m.keys ∨ k ∈ es.map Prod.fst := by
  induction es generalizing m with
  | nil => simp [insertAll]
  | cons e rest ih =>
      rw [insertAll, List.foldl_cons, ← insertAll, ih, mem_keys_insert]
      simp only [List.map_cons, List.mem_cons]
      rw [or_comm (a := k = e.1), or_assoc]

theorem keys_insertAll_of_subset {m : OrderedMap κ α} {es : List (κ × α)}
    (h : ∀ k ∈ es.map Prod.fst, k ∈ m.keys) : (m.insertAll es).keys = m.keys := by
  induction es generalizing m with
  | nil => rfl
  | cons e rest ih =>
      have hk := keys_insert_of_mem (h e.1 (by simp)) e.2
      rw [insertAll, List.foldl_cons, ← insertAll, ih fun k hk' => ?_, hk]
      rw [hk]
      exact h k (List.mem_cons_of_mem _ hk')

theorem get?_insertAll_of_not_mem {m : OrderedMap κ α} {es : List (κ × α)} {k : κ}
    (h : k ∉ es.map Prod.fst) : (m.insertAll es).get? k = m.get? k := by
  induction es generalizing m with
  | nil => rfl
  | cons e rest ih =>
      rw [List.map_cons, List.mem_cons, not_or] at h
      rw [insertAll, List.foldl_cons, ← insertAll, ih h.2, get?_insert_ne m e.2 h.1]

/-- A key that is put has the same value whatever the map was. -/
theorem get?_insertAll_of_mem {es : List (κ × α)} {k : κ} (h : k ∈ es.map Prod.fst)
    (m m' : OrderedMap κ α) : (m.insertAll es).get? k = (m'.insertAll es).get? k := by
  induction es generalizing m m' with
  | nil => cases h
  | cons e rest ih =>
      by_cases hrest : k ∈ rest.map Prod.fst
      · exact ih hrest _ _
      · rw [List.map_cons, List.mem_cons] at h
        have hk : k = e.1 := h.resolve_right hrest
        rw [insertAll, insertAll, List.foldl_cons, List.foldl_cons, ← insertAll,
          ← insertAll, get?_insertAll_of_not_mem hrest, get?_insertAll_of_not_mem hrest,
          hk, get?_insert_self, get?_insert_self]

/-- Inserting pairs that were inserted changes nothing. -/
theorem insertAll_insertAll (m : OrderedMap κ α) (es : List (κ × α)) :
    (m.insertAll es).insertAll es = m.insertAll es := by
  refine ext_get? (keys_insertAll_of_subset fun k hk => ?_) fun k => ?_
  · exact mem_keys_insertAll.mpr (.inr hk)
  · by_cases hk : k ∈ es.map Prod.fst
    · exact get?_insertAll_of_mem hk _ _
    · exact get?_insertAll_of_not_mem hk

theorem entries_insertAll (es : List (κ × α)) (m : OrderedMap κ α) :
    (m.insertAll es).entries
      = es.foldl (fun m e => Entries.put m e.1 e.2) m.entries := by
  induction es generalizing m with
  | nil => rfl
  | cons e rest ih => exact ih (m.insert e.1 e.2)

theorem entries_ofList {es : List (κ × α)} (h : (es.map Prod.fst).Nodup) :
    (ofList es).entries = es := by
  rw [ofList, entries_insertAll]
  exact Entries.foldl_put_append [] es h

/-- Putting a map's own entries in order gives the map. -/
@[simp] theorem ofList_entries (m : OrderedMap κ α) : ofList m.entries = m := by
  have h := entries_ofList m.nodup
  generalize ofList m.entries = m' at h
  cases m
  cases m'
  cases h
  rfl

end OrderedMap

end SimAnnotate
