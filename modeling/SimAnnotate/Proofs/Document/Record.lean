import Mathlib.Data.List.Nodup
import SimAnnotate.Document.Encode
import SimAnnotate.Document.Decode
import SimAnnotate.Proofs.Except
import SimAnnotate.Proofs.Yaml.Value

/-!
# Reading and writing records

Two principles serve all records. `Record.read_induction` says what holds of a
record that was read, field by field. `Record.Fills` says that written entries
lead the reader from one value of the record to another; it is shown for each
way of writing a field, and put together with `Fills.append`.
-/

namespace SimAnnotate.Decode

open Yaml (Value)

namespace Record

variable {σ : Type} {r : Record σ}

/-! ## What holds of a record that was read -/

theorem entries?_eq_ok {v : Value} {es : List (Value × Value)}
    (h : r.entries? v = .ok es) : v.untag = .mapping es ∨ es = [] := by
  unfold entries? at h
  split at h
  · next hv =>
      cases h
      exact .inl hv
  · cases h
    exact .inr rfl
  · cases h

/-- The values of the fields of a value without repeated keys have none. -/
theorem repeatsKey_of_entries? {v : Value} {es : List (Value × Value)}
    (hv : v.repeatsKey = false) (h : r.entries? v = .ok es) {e : Value × Value}
    (he : e ∈ es) : e.2.repeatsKey = false := by
  rcases entries?_eq_ok h with h | rfl
  · rw [← Value.repeatsKey_untag, h] at hv
    exact Value.repeatsKey_of_mem hv he
  · cases he

section

variable {P : σ → Prop} {Q : Value → Prop}
  (field : ∀ name read v x y, r.field? name = some read → Q v → P x →
    read v x = .ok y → P y)
  (keep : ∀ keep name v x, r.keep? = some keep → r.field? name = none →
    v.hasTag = false → Q v → P x → P (keep name v x))

include field keep

/-- What each field keeps is kept by one entry. -/
theorem step_induction {s s' : List String × σ} {e : Value × Value}
    (h : r.step s e = .ok s') (he : Q e.2) (hp : P s.2) : P s'.2 := by
  obtain ⟨name, -, h⟩ := Except.bind_eq_ok.mp h
  split at h
  · next read hfield =>
      split at h
      · cases h
      · obtain ⟨y, hy, h⟩ := Except.bind_eq_ok.mp h
        cases h
        exact field name read e.2 s.2 y hfield he hp hy
  · next hfield =>
      split at h
      · next k hk =>
          split at h
          · cases h
          · next htag =>
              cases h
              exact keep k name e.2 s.2 hk hfield (Bool.eq_false_iff.mpr htag) he hp
      · -- a field that is not kept leaves the record
        cases h
        exact hp

theorem foldlM_induction {es : List (Value × Value)} {s s' : List String × σ}
    (h : es.foldlM r.step s = .ok s') (hes : ∀ e ∈ es, Q e.2) (hp : P s.2) : P s'.2 := by
  induction es generalizing s with
  | nil =>
      cases h
      exact hp
  | cons e rest ih =>
      rw [List.foldlM_cons] at h
      obtain ⟨t, ht, h⟩ := Except.bind_eq_ok.mp h
      exact ih h (fun e he => hes e (List.mem_cons_of_mem _ he))
        (step_induction field keep ht (hes e List.mem_cons_self) hp)

/-- What holds at the start and is kept by each field holds of the record. `Q`
holds of the values of the fields. -/
theorem read_induction {v : Value} {x : σ} (hread : r.read v = .ok x)
    (hQ : ∀ es, r.entries? v = .ok es → ∀ e ∈ es, Q e.2) (start : P r.start) : P x := by
  obtain ⟨es, hes, hread⟩ := Except.bind_eq_ok.mp hread
  obtain ⟨s, hs, hread⟩ := Except.bind_eq_ok.mp hread
  dsimp only at hread
  split at hread
  · cases hread
  · cases hread
    exact foldlM_induction field keep hs (hQ es hes) start

end

/-- The induction for a value without repeated keys. -/
theorem read_induction_of_repeatsKey {P : σ → Prop} {v : Value} {x : σ}
    (hv : v.repeatsKey = false) (hread : r.read v = .ok x) (start : P r.start)
    (field : ∀ name read v x y, r.field? name = some read → v.repeatsKey = false →
      P x → read v x = .ok y → P y)
    (keep : ∀ keep name v x, r.keep? = some keep → r.field? name = none →
      v.hasTag = false → v.repeatsKey = false → P x → P (keep name v x)) : P x :=
  read_induction (Q := fun v => v.repeatsKey = false) field keep hread
    (fun _ hes _ he => repeatsKey_of_entries? hv hes he) start

/-! ## Reading what was written -/

/-- The entries lead from `x` to `y`. They hold every field of `must` and no
other than those of `may`. -/
structure Fills (r : Record σ) (must may : List String)
    (es : List (Value × Value)) (x y : σ) : Prop where
  reads : ∀ seen, (∀ name ∈ may, name ∉ seen) → ∃ seen',
    es.foldlM r.step (seen, x) = .ok (seen', y)
      ∧ (∀ name ∈ seen', name ∈ seen ∨ name ∈ may)
      ∧ ∀ name, name ∈ seen ∨ name ∈ must → name ∈ seen'
  declared : ∀ name ∈ may, (r.field? name).isSome
  keys : ∀ e ∈ es, ∃ name ∈ may, e.1 = .string name
  values : ∀ e ∈ es, e.2.repeatsKey = false
  nodup : (es.map Prod.fst).Nodup

theorem step_field {name : String} {read : Value → σ → Decoded σ}
    (hfield : r.field? name = some read) {seen : List String}
    (hname : name ∉ seen) {v : Value} {x y : σ} (hv : read v x = .ok y) :
    r.step (seen, x) (.string name, v) = .ok (name :: seen, y) := by
  unfold step
  simp only [stringFor, Value.untag, Except.ok_bind, hfield, if_neg hname]
  rw [hv]
  rfl

theorem step_keep {keep : String → Value → σ → σ} (hkeep : r.keep? = some keep)
    {name : String} (hfield : r.field? name = none) {v : Value}
    (hv : v.hasTag = false) (s : List String × σ) :
    r.step s (.string name, v) = .ok (s.1, keep name v s.2) := by
  unfold step
  simp only [stringFor, Value.untag, Except.ok_bind, hfield, hkeep, hv]
  rfl

/-- Entries among which all required fields are. -/
theorem read_of_foldlM {es : List (Value × Value)} {seen : List String} {y : σ}
    (hfold : es.foldlM r.step ([], r.start) = .ok (seen, y))
    (hseen : ∀ name ∈ r.required, name ∈ seen) : r.read (.mapping es) = .ok y := by
  have hall : r.required.find? (· ∉ seen) = none := by
    rw [List.find?_eq_none]
    intro name hname
    simpa using hseen name hname
  unfold read entries?
  simp only [Value.untag, Except.ok_bind]
  rw [hfold, Except.ok_bind]
  dsimp only
  rw [hall]
  rfl

namespace Fills

theorem nil (x : σ) : r.Fills [] [] [] x x where
  reads seen _ := ⟨seen, rfl, fun _ h => .inl h, by simp⟩
  declared := by simp
  keys := by simp
  values := by simp
  nodup := List.nodup_nil

theorem field {name : String} {read : Value → σ → Decoded σ}
    (hfield : r.field? name = some read) {v : Value} {x y : σ}
    (hv : read v x = .ok y) (hrep : v.repeatsKey = false) :
    r.Fills [name] [name] (Encode.field name v) x y where
  reads seen hseen := by
    refine ⟨name :: seen, ?_, by simp [or_comm], by simp [or_comm]⟩
    rw [Encode.field, List.foldlM_cons,
      step_field hfield (hseen name List.mem_cons_self) hv]
    rfl
  declared := by simp [hfield]
  keys := by simp [Encode.field]
  values := by simp [Encode.field, hrep]
  nodup := by simp [Encode.field]

/-- What may be there need not be. -/
theorem weaken {must may more : List String} {es : List (Value × Value)} {x y : σ}
    (h : r.Fills must may es x y) (hmay : ∀ name ∈ may, name ∈ more)
    (hmore : ∀ name ∈ more, (r.field? name).isSome) : r.Fills [] more es x y where
  reads seen hseen := by
    obtain ⟨seen', hfold, hfrom, hto⟩ :=
      h.reads seen fun name hname => hseen name (hmay name hname)
    exact ⟨seen', hfold, fun name hname => (hfrom name hname).imp_right (hmay name),
      fun name hname => hto name (.inl (by simpa using hname))⟩
  declared := hmore
  keys e he := by
    obtain ⟨name, hname, hkey⟩ := h.keys e he
    exact ⟨name, hmay name hname, hkey⟩
  values := h.values
  nodup := h.nodup

/-- A field that is written when it is there. -/
theorem optional {α : Type} {name : String} {read : Value → σ → Decoded σ}
    (hfield : r.field? name = some read) {encode : α → Value} {o : Option α}
    {x y : σ} (hnone : o = none → x = y)
    (hsome : ∀ a, o = some a → read (encode a) x = .ok y
      ∧ (encode a).repeatsKey = false) :
    r.Fills [] [name] (Encode.optional name encode o) x y := by
  have hdeclared : ∀ n ∈ [name], (r.field? n).isSome := by simp [hfield]
  cases o with
  | none =>
      rw [hnone rfl]
      exact (nil y).weaken (by simp) hdeclared
  | some a =>
      obtain ⟨hread, hrep⟩ := hsome a rfl
      exact (field hfield hread hrep).weaken (fun _ h => h) hdeclared

/-- A field that is written unless its map is empty. -/
theorem unlessEmpty {α : Type} {name : String} {read : Value → σ → Decoded σ}
    (hfield : r.field? name = some read)
    {encode : OrderedMap String α → Value} {m : OrderedMap String α} {x y : σ}
    (hempty : m = ∅ → x = y) (hread : read (encode m) x = .ok y)
    (hrep : (encode m).repeatsKey = false) :
    r.Fills [] [name] (Encode.unlessEmpty name encode m) x y := by
  have hdeclared : ∀ n ∈ [name], (r.field? n).isSome := by simp [hfield]
  unfold Encode.unlessEmpty
  split
  · next hm =>
      rw [hempty (OrderedMap.isEmpty_iff.mp hm)]
      exact (nil y).weaken (by simp) hdeclared
  · exact (field hfield hread hrep).weaken (fun _ h => h) hdeclared

theorem append {must must' may may' : List String} {es es' : List (Value × Value)}
    {x y z : σ} (h : r.Fills must may es x y) (h' : r.Fills must' may' es' y z)
    (hmay : ∀ name ∈ may, name ∉ may') :
    r.Fills (must ++ must') (may ++ may') (es ++ es') x z where
  reads seen hseen := by
    obtain ⟨seen₁, hfold₁, hfrom₁, hto₁⟩ :=
      h.reads seen fun name hname => hseen name (List.mem_append_left _ hname)
    obtain ⟨seen₂, hfold₂, hfrom₂, hto₂⟩ := h'.reads seen₁ fun name hname hmem =>
      (hfrom₁ name hmem).elim (hseen name (List.mem_append_right _ hname))
        fun hmem => hmay name hmem hname
    -- names that are seen come from before or from one of the two lists
    refine ⟨seen₂, ?_, fun name hname => ?_, fun name hname => ?_⟩
    · rw [List.foldlM_append, hfold₁]
      exact hfold₂
    · have hold := fun hmem => hfrom₁ name hmem
      have hnew := hfrom₂ name hname
      rw [List.mem_append]
      tauto
    · have hold := hto₁ name
      have hnew := hto₂ name
      rw [List.mem_append] at hname
      tauto
  declared name hname := (List.mem_append.mp hname).elim (h.declared name)
    (h'.declared name)
  keys e he := by
    rcases List.mem_append.mp he with he | he
    · obtain ⟨name, hname, hkey⟩ := h.keys e he
      exact ⟨name, List.mem_append_left _ hname, hkey⟩
    · obtain ⟨name, hname, hkey⟩ := h'.keys e he
      exact ⟨name, List.mem_append_right _ hname, hkey⟩
  values e he := (List.mem_append.mp he).elim (h.values e) (h'.values e)
  nodup := by
    rw [List.map_append, List.nodup_append]
    refine ⟨h.nodup, h'.nodup, fun k hk k' hk' heq => ?_⟩
    obtain ⟨e, he, rfl⟩ := List.mem_map.mp hk
    obtain ⟨e', he', rfl⟩ := List.mem_map.mp hk'
    obtain ⟨name, hname, hkey⟩ := h.keys e he
    obtain ⟨name', hname', hkey'⟩ := h'.keys e' he'
    rw [hkey, hkey', Value.string.injEq] at heq
    exact hmay name hname (heq ▸ hname')

variable {must may : List String} {es : List (Value × Value)} {y : σ}

/-- Reading declared fields alone. -/
theorem read (h : r.Fills must may es r.start y)
    (hmust : ∀ name ∈ r.required, name ∈ must) :
    r.read (.mapping es) = .ok y := by
  obtain ⟨seen, hfold, -, hto⟩ := h.reads [] (by simp)
  exact read_of_foldlM hfold fun name hname => hto name (.inr (hmust name hname))

theorem repeatsKey (h : r.Fills must may es r.start y) :
    (Value.mapping es).repeatsKey = false :=
  Value.repeatsKey_mapping
    (fun e he => (h.keys e he).imp fun _ hkey => hkey.2) h.values h.nodup

end Fills

/-! ## Fields that are not declared -/

/-- Fields that the record keeps as they are. -/
def Keeps (r : Record σ) (m : Fields) : Prop :=
  ∀ name v, m.get? name = some v →
    r.field? name = none ∧ v.hasTag = false ∧ v.repeatsKey = false

theorem keeps_empty : r.Keeps ∅ := nofun

theorem Keeps.insert {m : Fields} (h : r.Keeps m) {name : String} {v : Value}
    (hfield : r.field? name = none) (htag : v.hasTag = false)
    (hrep : v.repeatsKey = false) : r.Keeps (m.insert name v) := by
  intro name' v' hv'
  by_cases hname : name' = name
  · rw [hname, OrderedMap.get?_insert_self] at hv'
    cases hv'
    exact ⟨hname ▸ hfield, htag, hrep⟩
  · rw [OrderedMap.get?_insert_ne m v hname] at hv'
    exact h name' v' hv'

variable {keep : String → Value → σ → σ}

theorem foldlM_keep (hkeep : r.keep? = some keep) {es : List (String × Value)}
    (hes : ∀ e ∈ es, r.field? e.1 = none ∧ e.2.hasTag = false)
    (s : List String × σ) :
    (es.map fun e => (Value.string e.1, e.2)).foldlM r.step s
      = .ok (s.1, es.foldl (fun x e => keep e.1 e.2 x) s.2) := by
  induction es generalizing s with
  | nil => rfl
  | cons e rest ih =>
      obtain ⟨hfield, htag⟩ := hes e List.mem_cons_self
      rw [List.map_cons, List.foldlM_cons, step_keep hkeep hfield htag,
        Except.ok_bind, ih fun e he => hes e (List.mem_cons_of_mem _ he)]
      rfl

theorem foldl_keep {f : Fields → σ}
    (hset : ∀ m name v, keep name v (f m) = f (m.insert name v))
    (es : List (String × Value)) :
    es.foldl (fun x e => keep e.1 e.2 x) (f ∅) = f (OrderedMap.ofList es) := by
  have hfold : ∀ m : Fields, es.foldl (fun x e => keep e.1 e.2 x) (f m)
      = f (m.insertAll es) := by
    induction es with
    | nil => exact fun _ => rfl
    | cons e rest ih =>
        intro m
        rw [List.foldl_cons, hset, ih]
        rfl
  exact hfold ∅

namespace Fills

variable {must may : List String} {es : List (Value × Value)} {extra : Fields}

/-- Reading declared fields and the ones that are kept behind them. `f` puts
fields into what the declared ones lead to. -/
theorem read_fields {f : Fields → σ} (h : r.Fills must may es r.start (f ∅))
    (hmust : ∀ name ∈ r.required, name ∈ must) (hkeep : r.keep? = some keep)
    (hset : ∀ m name v, keep name v (f m) = f (m.insert name v))
    (hextra : r.Keeps extra) :
    r.read (.mapping (es ++ Encode.fields extra)) = .ok (f extra) := by
  obtain ⟨seen, hfold, -, hto⟩ := h.reads [] (by simp)
  have hkept : (Encode.fields extra).foldlM r.step (seen, f ∅)
      = .ok (seen, extra.entries.foldl (fun x e => keep e.1 e.2 x) (f ∅)) :=
    foldlM_keep hkeep (fun e he =>
      have hget := hextra e.1 e.2 (OrderedMap.mem_entries_iff.mp he)
      ⟨hget.1, hget.2.1⟩) (seen, f ∅)
  rw [foldl_keep hset, OrderedMap.ofList_entries] at hkept
  refine read_of_foldlM ?_ fun name hname => hto name (.inr (hmust name hname))
  rw [List.foldlM_append, hfold, Except.ok_bind, hkept]

theorem repeatsKey_fields {y : σ} (h : r.Fills must may es r.start y)
    (hextra : r.Keeps extra) :
    (Value.mapping (es ++ Encode.fields extra)).repeatsKey = false := by
  have hget : ∀ e ∈ extra.entries, r.field? e.1 = none ∧ e.2.repeatsKey = false :=
    fun e he =>
      have hget := hextra e.1 e.2 (OrderedMap.mem_entries_iff.mp he)
      ⟨hget.1, hget.2.2⟩
  refine Value.repeatsKey_mapping (fun e he => ?_) (fun e he => ?_) ?_
  · rcases List.mem_append.mp he with he | he
    · obtain ⟨name, -, hkey⟩ := h.keys e he
      exact ⟨name, hkey⟩
    · obtain ⟨f, -, rfl⟩ := List.mem_map.mp he
      exact ⟨f.1, rfl⟩
  · rcases List.mem_append.mp he with he | he
    · exact h.values e he
    · obtain ⟨f, hf, rfl⟩ := List.mem_map.mp he
      exact (hget f hf).2
  · rw [List.map_append, List.nodup_append]
    refine ⟨h.nodup, ?_, fun k hk k' hk' heq => ?_⟩
    · have hinj : Function.Injective Value.string := fun _ _ => Value.string.inj
      have hkeys := List.Nodup.map hinj extra.nodup
      simpa [Encode.fields, Function.comp_def] using hkeys
    · -- a declared field is none that is kept
      obtain ⟨e, he, rfl⟩ := List.mem_map.mp hk
      obtain ⟨name, hname, hkey⟩ := h.keys e he
      simp only [Encode.fields, List.map_map, List.mem_map, Function.comp_apply] at hk'
      obtain ⟨f, hf, rfl⟩ := hk'
      rw [hkey, Value.string.injEq] at heq
      have hdeclared := h.declared name hname
      rw [heq, (hget f hf).1] at hdeclared
      cases hdeclared

end Fills

/-! ## Records that return -/

/-- What is written of a record has no repeated key and is read as the
record. -/
structure Returns (r : Record σ) (encode : σ → Value) (x : σ) : Prop where
  read : r.read (encode x) = .ok x
  repeatsKey : (encode x).repeatsKey = false

namespace Fills

variable {must may : List String} {es : List (Value × Value)} {extra : Fields}
  {encode : σ → Value} {x : σ}

theorem returns (h : r.Fills must may es r.start x)
    (hmust : ∀ name ∈ r.required, name ∈ must) (hencode : encode x = .mapping es) :
    r.Returns encode x where
  read := by rw [hencode, h.read hmust]
  repeatsKey := by rw [hencode, h.repeatsKey]

theorem returns_fields {f : Fields → σ} (h : r.Fills must may es r.start (f ∅))
    (hmust : ∀ name ∈ r.required, name ∈ must) (hkeep : r.keep? = some keep)
    (hset : ∀ m name v, keep name v (f m) = f (m.insert name v))
    (hextra : r.Keeps extra) (hx : x = f extra)
    (hencode : encode x = .mapping (es ++ Encode.fields extra)) :
    r.Returns encode x where
  read := by rw [hencode, h.read_fields hmust hkeep hset hextra, hx]
  repeatsKey := by rw [hencode, h.repeatsKey_fields hextra]

end Fills

end Record

end SimAnnotate.Decode
