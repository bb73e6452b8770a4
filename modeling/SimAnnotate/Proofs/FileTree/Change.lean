import SimAnnotate.Proofs.FileTree.Locate

/-!
# What a change of a tree leaves

Each operation changes the entry at one place, `makeDirectories` adds
directories. The lemmas say which place and what stays; in particular that
making the same directories again changes nothing.
-/

namespace SimAnnotate.FileTree

variable {t t' t'' : FileTree}

/-! ## Trees with the same entries -/

/-- The same entries, whatever their order. -/
structure Same (t t' : FileTree) : Prop where
  home : t'.home = t.home
  refusals : t'.refusals = t.refusals
  root : [] ∈ t'.entries.keys → [] ∈ t.entries.keys
  entries : ∀ q, t'.entry? q = t.entry? q

namespace Same

theorem refl (t : FileTree) : t.Same t := ⟨rfl, rfl, id, fun _ => rfl⟩

theorem trans (h : t.Same t') (h' : t'.Same t'') : t.Same t'' :=
  ⟨h'.home.trans h.home, h'.refusals.trans h.refusals, fun hr => h.root (h'.root hr),
    fun q => (h'.entries q).trans (h.entries q)⟩

theorem toExtends (h : t.Same t') : t.Extends t' :=
  ⟨h.home, h.refusals, h.root, fun q hq => (h.entries q).trans hq⟩

end Same

/-- Putting a file where it is changes nothing. -/
theorem same_put {q : Place} {e : FileEntry} (hq : q ≠ []) (h : t.entry? q = some e) :
    t.Same (t.put q e) := by
  refine ⟨rfl, rfl, (root_mem_put hq t e).mp, fun r => ?_⟩
  by_cases hr : r = q
  · rw [hr, entry?_put_self hq, h]
  · exact entry?_put_ne hr t e

/-! ## Files -/

theorem ne_root_of_locateFile {p : Path} {q : Place} (h : t.locateFile p = .ok q) :
    q ≠ [] := by
  intro hq
  subst hq
  exact (locateFile_eq_ok.mp h).2.2.1 t.entry?_nil

theorem write_eq_ok {p : Path} {text : String} :
    t.write p text = .ok t' ↔
      ∃ q, t.locateFile p = .ok q ∧ t.put q (.file text.toUTF8) = t' := by
  unfold write
  simp only [Except.bind_eq_ok, pure, Except.pure, Except.ok.injEq]

/-- A text that is added where nothing is. -/
theorem append_of_missing {p : Path} {text : String} {q : Place}
    (hq : t.locateFile p = .ok q) (hnone : t.entry? q = none) :
    t.append p text = .ok (t.put q (.file text.toUTF8)) := by
  unfold append
  rw [hq, Except.ok_bind]
  simp only [hnone]
  have hempty : ByteArray.empty ++ text.toUTF8 = text.toUTF8 := by simp
  rw [hempty]
  rfl

/-- Appending puts a file at the place of the path. -/
theorem eq_put_of_append {p : Path} {text : String} (h : t.append p text = .ok t') :
    ∃ q content, t.locateFile p = .ok q ∧ t.put q (.file content) = t' := by
  unfold append at h
  obtain ⟨q, hq, h⟩ := Except.bind_eq_ok.mp h
  exact ⟨q, _, hq, Except.ok.inj h⟩

theorem locateFile_of_append {p : Path} {text : String} (h : t.append p text = .ok t') :
    ∃ q, t.locateFile p = .ok q := by
  obtain ⟨q, -, hq, -⟩ := eq_put_of_append h
  exact ⟨q, hq⟩

theorem removeFile_eq_ok {p : Path} :
    t.removeFile p = .ok t' ↔ ∃ q content, t.locate p = .ok q
      ∧ t.entry? q = some (.file content) ∧ t.refusal? q = none ∧ t.erase q = t' := by
  unfold removeFile
  simp only [Except.bind_eq_ok]
  constructor
  · rintro ⟨q, hq, h⟩
    split at h
    · next content hcontent hrefusal =>
        cases h
        exact ⟨q, content, hq, hcontent, hrefusal, rfl⟩
    · cases h
    · cases h
    · cases h
  · rintro ⟨q, content, hq, hcontent, hrefusal, rfl⟩
    refine ⟨q, hq, ?_⟩
    rw [hcontent, hrefusal]
    rfl

theorem exists?_iff {p : Path} :
    t.exists? p = true ↔ ∃ q, t.locate p = .ok q ∧ (t.entry? q).isSome = true := by
  unfold exists?
  cases t.locate p <;> simp

/-! ## Files that grow -/

/-- The path leads to a file with this text, which can be written. -/
def HasText (t : FileTree) (p : Path) (text : String) : Prop :=
  ∃ q, t.locateFile p = .ok q ∧ t.entry? q = some (.file text.toUTF8)

theorem HasText.readText {p : Path} {text : String} (h : t.HasText p text) :
    t.readText p = .ok text := by
  obtain ⟨q, hq, hentry⟩ := h
  exact readText_of_entry? (locateFile_eq_ok.mp hq).1 hentry

theorem readText_eq_ok {p : Path} {text : String} : t.readText p = .ok text ↔
    ∃ q, t.locate p = .ok q ∧ t.entry? q = some (.file text.toUTF8) := by
  refine ⟨fun h => ?_, fun ⟨q, hq, hentry⟩ => readText_of_entry? hq hentry⟩
  unfold FileTree.readText at h
  obtain ⟨content, hread, h⟩ := Except.bind_eq_ok.mp h
  obtain ⟨q, hq, hentry⟩ := read_eq_ok.mp hread
  split at h
  · next s htext =>
      cases h
      refine ⟨q, hq, ?_⟩
      rw [hentry]
      unfold String.fromUTF8? at htext
      split at htext
      · cases htext
        rfl
      · cases htext
  · cases h

/-- A file that is put where a path leads. -/
theorem hasText_put {p : Path} {q : Place} (hq : t.locateFile p = .ok q) (text : String) :
    (t.put q (.file text.toUTF8)).HasText p text := by
  have hroot := ne_root_of_locateFile hq
  have hentry := entry?_put_self hroot t (.file text.toUTF8)
  have hput := extends_put (locateFile_eq_ok.mp hq).2.2.1 (.file text.toUTF8)
  exact ⟨q, hput.locateFile_of_file hq hentry, hentry⟩

/-- A text that is added where nothing is. -/
theorem hasText_of_missing {p : Path} {q : Place} (hq : t.locateFile p = .ok q)
    (hnone : t.entry? q = none) (text : String) :
    ∃ t', t.append p text = .ok t' ∧ t'.HasText p text :=
  ⟨_, append_of_missing hq hnone, hasText_put hq text⟩

/-- A text that is added to a text. -/
theorem HasText.append {p : Path} {old : String} (h : t.HasText p old) (text : String) :
    ∃ t', t.append p text = .ok t' ∧ t'.HasText p (old ++ text) := by
  obtain ⟨q, hq, hentry⟩ := h
  refine ⟨_, ?_, hasText_put hq (old ++ text)⟩
  unfold FileTree.append
  rw [hq, Except.ok_bind]
  simp only [hentry]
  have htext : old.toUTF8 ++ text.toUTF8 = (old ++ text).toUTF8 := by
    simp
  rw [htext]
  rfl

theorem hasText_of_append {p : Path} {old text : String} (h : t.append p text = .ok t')
    (hold : t.readText p = .ok old) : t'.HasText p (old ++ text) := by
  obtain ⟨q, hq⟩ := locateFile_of_append h
  obtain ⟨q', hq', hentry⟩ := readText_eq_ok.mp hold
  rw [(locateFile_eq_ok.mp hq).1] at hq'
  cases hq'
  obtain ⟨t₁, happend, htext⟩ := HasText.append ⟨q, hq, hentry⟩ text
  rw [h] at happend
  cases happend
  exact htext

/-! ## Directories -/

/-- `t'` is `t` with more directories. -/
structure AddsDirectories (t t' : FileTree) : Prop where
  home : t'.home = t.home
  refusals : t'.refusals = t.refusals
  root : [] ∈ t'.entries.keys → [] ∈ t.entries.keys
  entries : ∀ q, t'.entry? q = t.entry? q
    ∨ t.entry? q = none ∧ t'.entry? q = some .directory

namespace AddsDirectories

theorem refl (t : FileTree) : t.AddsDirectories t := ⟨rfl, rfl, id, fun _ => .inl rfl⟩

theorem trans (h : t.AddsDirectories t') (h' : t'.AddsDirectories t'') :
    t.AddsDirectories t'' := by
  refine ⟨h'.home.trans h.home, h'.refusals.trans h.refusals,
    fun hr => h.root (h'.root hr), fun q => ?_⟩
  rcases h.entries q with hq | ⟨hnone, hdir⟩
  · rcases h'.entries q with hq' | ⟨hnone, hdir⟩
    · exact .inl (hq'.trans hq)
    · exact .inr ⟨hq ▸ hnone, hdir⟩
  · rcases h'.entries q with hq' | ⟨hnone', -⟩
    · exact .inr ⟨hnone, hq'.trans hdir⟩
    · rw [hdir] at hnone'
      cases hnone'

theorem toExtends (h : t.AddsDirectories t') : t.Extends t' := by
  refine ⟨h.home, h.refusals, h.root, fun q hq => ?_⟩
  rcases h.entries q with hq' | ⟨hnone, -⟩
  · exact hq'.trans hq
  · rw [hq] at hnone
    cases hnone

/-- The files stay. -/
theorem file_iff (h : t.AddsDirectories t') {q : Place} {content : ByteArray} :
    t'.entry? q = some (.file content) ↔ t.entry? q = some (.file content) := by
  rcases h.entries q with hq | ⟨hnone, hdir⟩
  · rw [hq]
  · rw [hnone, hdir]
    simp

end AddsDirectories

theorem adds_put_directory {q : Place} (hnone : t.entry? q = none) :
    t.AddsDirectories (t.put q .directory) := by
  have hroot := ne_root_of_entry?_eq_none hnone
  refine ⟨rfl, rfl, (root_mem_put hroot t _).mp, fun r => ?_⟩
  by_cases hr : r = q
  · rw [hr]
    exact .inr ⟨hnone, entry?_put_self hroot t _⟩
  · exact .inl (entry?_put_ne hr t _)

theorem makeBelow_adds {place : Place} {segments : List (List Char)}
    (h : t.makeBelow place segments = .ok t') : t.AddsDirectories t' := by
  induction segments generalizing t place with
  | nil =>
      cases h
      exact .refl t'
  | cons s rest ih =>
      unfold makeBelow at h
      obtain ⟨q, hq, h⟩ := Except.bind_eq_ok.mp h
      split at h
      · exact ih h
      · cases h
      · next hnone =>
          split at h
          · cases h
          · exact (adds_put_directory hnone).trans (ih h)

/-- Directories that are there are made without a change. -/
theorem makeBelow_again {place : Place} {segments : List (List Char)}
    (h : t.makeBelow place segments = .ok t') (hext : t'.Extends t'') :
    t''.makeBelow place segments = .ok t'' := by
  induction segments generalizing t place with
  | nil => rfl
  | cons s rest ih =>
      have hadds := makeBelow_adds h
      unfold makeBelow at h ⊢
      obtain ⟨q, hq, h⟩ := Except.bind_eq_ok.mp h
      rw [(hadds.toExtends.trans hext).enter hq, Except.ok_bind]
      split at h
      · next hdir =>
          rw [hext.directories q (hadds.toExtends.directories q hdir)]
          exact ih h
      · cases h
      · next hnone =>
          split at h
          · cases h
          · -- what the first call made here is a directory from then on
            have hroot := ne_root_of_entry?_eq_none hnone
            have hdir := (makeBelow_adds h).toExtends.directories q
              (entry?_put_self hroot t _)
            rw [hext.directories q hdir]
            exact ih h

theorem makeDirectories_adds {p : Path} (h : t.makeDirectories p = .ok t') :
    t.AddsDirectories t' := by
  unfold makeDirectories at h
  split at h
  · cases h
    exact .refl t
  · cases h
  · exact makeBelow_adds h

theorem makeDirectories_again {p : Path} (h : t.makeDirectories p = .ok t')
    (hext : t'.Extends t'') : t''.makeDirectories p = .ok t'' := by
  have horigin := ((makeDirectories_adds h).toExtends.trans hext).origin p
  unfold makeDirectories at h ⊢
  rw [horigin]
  split at h
  · rfl
  · cases h
  · exact makeBelow_again h hext

/-- Along a way that is there nothing is made. -/
theorem makeBelow_of_foldlM {place q : Place} {segments rest : List (List Char)}
    (hq : segments.foldlM t.enter place = .ok q) (hentry : t.entry? q ≠ none)
    (h : t.makeBelow place (segments ++ rest) = .ok t') : t.makeBelow q rest = .ok t' := by
  induction segments generalizing place with
  | nil =>
      cases hq
      exact h
  | cons s segments ih =>
      rw [List.foldlM_cons] at hq
      obtain ⟨r, hr, hq⟩ := Except.bind_eq_ok.mp hq
      rw [List.cons_append, makeBelow, hr, Except.ok_bind] at h
      split at h
      · exact ih hq h
      · cases h
      · next hnone =>
          -- what the way leads through is a directory
          cases segments with
          | nil =>
              cases hq
              exact absurd hnone hentry
          | cons s' segments =>
              rw [List.foldlM_cons] at hq
              obtain ⟨r', hr', -⟩ := Except.bind_eq_ok.mp hq
              rw [entry?_of_enter hr'] at hnone
              cases hnone

theorem makeBelow_name {place : Place} {name : String} (hname : Path.isName name = true)
    (h : t.makeBelow place [name.toList] = .ok t') :
    t' = t ∨ t.entry? (place ++ [name]) = none
      ∧ t' = t.put (place ++ [name]) .directory := by
  unfold makeBelow at h
  obtain ⟨q, hq, h⟩ := Except.bind_eq_ok.mp h
  rw [← eq_of_enter_name hname hq]
  split at h
  · exact .inl (Except.ok.inj h).symm
  · cases h
  · next hnone =>
      split at h
      · cases h
      · exact .inr ⟨hnone, (Except.ok.inj h).symm⟩

theorem eq_of_enter_nil {place q : Place} (h : t.enter place [] = .ok q) : q = place := by
  have hdir := entry?_of_enter h
  unfold enter at h
  rw [hdir] at h
  exact (Except.ok.inj h).symm

/-- Behind a path that leads to a file there is no slash. -/
theorem trimmed_of_file {p : Path} {q : Place} {content : ByteArray}
    (hq : t.locate p = .ok q) (hentry : t.entry? q = some (.file content)) :
    (p.segments.reverse.dropWhile List.isEmpty).reverse = p.segments := by
  have hfile : t.entry? q ≠ some .directory := by
    rw [hentry]
    exact nofun
  have hfold := (locate_eq_ok.mp hq).2
  cases hsegments : p.segments using List.reverseRecOn with
  | nil => rfl
  | append_singleton front last =>
      rw [hsegments, List.foldlM_append] at hfold
      obtain ⟨place, -, hlast⟩ := Except.bind_eq_ok.mp hfold
      rw [List.foldlM_cons] at hlast
      obtain ⟨q', hlast, hq'⟩ := Except.bind_eq_ok.mp hlast
      cases hq'
      have hne : last.isEmpty = false := by
        rw [List.isEmpty_eq_false_iff]
        rintro rfl
        -- behind a slash at the end only a directory is found
        rw [eq_of_enter_nil hlast] at hfile
        exact hfile (entry?_of_enter hlast)
      rw [List.reverse_append, List.reverse_singleton, List.singleton_append,
        List.dropWhile_cons_of_neg (by simp [hne]), List.reverse_cons, List.reverse_reverse]

/-- What can be read can be written, unless it is refused. -/
theorem locateFile_of_file {p : Path} {q : Place} {content : ByteArray}
    (hq : t.locate p = .ok q) (hentry : t.entry? q = some (.file content)) :
    t.locateFile p =
      match t.refusal? q with
      | some r => .error (.refused r)
      | none => .ok q := by
  have hfile : t.entry? q ≠ some .directory := by
    rw [hentry]
    exact nofun
  obtain ⟨hfault, hway⟩ := locate_eq_ok.mp hq
  unfold locateFile
  simp only [hfault, trimmed_of_file hq hentry, hway, Except.ok_bind, ne_eq, not_true_eq_false,
    if_false, hfile]
  cases t.refusal? q <;> rfl

/-- Below what is there, at most the last directory is made. -/
theorem makeDirectories_join {p : Path} {place : Place} {name : String}
    (hp : t.locate p = .ok place) (hentry : t.entry? place ≠ none)
    (hname : Path.isName name = true) (h : t.makeDirectories (p.join name) = .ok t') :
    t' = t ∨ t.entry? (place ++ [name]) = none
      ∧ t' = t.put (place ++ [name]) .directory := by
  have htext := text_ne_of_locate hp
  have horigin : t.origin (p.join name) = t.origin p := by
    rw [origin, origin, Path.isAbsolute_join htext hname]
  have hway := (locate_eq_ok.mp hp).2
  unfold makeDirectories at h
  split at h
  · exact .inl (Except.ok.inj h).symm
  · cases h
  rw [horigin] at h
  rcases Path.segments_join htext hname with ⟨front, -, hold, hnew⟩ | hnew
  · -- the path ends with a slash, which leads nowhere else
    rw [hold, List.foldlM_append] at hway
    obtain ⟨q, hq, hway⟩ := Except.bind_eq_ok.mp hway
    rw [List.foldlM_cons] at hway
    obtain ⟨r, hr, hway⟩ := Except.bind_eq_ok.mp hway
    cases hway
    cases eq_of_enter_nil hr
    rw [hnew] at h
    exact makeBelow_name hname (makeBelow_of_foldlM hq hentry h)
  · rw [hnew] at h
    exact makeBelow_name hname (makeBelow_of_foldlM hway hentry h)

end SimAnnotate.FileTree
