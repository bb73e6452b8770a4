import SimAnnotate.Proofs.FileTree.Change

/-!
# Trees stay in good shape

A path leads to a directory or to a name in one (`WellFormed.stands_of_locate`). So what
comes into a tree comes into a directory. What goes is a file, and nothing is below it. Each
operation therefore leaves a tree in good shape that was in good shape before.
-/

namespace SimAnnotate.FileTree

/-- A place where something can be: a directory, or a name in one. -/
inductive Stands (t : FileTree) : Place → Prop
  | directory {q : Place} : t.entry? q = some .directory → Stands t q
  | name {place : Place} {name : String} : t.entry? place = some .directory →
      Path.isName name = true → Stands t (place ++ [name])

variable {t t' : FileTree}

theorem wellFormed_empty (home : Place) (refusals : List (Place × Refusal)) :
    WellFormed ⟨∅, home, refusals⟩ :=
  ⟨List.not_mem_nil, fun _ h => absurd h List.not_mem_nil,
    fun _ h => absurd h List.not_mem_nil⟩

namespace WellFormed

/-! ## Where paths lead -/

/-- What a directory stands in is a directory. -/
theorem entry?_dropLast (hwf : t.WellFormed) {q : Place}
    (h : t.entry? q = some .directory) : t.entry? q.dropLast = some .directory := by
  by_cases hq : q = []
  · rw [hq]
    exact t.entry?_nil
  · exact hwf.parents q (mem_keys_of_entry hq h)

theorem isName_of_entry? (hwf : t.WellFormed) {q : Place} {e : FileEntry}
    (h : t.entry? q = some e) : ∀ name ∈ q, Path.isName name = true := by
  by_cases hq : q = []
  · rw [hq]
    exact fun _ hname => absurd hname List.not_mem_nil
  · exact hwf.names q (mem_keys_of_entry hq h)

theorem stands_of_enter (hwf : t.WellFormed) {place q : Place} {segment : List Char}
    (hslash : '/' ∉ segment) (h : t.enter place segment = .ok q) : t.Stands q := by
  have hdir := entry?_of_enter h
  unfold enter at h
  rw [hdir] at h
  dsimp only at h
  split at h
  · next s hs =>
      split at h
      · cases h
      · cases h
        exact .name hdir (Path.isName_of_innerPart? hslash hs)
  · cases h
    exact .directory (hwf.entry?_dropLast hdir)
  · cases h
    exact .directory hdir

/-- The last segment of a path is entered, so the path leads to where something can be. -/
theorem stands_of_locate (hwf : t.WellFormed) {p : Path} {q : Place}
    (h : t.locate p = .ok q) : t.Stands q := by
  have hway := (locate_eq_ok.mp h).2
  cases hsegments : p.segments using List.reverseRecOn with
  | nil => exact absurd hsegments (Path.splitSlashes_ne_nil _)
  | append_singleton front last =>
      have hlast : last ∈ p.segments := by
        rw [hsegments]
        exact List.mem_append_right front List.mem_cons_self
      rw [hsegments, List.foldlM_append] at hway
      obtain ⟨place, -, hway⟩ := Except.bind_eq_ok.mp hway
      rw [List.foldlM_cons] at hway
      obtain ⟨q', henter, hq⟩ := Except.bind_eq_ok.mp hway
      cases hq
      exact hwf.stands_of_enter (Path.not_mem_of_mem_splitSlashes hlast) henter

/-! ## Changes at one place -/

theorem put (hwf : t.WellFormed) {q : Place} (hq : t.Stands q)
    (hdir : t.entry? q ≠ some .directory) (e : FileEntry) : (t.put q e).WellFormed := by
  cases hq with
  | directory h => exact absurd h hdir
  | @name place name hplace hname =>
      have hroot : place ++ [name] ≠ [] := by simp
      -- directories are where they were, and the new entry is in one of them
      have hkept : ∀ r, t.entry? r = some .directory →
          entry? (t.put (place ++ [name]) e) r = some .directory :=
        (extends_put hdir e).directories
      have hkeys : ∀ r ∈ (t.put (place ++ [name]) e).entries.keys,
          r = place ++ [name] ∨ r ∈ t.entries.keys := fun r hr =>
        OrderedMap.mem_keys_insert.mp hr
      refine ⟨fun h => hwf.ne_root ((root_mem_put hroot t e).mp h), fun r hr n hn => ?_,
        fun r hr => hkept _ ?_⟩
      · rcases hkeys r hr with rfl | hr
        · rcases List.mem_append.mp hn with hn | hn
          · exact hwf.isName_of_entry? hplace n hn
          · rwa [List.mem_singleton.mp hn]
        · exact hwf.names r hr n hn
      · rcases hkeys r hr with rfl | hr
        · rwa [List.dropLast_concat]
        · exact hwf.parents r hr

/-- Nothing is below what is no directory, so it can go. -/
theorem erase (hwf : t.WellFormed) {q : Place} (hdir : t.entry? q ≠ some .directory) :
    (t.erase q).WellFormed := by
  have hkeys : ∀ r ∈ (t.erase q).entries.keys, r ∈ t.entries.keys := fun r hr => by
    rw [← OrderedMap.contains_iff, OrderedMap.contains, FileTree.erase,
      OrderedMap.get?_erase] at hr
    split at hr
    · cases hr
    · exact OrderedMap.contains_iff.mp hr
  exact ⟨fun h => hwf.ne_root (hkeys _ h), fun r hr => hwf.names r (hkeys r hr),
    fun r hr => (extends_erase hdir).directories _ (hwf.parents r (hkeys r hr))⟩

/-! ## Operations -/

theorem put_of_locateFile (hwf : t.WellFormed) {p : Path} {q : Place}
    (hq : t.locateFile p = .ok q) (e : FileEntry) : (t.put q e).WellFormed := by
  obtain ⟨hlocate, -, hdir, -⟩ := locateFile_eq_ok.mp hq
  exact hwf.put (hwf.stands_of_locate hlocate) hdir e

theorem write (hwf : t.WellFormed) {p : Path} {text : String}
    (h : t.write p text = .ok t') : t'.WellFormed := by
  obtain ⟨q, hq, rfl⟩ := write_eq_ok.mp h
  exact hwf.put_of_locateFile hq _

theorem append (hwf : t.WellFormed) {p : Path} {text : String}
    (h : t.append p text = .ok t') : t'.WellFormed := by
  obtain ⟨q, content, hq, rfl⟩ := eq_put_of_append h
  exact hwf.put_of_locateFile hq _

theorem removeFile (hwf : t.WellFormed) {p : Path} (h : t.removeFile p = .ok t') :
    t'.WellFormed := by
  obtain ⟨q, content, -, hfile, -, rfl⟩ := removeFile_eq_ok.mp h
  refine hwf.erase ?_
  rw [hfile]
  exact nofun

theorem makeBelow (hwf : t.WellFormed) {place : Place} {segments : List (List Char)}
    (hslash : ∀ s ∈ segments, '/' ∉ s) (h : t.makeBelow place segments = .ok t') :
    t'.WellFormed := by
  induction segments generalizing t place with
  | nil =>
      cases h
      exact hwf
  | cons s rest ih =>
      have hrest := fun s' hs' => hslash s' (List.mem_cons_of_mem s hs')
      unfold FileTree.makeBelow at h
      obtain ⟨q, hq, h⟩ := Except.bind_eq_ok.mp h
      split at h
      · exact ih hwf hrest h
      · cases h
      · next hnone =>
          split at h
          · cases h
          · -- a new directory comes where nothing is
            have hstands := hwf.stands_of_enter (hslash s List.mem_cons_self) hq
            refine ih (hwf.put hstands (fun hdir => ?_) .directory) hrest h
            rw [hnone] at hdir
            cases hdir

theorem makeDirectories (hwf : t.WellFormed) {p : Path}
    (h : t.makeDirectories p = .ok t') : t'.WellFormed := by
  unfold FileTree.makeDirectories at h
  split at h
  · cases h
    exact hwf
  · cases h
  · exact hwf.makeBelow (fun s hs => Path.not_mem_of_mem_splitSlashes hs) h

end WellFormed

end SimAnnotate.FileTree
