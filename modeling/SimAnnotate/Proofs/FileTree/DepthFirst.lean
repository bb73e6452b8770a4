import SimAnnotate.Proofs.FileTree.WalkPaths
import SimAnnotate.Proofs.OrderedMap

/-!
# Going through a tree depth first

A visit of a tree (`Visits`) goes through the entries of each directory in the order of
their names, and through all that is below an entry before it comes to the next. So it
comes to the files in the order in which `FileTree.filesBelow` gives them, and there is
one visit from each place (`visits_iff`): the order of the whole walk is settled by the
order inside each directory.
-/

namespace SimAnnotate.FileTree

/-- A visit from a place comes to these files, each by the names that lead to it. -/
inductive Visits (t : FileTree) : Place → List Place → Prop where
  | missing {place : Place} : t.entry? place = none → Visits t place []
  | file {place : Place} {content : ByteArray} :
      t.entry? place = some (.file content) → Visits t place [[]]
  | directory {place : Place} {names : List String} {below : String → List Place} :
      t.entry? place = some .directory →
      names.Pairwise (fun a b => a.toUTF8.data.toList < b.toUTF8.data.toList) →
      (∀ name, name ∈ names ↔ place ++ [name] ∈ t.entries.keys) →
      (∀ name ∈ names, Visits t (place ++ [name]) (below name)) →
      Visits t place (names.flatMap fun name => (below name).map (name :: ·))

variable {t : FileTree} {place : Place} {ps : List Place}

/-! ## Entries on the way -/

/-- What is below a place is reached through a directory. -/
theorem WellFormed.directory_of_cons (hwf : t.WellFormed) {name : String} {rest : Place}
    {e : FileEntry} (h : t.entry? (place ++ name :: rest) = some e) :
    t.entry? place = some .directory ∧ place ++ [name] ∈ t.entries.keys := by
  have hkey := mem_keys_of_entry (by simp) h
  refine ⟨hwf.entry?_of_append (List.cons_ne_nil name rest) hkey, ?_⟩
  cases rest with
  | nil => exact hkey
  | cons name' rest =>
      rw [List.append_cons] at hkey
      exact mem_keys_of_entry (by simp)
        (hwf.entry?_of_append (List.cons_ne_nil name' rest) hkey)

/-! ## What a visit comes to -/

/-- A visit comes to the files, -/
theorem Visits.mem (hwf : t.WellFormed) (h : t.Visits place ps) (names : Place) :
    names ∈ ps ↔ ∃ content, t.entry? (place ++ names) = some (.file content) := by
  induction h generalizing names with
  | missing hnone =>
      refine iff_of_false List.not_mem_nil ?_
      rintro ⟨content, hfile⟩
      cases names with
      | nil => simp [hnone] at hfile
      | cons name rest =>
          -- a file further down would have a directory here
          have hdir := (hwf.directory_of_cons hfile).1
          rw [hnone] at hdir
          cases hdir
  | file hentry =>
      cases names with
      | nil => simp [hentry]
      | cons name rest =>
          refine iff_of_false (by simp) ?_
          rintro ⟨content, hfile⟩
          have hdir := (hwf.directory_of_cons hfile).1
          rw [hentry] at hdir
          cases hdir
  | @directory place names' below hentry _ hnames _ ih =>
      cases names with
      | nil => simp [hentry]
      | cons name rest =>
          have happend : place ++ name :: rest = place ++ [name] ++ rest :=
            List.append_cons place name rest
          constructor
          · intro hmem
            obtain ⟨name', hname', hmem⟩ := List.mem_flatMap.mp hmem
            obtain ⟨rest', hrest, heq⟩ := List.mem_map.mp hmem
            cases heq
            rw [happend]
            exact (ih name hname' rest).mp hrest
          · rintro ⟨content, hfile⟩
            have hname := (hnames name).mpr (hwf.directory_of_cons hfile).2
            rw [happend] at hfile
            exact List.mem_flatMap.mpr ⟨name, hname,
              List.mem_map_of_mem ((ih name hname rest).mpr ⟨content, hfile⟩)⟩

/-- and it comes to them in the order of their octets. -/
theorem Visits.pairwise (h : t.Visits place ps) :
    ps.Pairwise fun xs ys => octets xs < octets ys := by
  induction h with
  | missing _ => exact .nil
  | file _ => exact List.pairwise_singleton _ _
  | directory _ hsorted _ _ ih =>
      refine List.pairwise_flatMap.mpr ⟨fun name hname => ?_,
        hsorted.imp fun hlt xs hxs ys hys => ?_⟩
      · refine List.pairwise_map.mpr ((ih name hname).imp fun hlt => ?_)
        exact List.cons_lt_cons_iff.mpr (.inr ⟨rfl, hlt⟩)
      · obtain ⟨xs', -, rfl⟩ := List.mem_map.mp hxs
        obtain ⟨ys', -, rfl⟩ := List.mem_map.mp hys
        exact List.cons_lt_cons_iff.mpr (.inl hlt)

theorem Visits.eq_filesBelow (hwf : t.WellFormed) (h : t.Visits place ps) :
    ps = t.filesBelow place := by
  have hsorted := t.pairwise_octets_filesBelow place
  have hperm : ps.Perm (t.filesBelow place) := by
    have hnodup : ps.Nodup := h.pairwise.imp fun {xs ys} hlt heq => by
      rw [heq] at hlt
      exact List.lt_irrefl _ hlt
    refine (List.perm_ext_iff_of_nodup hnodup (t.nodup_filesBelow place)).mpr fun names => ?_
    rw [h.mem hwf, hwf.mem_filesBelow]
  refine hperm.eq_of_pairwise (fun xs ys _ _ hlt hgt => ?_) h.pairwise hsorted
  exact absurd (List.lt_trans hlt hgt) (List.lt_irrefl _)

/-! ## There is a visit -/

/-- The names of the entries of a directory, in order. -/
theorem exists_names (t : FileTree) (place : Place) : ∃ names : List String,
    names.Pairwise (fun a b => a.toUTF8.data.toList < b.toUTF8.data.toList)
      ∧ ∀ name, name ∈ names ↔ place ++ [name] ∈ t.entries.keys := by
  let found := ((t.entries.keys.filterMap (·.getLast?)).filter
    (place ++ [·] ∈ t.entries.keys)).eraseDups
  refine ⟨found.mergeSort fun a b => decide (a ≤ b), ?_, fun name => ?_⟩
  · have hsorted : (found.mergeSort fun a b => decide (a ≤ b)).Pairwise
        fun a b => decide (a ≤ b) = true :=
      List.pairwise_mergeSort
        (fun a b c hab hbc => by
          simp only [decide_eq_true_eq] at hab hbc ⊢
          exact String.le_trans hab hbc)
        (fun a b => by
          simp only [Bool.or_eq_true, decide_eq_true_eq]
          exact String.le_total a b) found
    have hnodup := (List.mergeSort_perm found fun a b => decide (a ≤ b)).nodup_iff.mpr
      (nodup_eraseDups _)
    -- names that are sorted and do not repeat increase
    refine (hsorted.and hnodup).imp fun ⟨hle, hne⟩ => octets_lt ?_
    exact String.not_le.mp fun h => hne (String.le_antisymm (of_decide_eq_true hle) h)
  · rw [List.mem_mergeSort, List.mem_eraseDups, List.mem_filter, List.mem_filterMap]
    constructor
    · exact fun h => of_decide_eq_true h.2
    · exact fun h => ⟨⟨_, h, List.getLast?_concat⟩, decide_eq_true h⟩

theorem exists_visits_of_children (hwf : t.WellFormed)
    (h : ∀ name, place ++ [name] ∈ t.entries.keys → ∃ ps, t.Visits (place ++ [name]) ps) :
    ∃ ps, t.Visits place ps := by
  cases hentry : t.entry? place with
  | none => exact ⟨_, .missing hentry⟩
  | some e =>
      cases e with
      | file content => exact ⟨_, .file hentry⟩
      | directory =>
          obtain ⟨names, hsorted, hnames⟩ := exists_names t place
          have hbelow : ∀ name ∈ names,
              t.Visits (place ++ [name]) (t.filesBelow (place ++ [name])) := by
            intro name hname
            obtain ⟨ps, hps⟩ := h name ((hnames name).mp hname)
            exact hps.eq_filesBelow hwf ▸ hps
          exact ⟨_, .directory hentry hsorted hnames hbelow⟩

/-- A tree has no entry deeper than the names of all of them together are many. -/
theorem exists_visits (hwf : t.WellFormed) (place : Place) : ∃ ps, t.Visits place ps := by
  have hbound : ∀ key ∈ t.entries.keys,
      key.length < place.length + (t.entries.keys.flatten.length + 1) := fun key hkey => by
    have hlength := (List.sublist_flatten_of_mem hkey).length_le
    omega
  generalize t.entries.keys.flatten.length + 1 = n at hbound
  induction n generalizing place with
  | zero =>
      refine exists_visits_of_children hwf fun name hmem => ?_
      have hlength := hbound _ hmem
      rw [List.length_append, List.length_singleton] at hlength
      omega
  | succ n ih =>
      refine exists_visits_of_children hwf fun name _ => ih _ fun key hkey => ?_
      have hlength := hbound key hkey
      rw [List.length_append, List.length_singleton]
      omega

/-- From each place there is one visit, and it comes to the files below it in the order of
a walk. -/
theorem visits_iff (hwf : t.WellFormed) : t.Visits place ps ↔ ps = t.filesBelow place := by
  refine ⟨fun h => h.eq_filesBelow hwf, ?_⟩
  rintro rfl
  obtain ⟨ps, h⟩ := exists_visits hwf place
  exact h.eq_filesBelow hwf ▸ h

end SimAnnotate.FileTree
