import Mathlib.Data.List.Sort
import SimAnnotate.FileTree

/-!
# The order of a walk

A walk visits the files below a place in a total order, so trees with the same
files there are walked in the same way, whatever the order of their entries.
-/

namespace SimAnnotate.FileTree

/-! ## The order -/

theorem inWalkOrder_total (xs ys : Place) :
    inWalkOrder xs ys = true ∨ inWalkOrder ys xs = true := by
  induction xs generalizing ys with
  | nil => exact .inl rfl
  | cons a as ih =>
      cases ys with
      | nil => exact .inr rfl
      | cons b bs =>
          by_cases hab : a = b
          · subst hab
            simpa [inWalkOrder] using ih bs
          · simp only [inWalkOrder, if_neg hab, if_neg (Ne.symm hab), decide_eq_true_eq]
            rcases String.le_total a b with h | h
            · exact .inl (String.not_le.mp fun h' => hab (String.le_antisymm h h'))
            · exact .inr (String.not_le.mp fun h' => hab (String.le_antisymm h' h))

theorem inWalkOrder_trans {xs ys zs : Place} (h : inWalkOrder xs ys = true)
    (h' : inWalkOrder ys zs = true) : inWalkOrder xs zs = true := by
  induction xs generalizing ys zs with
  | nil => rfl
  | cons a as ih =>
      cases ys with
      | nil => cases h
      | cons b bs =>
          cases zs with
          | nil => cases h'
          | cons c cs =>
              simp only [inWalkOrder] at h h' ⊢
              -- the first names that differ decide
              by_cases hab : a = b
              · subst hab
                rw [if_pos rfl] at h
                by_cases hac : a = c
                · subst hac
                  rw [if_pos rfl] at h' ⊢
                  exact ih h h'
                · rwa [if_neg hac] at h' ⊢
              · rw [if_neg hab, decide_eq_true_eq] at h
                by_cases hbc : b = c
                · subst hbc
                  rw [if_neg hab, decide_eq_true_eq]
                  exact h
                · rw [if_neg hbc, decide_eq_true_eq] at h'
                  have hac : a ≠ c := by
                    intro heq
                    subst heq
                    exact String.lt_irrefl a (String.lt_trans h h')
                  rw [if_neg hac, decide_eq_true_eq]
                  exact String.lt_trans h h'

theorem inWalkOrder_antisymm {xs ys : Place} (h : inWalkOrder xs ys = true)
    (h' : inWalkOrder ys xs = true) : xs = ys := by
  induction xs generalizing ys with
  | nil =>
      cases ys with
      | nil => rfl
      | cons b bs => cases h'
  | cons a as ih =>
      cases ys with
      | nil => cases h
      | cons b bs =>
          simp only [inWalkOrder] at h h'
          by_cases hab : a = b
          · subst hab
            rw [if_pos rfl] at h h'
            rw [ih h h']
          · rw [if_neg hab, decide_eq_true_eq] at h
            rw [if_neg (Ne.symm hab), decide_eq_true_eq] at h'
            exact absurd (String.lt_trans h h') (String.lt_irrefl a)

/-- Whether one place comes before another one or is it. -/
def WalkOrder (xs ys : Place) : Prop := inWalkOrder xs ys = true

instance : DecidableRel WalkOrder := fun xs ys =>
  inferInstanceAs (Decidable (inWalkOrder xs ys = true))

instance : Std.Total WalkOrder := ⟨inWalkOrder_total⟩

instance : IsTrans Place WalkOrder := ⟨fun _ _ _ => inWalkOrder_trans⟩

instance : Std.Antisymm WalkOrder := ⟨fun _ _ => inWalkOrder_antisymm⟩

/-! ## The files below a place -/

theorem insertInWalkOrder_eq (names : Place) (ps : List Place) :
    insertInWalkOrder names ps = ps.orderedInsert WalkOrder names := by
  induction ps with
  | nil => rfl
  | cons p rest ih =>
      rw [insertInWalkOrder, List.orderedInsert, ih]
      rfl

theorem filesBelow_eq (t : FileTree) (place : Place) :
    t.filesBelow place
      = (t.entries.entries.filterMap (fileBelow? place)).insertionSort WalkOrder := by
  rw [filesBelow, List.insertionSort]
  congr 1
  funext names ps
  exact insertInWalkOrder_eq names ps

theorem below?_eq_some {place q names : Place} :
    below? place q = some names ↔ q = place ++ names := by
  induction place generalizing q with
  | nil => simp [below?, eq_comm]
  | cons a as ih =>
      cases q with
      | nil => simp [below?]
      | cons b bs =>
          rw [below?]
          by_cases hab : a = b
          · subst hab
            simp [ih]
          · simp [hab, Ne.symm hab]

theorem fileBelow?_eq_some {place names : Place} {e : Place × FileEntry} :
    fileBelow? place e = some names ↔
      e.1 = place ++ names ∧ ∃ content, e.2 = .file content := by
  obtain ⟨q, entry⟩ := e
  cases entry with
  | directory => simp [fileBelow?]
  | file content => simp [fileBelow?, below?_eq_some]

theorem mem_filesBelow {t : FileTree} {place names : Place} :
    names ∈ t.filesBelow place ↔
      ∃ content, t.entries.get? (place ++ names) = some (.file content) := by
  rw [filesBelow_eq, List.mem_insertionSort, List.mem_filterMap]
  constructor
  · rintro ⟨⟨q, e⟩, hmem, hq⟩
    obtain ⟨rfl, content, rfl⟩ := fileBelow?_eq_some.mp hq
    exact ⟨content, OrderedMap.mem_entries_iff.mp hmem⟩
  · rintro ⟨content, h⟩
    exact ⟨_, OrderedMap.mem_entries_iff.mpr h, fileBelow?_eq_some.mpr ⟨rfl, content, rfl⟩⟩

theorem pairwise_filesBelow (t : FileTree) (place : Place) :
    (t.filesBelow place).Pairwise WalkOrder := by
  rw [filesBelow_eq]
  exact List.pairwise_insertionSort WalkOrder _

theorem nodup_filesBelow (t : FileTree) (place : Place) :
    (t.filesBelow place).Nodup := by
  rw [filesBelow_eq, (List.perm_insertionSort _ _).nodup_iff]
  have hkeys : t.entries.entries.Pairwise fun e e' => e.1 ≠ e'.1 :=
    List.pairwise_map.mp t.entries.nodup
  refine hkeys.filterMap _ fun e e' hne names hnames names' hnames' heq => hne ?_
  rw [(fileBelow?_eq_some.mp hnames).1, (fileBelow?_eq_some.mp hnames').1, heq]

/-- Trees with the same files below a place, as far as they count, are walked in
the same way there. -/
theorem filter_filesBelow_congr {t t' : FileTree} {place : Place} {keep : Place → Bool}
    (h : ∀ names, keep names = true →
      (names ∈ t.filesBelow place ↔ names ∈ t'.filesBelow place)) :
    (t.filesBelow place).filter keep = (t'.filesBelow place).filter keep := by
  have hmem : ∀ names, names ∈ (t.filesBelow place).filter keep ↔
      names ∈ (t'.filesBelow place).filter keep := by
    intro names
    rw [List.mem_filter, List.mem_filter]
    exact ⟨fun hn => ⟨(h names hn.2).mp hn.1, hn.2⟩,
      fun hn => ⟨(h names hn.2).mpr hn.1, hn.2⟩⟩
  have hperm : ((t.filesBelow place).filter keep).Perm
      ((t'.filesBelow place).filter keep) :=
    (List.perm_ext_iff_of_nodup ((t.nodup_filesBelow place).filter _)
      ((t'.nodup_filesBelow place).filter _)).mpr hmem
  exact hperm.eq_of_pairwise' ((t.pairwise_filesBelow place).filter _)
    ((t'.pairwise_filesBelow place).filter _)

end SimAnnotate.FileTree
