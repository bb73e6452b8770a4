import SimAnnotate.Proofs.FileTree.Locate

/-!
# Where a path leads

A path leads to a place, whether anything is there or not: every name goes one place
down, every pair of dots one up. Following a path through a tree can fail, but comes to
this place if it comes to any (`destination_of_locate`), so paths with the same parts
never come to different ones.
-/

namespace SimAnnotate.FileTree

/-- One part further. -/
def further (place : Place) : Path.Part → Place
  | .root => []
  | .here => place
  | .up => place.dropLast
  | .name s => place ++ [s]

/-- The place that a path leads to. -/
def destination (t : FileTree) (p : Path) : Place := p.parts.foldl further t.home

variable {t : FileTree}

theorem destination_congr {p p' : Path} (h : p.parts = p'.parts) :
    t.destination p = t.destination p' := by
  rw [destination, destination, h]

theorem further_of_enter {place q : Place} {segment : List Char}
    (h : t.enter place segment = .ok q) :
    q = (Path.innerPart? segment).toList.foldl further place := by
  have hdir := entry?_of_enter h
  unfold enter at h
  rw [hdir] at h
  dsimp only at h
  split at h
  · next s hs =>
      split at h
      · cases h
      · cases h
        rw [hs]
        rfl
  · next hs =>
      cases h
      rw [hs]
      rfl
  · next hname hup =>
      cases h
      -- inside a path there is neither a root nor a dot in front
      unfold Path.innerPart? at hname hup ⊢
      split
      · rfl
      · next hidle =>
          rw [if_neg hidle] at hname hup
          split
          · next hdots => exact absurd (if_pos hdots) hup
          · next hdots => exact absurd (if_neg hdots) (hname _)

theorem further_of_foldlM {place q : Place} {segments : List (List Char)}
    (h : segments.foldlM t.enter place = .ok q) :
    q = (segments.filterMap Path.innerPart?).foldl further place := by
  induction segments generalizing place with
  | nil =>
      cases h
      rfl
  | cons s rest ih =>
      rw [List.foldlM_cons] at h
      obtain ⟨r, hr, h⟩ := Except.bind_eq_ok.mp h
      rw [ih h, further_of_enter hr, List.filterMap_cons]
      cases Path.innerPart? s <;> rfl

/-- A path that can be followed leads where it leads to. -/
theorem destination_of_locate {p : Path} {q : Place} (h : t.locate p = .ok q) :
    q = t.destination p := by
  have htext := text_ne_of_locate h
  have hway := further_of_foldlM (locate_eq_ok.mp h).2
  rw [hway, destination, origin]
  cases hsegments : p.segments with
  | nil => exact absurd hsegments (Path.splitSlashes_ne_nil _)
  | cons first rest =>
      have habsolute := Path.isAbsolute_iff htext hsegments
      have hsplit : (first :: rest).filterMap Path.innerPart?
          = (Path.innerPart? first).toList ++ rest.filterMap Path.innerPart? := by
        rw [List.filterMap_cons]
        cases Path.innerPart? first <;> rfl
      rw [Path.parts_of_segments htext hsegments, hsplit, List.foldl_append,
        List.foldl_append]
      congr 1
      -- the first segment alone may stand for the root or for a dot
      by_cases hroot : first = []
      · rw [if_pos (habsolute.mpr hroot), hroot]
        rfl
      · rw [if_neg fun h => hroot (habsolute.mp h), Path.firstPart?,
          if_neg (by simpa using hroot)]
        split
        · next hdot =>
            rw [hdot]
            rfl
        · rfl

end SimAnnotate.FileTree
