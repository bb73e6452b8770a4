import Mathlib.Data.List.Basic
import SimAnnotate.Path

/-!
# Paths below a path

Joining a text that is not absolute to a path adds its segments and their parts
(`parts_join_text`), and joining a name adds one of each. So paths that come from one
path by joining names have the same parts only when the names agree.
-/

namespace SimAnnotate.Path

/-! ## Segments -/

theorem splitSlashes_ne_nil (cs : List Char) : splitSlashes cs ≠ [] := by
  cases cs with
  | nil => simp [splitSlashes]
  | cons c rest =>
      rw [splitSlashes]
      split
      · simp
      · split <;> simp

theorem splitSlashes_append_slash (xs ys : List Char) :
    splitSlashes (xs ++ '/' :: ys) = splitSlashes xs ++ splitSlashes ys := by
  induction xs with
  | nil => simp [splitSlashes]
  | cons c rest ih =>
      by_cases hc : c = '/'
      · simp [splitSlashes, hc, ih]
      · rw [List.cons_append, splitSlashes, splitSlashes, if_neg hc, if_neg hc, ih]
        cases hrest : splitSlashes rest with
        | nil => exact absurd hrest (splitSlashes_ne_nil rest)
        | cons s ss => rfl

theorem splitSlashes_of_not_mem {cs : List Char} (h : '/' ∉ cs) :
    splitSlashes cs = [cs] := by
  induction cs with
  | nil => rfl
  | cons c rest ih =>
      rw [List.mem_cons, not_or] at h
      rw [splitSlashes, if_neg (Ne.symm h.1), ih h.2]

theorem splitSlashes_eq_single {cs s : List Char} (h : splitSlashes cs = [s]) :
    s = cs := by
  induction cs generalizing s with
  | nil =>
      rw [splitSlashes] at h
      cases h
      rfl
  | cons c rest ih =>
      rw [splitSlashes] at h
      split at h
      · exact absurd (List.cons.inj h).2 (splitSlashes_ne_nil rest)
      · split at h
        · next s' ss hrest =>
            simp only [List.cons.injEq] at h
            obtain ⟨rfl, rfl⟩ := h
            rw [ih hrest]
        · next hrest => exact absurd hrest (splitSlashes_ne_nil rest)

theorem not_mem_of_mem_splitSlashes {cs s : List Char} (h : s ∈ splitSlashes cs) :
    '/' ∉ s := by
  induction cs generalizing s with
  | nil =>
      cases List.mem_singleton.mp h
      exact List.not_mem_nil
  | cons c rest ih =>
      rw [splitSlashes] at h
      split at h
      · rcases List.mem_cons.mp h with rfl | h
        · exact List.not_mem_nil
        · exact ih h
      · next hc =>
          split at h
          · -- the character goes to the front of the first segment
            next first others hrest =>
              rw [hrest] at ih
              rcases List.mem_cons.mp h with rfl | h
              · rw [List.mem_cons, not_or]
                exact ⟨Ne.symm hc, ih List.mem_cons_self⟩
              · exact ih (List.mem_cons_of_mem _ h)
          · next hrest => exact absurd hrest (splitSlashes_ne_nil rest)

/-! ## Names -/

/-- Whether a text stands for one name of a directory's entry. -/
def isName (s : String) : Bool :=
  !s.toList.contains '/' && innerPart? s.toList == some (.name s)

section

variable {s : String} (h : isName s = true)

include h

theorem not_mem_of_isName : '/' ∉ s.toList := by
  simp only [isName, Bool.and_eq_true, Bool.not_eq_true', List.contains_eq_mem,
    decide_eq_false_iff_not] at h
  exact h.1

theorem innerPart?_of_isName : innerPart? s.toList = some (.name s) := by
  simp only [isName, Bool.and_eq_true, beq_iff_eq] at h
  exact h.2

theorem toList_ne_nil_of_isName : s.toList ≠ [] := by
  intro hs
  have hpart := innerPart?_of_isName h
  rw [hs] at hpart
  cases hpart

end

/-- What a segment stands for, if it is neither a dot nor two, is a name. -/
theorem isName_of_innerPart? {segment : List Char} {name : String} (hslash : '/' ∉ segment)
    (h : innerPart? segment = some (.name name)) : isName name = true := by
  have hname : name = String.ofList segment := by
    unfold innerPart? at h
    split at h
    · cases h
    · split at h
      · cases h
      · cases h
        rfl
  subst hname
  simp only [isName, String.toList_ofList, h, List.contains_eq_mem, hslash, decide_false,
    Bool.not_false, beq_self_eq_true, Bool.and_self]

/-! ## Joining a text -/

section

variable {text : String} (htext : (Path.mk text).isAbsolute = false)

include htext

/-- The text of a path with another text behind it, which is not absolute. -/
theorem toList_join (p : Path) : (p.join text).text.toList
    = p.text.toList
      ++ (if p.text.toList.isEmpty || p.text.toList.getLast? == some '/' then [] else ['/'])
      ++ text.toList := by
  unfold join
  rw [htext, if_neg Bool.false_ne_true]
  dsimp only
  split <;> simp [String.toList_append]

/-- The joined segments go behind those of the path; where the last of these is
empty the first one fills it. -/
theorem segments_join_text {p : Path} (hp : p.text ≠ "") :
    (∃ front, front ≠ [] ∧ p.segments = front ++ [[]]
      ∧ (p.join text).segments = front ++ (Path.mk text).segments)
      ∨ (p.join text).segments = p.segments ++ (Path.mk text).segments := by
  have hne : p.text.toList ≠ [] := fun h => hp (String.toList_eq_nil_iff.mp h)
  rw [segments, segments, segments, toList_join htext p]
  -- after a slash the last segment is empty, and the text takes its place
  by_cases hlast : p.text.toList.getLast? = some '/'
  · obtain ⟨cs, hcs⟩ := List.getLast?_eq_some_iff.mp hlast
    refine .inl ⟨splitSlashes cs, splitSlashes_ne_nil cs, ?_, ?_⟩
    · rw [hcs, splitSlashes_append_slash]
      rfl
    · rw [hlast, hcs]
      simp [splitSlashes_append_slash]
  · right
    have hsep : (p.text.toList.isEmpty || p.text.toList.getLast? == some '/') = false := by
      simp [hne, hlast]
    rw [hsep, if_neg Bool.false_ne_true, List.append_assoc, List.singleton_append,
      splitSlashes_append_slash]

theorem isAbsolute_join_text {p : Path} (hp : p.text ≠ "") :
    (p.join text).isAbsolute = p.isAbsolute := by
  have hne : p.text.toList ≠ [] := fun h => hp (String.toList_eq_nil_iff.mp h)
  rw [isAbsolute, isAbsolute, toList_join htext p]
  cases hcs : p.text.toList with
  | nil => exact absurd hcs hne
  | cons c rest => simp

end

/-! ## Joining a name -/

theorem isAbsolute_of_isName {name : String} (h : isName name = true) :
    (Path.mk name).isAbsolute = false := by
  have hslash := not_mem_of_isName h
  rw [isAbsolute]
  cases hcs : name.toList with
  | nil => rfl
  | cons c rest =>
      rw [hcs, List.mem_cons, not_or] at hslash
      simpa using Ne.symm hslash.1

theorem segments_of_isName {name : String} (h : isName name = true) :
    (Path.mk name).segments = [name.toList] :=
  splitSlashes_of_not_mem (not_mem_of_isName h)

/-- A joined name is a segment of its own; it fills a last one that is
empty. -/
theorem segments_join {p : Path} (hp : p.text ≠ "") {name : String}
    (hname : isName name = true) :
    (∃ front, front ≠ [] ∧ p.segments = front ++ [[]]
      ∧ (p.join name).segments = front ++ [name.toList])
      ∨ (p.join name).segments = p.segments ++ [name.toList] := by
  have h := segments_join_text (isAbsolute_of_isName hname) hp
  rwa [segments_of_isName hname] at h

theorem isAbsolute_join {p : Path} (hp : p.text ≠ "") {name : String}
    (hname : isName name = true) : (p.join name).isAbsolute = p.isAbsolute :=
  isAbsolute_join_text (isAbsolute_of_isName hname) hp

theorem text_join_ne (p : Path) {name : String} (hname : isName name = true) :
    (p.join name).text ≠ "" := by
  intro h
  have hlist := toList_join (isAbsolute_of_isName hname) p
  rw [h] at hlist
  have hname := toList_ne_nil_of_isName hname
  simp at hlist
  exact hname (by simp [hlist])

/-- The parts of a path with a text, segment by segment. -/
theorem parts_of_segments {p : Path} (hp : p.text ≠ "") {first : List Char}
    {rest : List (List Char)} (h : p.segments = first :: rest) :
    p.parts = (firstPart? first).toList ++ rest.filterMap innerPart? := by
  unfold parts
  rw [h]
  split
  · next hsingle =>
      have hcs := splitSlashes_eq_single (h.trans hsingle)
      exact absurd (String.toList_eq_nil_iff.mp hcs.symm) hp
  · next heq =>
      cases heq
      rfl
  · next heq => cases heq

/-- An absolute path begins with an empty segment. -/
theorem isAbsolute_iff {p : Path} (hp : p.text ≠ "") {first : List Char}
    {rest : List (List Char)} (h : p.segments = first :: rest) :
    p.isAbsolute = true ↔ first = [] := by
  unfold isAbsolute
  unfold segments at h
  cases hcs : p.text.toList with
  | nil => exact absurd (String.toList_eq_nil_iff.mp hcs) hp
  | cons c tail =>
      rw [hcs, splitSlashes] at h
      split at h
      · next hc =>
          cases h
          simp [hc]
      · next hc => split at h <;> cases h <;> simp [hc]

/-- The joined parts go behind those of the path. -/
theorem parts_join_text {p : Path} (hp : p.text ≠ "") {text : String}
    (htext : (Path.mk text).isAbsolute = false) :
    (p.join text).parts = p.parts ++ (Path.mk text).segments.filterMap innerPart? := by
  have hjoin : (p.join text).text ≠ "" := by
    intro h
    have hlist := toList_join htext p
    rw [h] at hlist
    simp at hlist
    exact hp hlist.1
  rcases segments_join_text htext hp with ⟨front, hfront, hold, hnew⟩ | hnew
  · -- the path ends with a slash, whose empty segment is no part
    obtain ⟨first, rest, rfl⟩ := List.exists_cons_of_ne_nil hfront
    rw [parts_of_segments hp hold, parts_of_segments hjoin hnew]
    simp [show innerPart? [] = none from rfl]
  · obtain ⟨first, rest, hold⟩ := List.exists_cons_of_ne_nil
      (splitSlashes_ne_nil p.text.toList)
    have hold : p.segments = first :: rest := hold
    rw [hold] at hnew
    rw [parts_of_segments hp hold, parts_of_segments hjoin hnew]
    simp

theorem parts_join {p : Path} (hp : p.text ≠ "") {name : String}
    (hname : isName name = true) : (p.join name).parts = p.parts ++ [.name name] := by
  rw [parts_join_text hp (isAbsolute_of_isName hname), segments_of_isName hname,
    List.filterMap_cons_some (innerPart?_of_isName hname), List.filterMap_nil]

/-! ## Joining names -/

section

variable {root : Path} (hroot : root.text ≠ "") {names : List String}
  (hnames : ∀ name ∈ names, isName name = true)

include hroot hnames

theorem parts_descend :
    (root.descend names).parts = root.parts ++ names.map Part.name := by
  induction names generalizing root with
  | nil => simp [descend]
  | cons name rest ih =>
      have hname := hnames name List.mem_cons_self
      have hrest := ih (text_join_ne root hname) fun n hn =>
        hnames n (List.mem_cons_of_mem _ hn)
      rw [descend, List.foldl_cons, ← descend, hrest, parts_join hroot hname]
      simp

end

/-- Names below one path are told apart by the parts. -/
theorem descend_inj {root : Path} (hroot : root.text ≠ "") {names names' : List String}
    (hnames : ∀ name ∈ names, isName name = true)
    (hnames' : ∀ name ∈ names', isName name = true)
    (h : (root.descend names).parts = (root.descend names').parts) :
    names = names' := by
  rw [parts_descend hroot hnames, parts_descend hroot hnames',
    List.append_cancel_left_eq] at h
  exact List.map_injective_iff.mpr (fun _ _ h => Part.name.inj h) h

end SimAnnotate.Path
