import SimAnnotate.Proofs.Path

/-!
# Relative paths

A path that names lead to is left, below the path that they start from, as these
names with slashes between them (`below?_descend`). Joining that text to the path
again leads to the same parts (`parts_join_intercalate`).
-/

namespace SimAnnotate.Path

/-! ## Names with slashes between them -/

theorem toList_intercalate_cons (name : String) (rest : List String) :
    ∃ more, ("/".intercalate (name :: rest)).toList = name.toList ++ more := by
  cases rest with
  | nil => exact ⟨[], by simp⟩
  | cons next rest => exact ⟨'/' :: ("/".intercalate (next :: rest)).toList, by simp⟩

theorem isAbsolute_intercalate {names : List String}
    (hnames : ∀ name ∈ names, isName name = true) :
    (Path.mk ("/".intercalate names)).isAbsolute = false := by
  cases names with
  | nil => rfl
  | cons name rest =>
      have hname := hnames name List.mem_cons_self
      obtain ⟨more, hmore⟩ := toList_intercalate_cons name rest
      obtain ⟨c, cs, hcs⟩ := List.exists_cons_of_ne_nil (toList_ne_nil_of_isName hname)
      have hrelative := isAbsolute_of_isName hname
      rw [isAbsolute, hcs] at hrelative
      rw [isAbsolute, hmore, hcs]
      exact hrelative

theorem segments_intercalate {names : List String} (hne : names ≠ [])
    (hnames : ∀ name ∈ names, isName name = true) :
    (Path.mk ("/".intercalate names)).segments = names.map String.toList := by
  induction names with
  | nil => exact absurd rfl hne
  | cons name rest ih =>
      have hname := hnames name List.mem_cons_self
      cases rest with
      | nil =>
          rw [String.intercalate_singleton]
          exact segments_of_isName hname
      | cons next rest =>
          have hrest := ih (List.cons_ne_nil next rest) fun n hn =>
            hnames n (List.mem_cons_of_mem _ hn)
          -- the slash behind the first name begins the segments of the others
          have htext : ("/".intercalate (name :: next :: rest)).toList
              = name.toList ++ '/' :: ("/".intercalate (next :: rest)).toList := by simp
          rw [segments] at hrest ⊢
          rw [htext, splitSlashes_append_slash, hrest,
            splitSlashes_of_not_mem (not_mem_of_isName hname)]
          rfl

/-! ## Joining them at once -/

/-- A name and what follows it can be joined in two steps. -/
theorem join_join (p : Path) {name text : String} (hname : isName name = true)
    (htext : (Path.mk text).isAbsolute = false) :
    (p.join name).join text = p.join (name ++ "/" ++ text) := by
  have hne := toList_ne_nil_of_isName hname
  have hrelative := isAbsolute_of_isName hname
  have hboth : (Path.mk (name ++ "/" ++ text)).isAbsolute = false := by
    rw [isAbsolute, String.append_assoc, String.toList_append, List.head?_append_of_ne_nil _ hne]
    exact hrelative
  -- a name does not end with a slash, so one is written behind it
  have hsep : ((p.join name).text.toList.isEmpty
      || (p.join name).text.toList.getLast? == some '/') = false := by
    have hslash : name.toList.getLast? ≠ some '/' := fun h =>
      not_mem_of_isName hname (List.mem_of_getLast? h)
    rw [toList_join hrelative, List.getLast?_append_of_ne_nil _ hne, List.isEmpty_eq_false_iff.mpr
      (List.append_ne_nil_of_right_ne_nil _ hne), Bool.false_or, beq_eq_false_iff_ne]
    exact hslash
  have hlist : ((p.join name).join text).text.toList
      = (p.join (name ++ "/" ++ text)).text.toList := by
    rw [toList_join htext, hsep, toList_join hboth, toList_join hrelative]
    simp
  exact congrArg Path.mk (String.toList_inj.mp hlist)

/-- Names can be joined one after the other or at once. -/
theorem join_intercalate {root : Path} {names : List String} (hne : names ≠ [])
    (hnames : ∀ name ∈ names, isName name = true) :
    root.join ("/".intercalate names) = root.descend names := by
  induction names generalizing root with
  | nil => exact absurd rfl hne
  | cons name rest ih =>
      have hname := hnames name List.mem_cons_self
      have hrest : ∀ n ∈ rest, isName n = true := fun n hn =>
        hnames n (List.mem_cons_of_mem _ hn)
      cases rest with
      | nil =>
          rw [String.intercalate_singleton]
          rfl
      | cons next rest =>
          calc root.join ("/".intercalate (name :: next :: rest))
              = (root.join name).join ("/".intercalate (next :: rest)) := by
                rw [join_join root hname (isAbsolute_intercalate hrest),
                  String.intercalate_cons_cons]
            _ = (root.join name).descend (next :: rest) := ih (List.cons_ne_nil next rest) hrest
            _ = root.descend (name :: next :: rest) := rfl

section

variable {root : Path} (hroot : root.text ≠ "") {names : List String}
  (hnames : ∀ name ∈ names, isName name = true)

include hroot hnames

theorem text_descend_ne : (root.descend names).text ≠ "" := by
  induction names generalizing root with
  | nil => exact hroot
  | cons name rest ih =>
      exact ih (text_join_ne root (hnames name List.mem_cons_self)) fun n hn =>
        hnames n (List.mem_cons_of_mem _ hn)

/-- What is left below a path leads back to the same parts. -/
theorem parts_join_intercalate :
    (root.join ("/".intercalate names)).parts = (root.descend names).parts := by
  by_cases hne : names = []
  · -- nothing is left, and joining that adds no part
    subst hne
    rw [parts_join_text hroot (isAbsolute_intercalate hnames)]
    exact List.append_nil _
  · rw [join_intercalate hne hnames]

/-- The segments of the names stand behind those of the path; where the last of these
is empty the first name fills it. -/
theorem segments_descend :
    ∃ front, (root.segments = front ∨ root.segments = front ++ [[]])
      ∧ (root.descend names).segments = front ++ names.map String.toList := by
  by_cases hne : names = []
  · subst hne
    exact ⟨root.segments, .inl rfl, (List.append_nil _).symm⟩
  · rw [← join_intercalate hne hnames, ← segments_intercalate hne hnames]
    rcases segments_join_text (isAbsolute_intercalate hnames) hroot with
      ⟨front, -, hold, hnew⟩ | hnew
    · exact ⟨front, .inr hold, hnew⟩
    · exact ⟨root.segments, .inl rfl, hnew⟩

end

/-! ## What is left below a path -/

theorem isIdle_of_isName {s : String} (h : isName s = true) : isIdle s.toList = false := by
  have hpart := innerPart?_of_isName h
  by_contra hidle
  rw [Bool.not_eq_false] at hidle
  rw [innerPart?, if_pos hidle] at hpart
  cases hpart

theorem innerPart?_eq_none_iff {s : List Char} : innerPart? s = none ↔ isIdle s = true := by
  unfold innerPart?
  by_cases hidle : isIdle s = true
  · simp [hidle]
  · rw [if_neg hidle]
    split <;> simp [hidle]

/-- Where parts of some segments are taken away, idle ones of them stay at most. -/
theorem dropParts?_append (segs tail : List (List Char)) :
    ∃ idle, (∀ s ∈ idle, isIdle s = true)
      ∧ dropParts? (segs.filterMap innerPart?) (segs ++ tail) = some (idle ++ tail) := by
  induction segs with
  | nil => exact ⟨[], nofun, by rw [List.filterMap_nil, dropParts?]⟩
  | cons s rest ih =>
      obtain ⟨idle, hidle, hdrop⟩ := ih
      cases hs : innerPart? s with
      | some part =>
          refine ⟨idle, hidle, ?_⟩
          rw [List.filterMap_cons_some hs, List.cons_append, dropParts?, hs]
          simp [hdrop]
      | none =>
          rw [List.filterMap_cons_none hs, List.cons_append]
          cases hparts : rest.filterMap innerPart? with
          | cons b bs =>
              refine ⟨idle, hidle, ?_⟩
              rw [dropParts?, hs, ← hparts]
              exact hdrop
          | nil =>
              -- no part is wanted, so all segments stay
              refine ⟨s :: rest, ?_, by rw [dropParts?, List.cons_append]⟩
              intro r hr
              rcases List.mem_cons.mp hr with rfl | hr
              · exact innerPart?_eq_none_iff.mp hs
              · exact innerPart?_eq_none_iff.mp (List.filterMap_eq_nil_iff.mp hparts r hr)

theorem dropWhile_isIdle {segs : List (List Char)} (h : ∀ s ∈ segs, isIdle s = false) :
    segs.dropWhile isIdle = segs := by
  cases segs with
  | nil => rfl
  | cons s rest => simp [h s List.mem_cons_self]

theorem trimEnd_of_not_idle {segs : List (List Char)} (h : ∀ s ∈ segs, isIdle s = false) :
    trimEnd segs = segs := by
  rw [trimEnd, dropWhile_isIdle, List.reverse_reverse]
  intro s hs
  exact h s (List.mem_reverse.mp hs)

/-- The text of segments that are names. -/
theorem ofSegments_names (names : List String) :
    ofSegments (names.map String.toList) = "/".intercalate names := by
  rw [ofSegments, ← String.toList_inj, String.toList_ofList, String.toList_intercalate]
  rfl

/-- The first segment always stands for a part. -/
theorem exists_firstPart (first : List Char) : ∃ part, firstPart? first = some part := by
  unfold firstPart?
  split
  · exact ⟨.root, rfl⟩
  · next hempty =>
      split
      · exact ⟨.here, rfl⟩
      · next hdot =>
          refine Option.ne_none_iff_exists'.mp fun hnone => ?_
          have hidle := innerPart?_eq_none_iff.mp hnone
          rw [isIdle, Bool.or_eq_true, beq_iff_eq] at hidle
          exact hidle.elim hempty hdot

/-- Below the path that they start from, names are left with slashes between them. -/
theorem below?_descend {root : Path} (hroot : root.text ≠ "") {names : List String}
    (hnames : ∀ name ∈ names, isName name = true) :
    (root.descend names).below? root = some ("/".intercalate names) := by
  have hidle : ∀ s ∈ names.map String.toList, isIdle s = false := by
    intro s hs
    obtain ⟨name, hname, rfl⟩ := List.mem_map.mp hs
    exact isIdle_of_isName (hnames name hname)
  obtain ⟨front, hfront, hsegments⟩ := segments_descend hroot hnames
  cases front with
  | nil =>
      -- only an empty text has no other segment than an empty one
      exfalso
      rcases hfront with h | h
      · exact splitSlashes_ne_nil _ h
      · exact hroot (String.toList_eq_nil_iff.mp (splitSlashes_eq_single h).symm)
  | cons first segs =>
      obtain ⟨part, hpart⟩ := exists_firstPart first
      have hparts : root.parts = part :: segs.filterMap innerPart? := by
        rcases hfront with h | h
        · rw [parts_of_segments hroot h, hpart]
          rfl
        · rw [parts_of_segments hroot h, hpart]
          simp [show innerPart? [] = none from rfl]
      obtain ⟨idle, hall, hdrop⟩ := dropParts?_append segs (names.map String.toList)
      have hleft : trimEnd ((idle ++ names.map String.toList).dropWhile isIdle)
          = names.map String.toList := by
        rw [List.dropWhile_append_of_pos hall, dropWhile_isIdle hidle, trimEnd_of_not_idle hidle]
      unfold below?
      rw [hparts, hsegments]
      dsimp only
      split
      · next heq =>
          rw [heq] at hsegments
          have hempty := splitSlashes_eq_single hsegments
          exact absurd (String.toList_eq_nil_iff.mp hempty.symm) (text_descend_ne hroot hnames)
      · next heq =>
          cases heq
          rw [hpart]
          simp [hdrop, hleft, ofSegments_names]
      · next heq => cases heq

example : ((Path.mk "./").descend ["data", "a.yaml"]).below? ⟨"./"⟩
    = some "data/a.yaml" := by decide

end SimAnnotate.Path
