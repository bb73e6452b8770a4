import Mathlib.Data.List.Induction
import SimAnnotate.Proofs.Except
import SimAnnotate.Proofs.FileTree.Walk
import SimAnnotate.Proofs.Path

/-!
# Following paths in a tree that changes

Following a path looks at directories only. So a path that leads to a place does
so in every tree that has the directories of the first, `FileTree.Extends`, and
what can be read there depends on the entry at the place alone.

Paths that come from one root by joining names lead to the places below the
place of the root that have these names (`locate_descend`).
-/

namespace SimAnnotate.FileTree

/-! ## Entries after a change -/

theorem entry?_nil (t : FileTree) : t.entry? [] = some .directory := rfl

theorem ne_root_of_entry?_eq_none {t : FileTree} {place : Place}
    (h : t.entry? place = none) : place ≠ [] := by
  intro heq
  rw [heq, entry?_nil] at h
  cases h

theorem entry?_of_ne {place : Place} (h : place ≠ []) (t : FileTree) :
    t.entry? place = t.entries.get? place := by
  unfold entry?
  rw [if_neg h]

theorem mem_keys_of_entry {t : FileTree} {q : Place} {e : FileEntry} (hq : q ≠ [])
    (h : t.entry? q = some e) : q ∈ t.entries.keys := by
  rw [entry?_of_ne hq] at h
  rw [← OrderedMap.contains_iff, OrderedMap.contains, h]
  rfl

theorem entry?_put_self {place : Place} (h : place ≠ []) (t : FileTree) (e : FileEntry) :
    entry? (t.put place e) place = some e := by
  rw [entry?_of_ne h]
  exact t.entries.get?_insert_self place e

theorem entry?_put_ne {place q : Place} (h : q ≠ place) (t : FileTree) (e : FileEntry) :
    entry? (t.put place e) q = t.entry? q := by
  unfold entry?
  split
  · rfl
  · exact t.entries.get?_insert_ne e h

theorem entry?_erase_self {place : Place} (h : place ≠ []) (t : FileTree) :
    entry? (t.erase place) place = none := by
  rw [entry?_of_ne h]
  exact (t.entries.get?_erase place place).trans (if_pos rfl)

theorem entry?_erase_ne {place q : Place} (h : q ≠ place) (t : FileTree) :
    entry? (t.erase place) q = t.entry? q := by
  unfold entry?
  split
  · rfl
  · exact (t.entries.get?_erase place q).trans (if_neg h)

theorem root_mem_put {place : Place} (h : place ≠ []) (t : FileTree) (e : FileEntry) :
    [] ∈ (t.put place e).entries.keys ↔ [] ∈ t.entries.keys := by
  have hne : [] ≠ place := Ne.symm h
  rw [put, OrderedMap.mem_keys_insert]
  simp [hne]

theorem root_mem_of_erase {place : Place} {t : FileTree}
    (h : [] ∈ (t.erase place).entries.keys) : [] ∈ t.entries.keys := by
  rw [← OrderedMap.contains_iff, OrderedMap.contains] at h ⊢
  rw [erase, OrderedMap.get?_erase] at h
  split at h
  · cases h
  · exact h

/-! ## Trees with more directories -/

/-- `t'` has the directories of `t`, and no entry for the root unless `t` has. It refuses
what `t` refuses. -/
structure Extends (t t' : FileTree) : Prop where
  home : t'.home = t.home
  refusals : t'.refusals = t.refusals
  root : [] ∈ t'.entries.keys → [] ∈ t.entries.keys
  directories : ∀ place, t.entry? place = some .directory →
    t'.entry? place = some .directory

namespace Extends

theorem refl (t : FileTree) : t.Extends t := ⟨rfl, rfl, id, fun _ h => h⟩

theorem trans {t t' t'' : FileTree} (h : t.Extends t') (h' : t'.Extends t'') :
    t.Extends t'' :=
  ⟨h'.home.trans h.home, h'.refusals.trans h.refusals, fun hr => h.root (h'.root hr),
    fun place hp => h'.directories place (h.directories place hp)⟩

theorem refusal? {t t' : FileTree} (h : t.Extends t') (place : Place) :
    t'.refusal? place = t.refusal? place := by
  rw [FileTree.refusal?, FileTree.refusal?, h.refusals]

end Extends

/-- A file that comes where no directory is leaves the directories. -/
theorem extends_put {t : FileTree} {place : Place}
    (h : t.entry? place ≠ some .directory) (e : FileEntry) : t.Extends (t.put place e) := by
  have hplace : place ≠ [] := fun heq => h (heq ▸ t.entry?_nil)
  refine ⟨rfl, rfl, (root_mem_put hplace t e).mp, fun q hq => ?_⟩
  have hne : q ≠ place := fun heq => h (heq ▸ hq)
  rwa [entry?_put_ne hne]

theorem extends_erase {t : FileTree} {place : Place}
    (h : t.entry? place ≠ some .directory) : t.Extends (t.erase place) := by
  refine ⟨rfl, rfl, root_mem_of_erase, fun q hq => ?_⟩
  have hne : q ≠ place := fun heq => h (heq ▸ hq)
  rwa [entry?_erase_ne hne]

variable {t t' : FileTree}

/-- Going on is possible from directories only. -/
theorem entry?_of_enter {place q : Place} {segment : List Char}
    (h : t.enter place segment = .ok q) : t.entry? place = some .directory := by
  unfold enter at h
  split at h
  · cases h
  · cases h
  · assumption

theorem enter_congr {place : Place} (h : t.entry? place = t'.entry? place)
    (segment : List Char) : t'.enter place segment = t.enter place segment := by
  unfold enter
  rw [h]

theorem Extends.enter (h : t.Extends t') {place q : Place} {segment : List Char}
    (hq : t.enter place segment = .ok q) : t'.enter place segment = .ok q := by
  have hdir := entry?_of_enter hq
  rw [enter_congr (hdir.trans (h.directories place hdir).symm), hq]

theorem Extends.foldlM_enter (h : t.Extends t') {place q : Place}
    {segments : List (List Char)} (hq : segments.foldlM t.enter place = .ok q) :
    segments.foldlM t'.enter place = .ok q := by
  induction segments generalizing place with
  | nil => exact hq
  | cons s rest ih =>
      rw [List.foldlM_cons] at hq ⊢
      obtain ⟨r, hr, hq⟩ := Except.bind_eq_ok.mp hq
      rw [h.enter hr]
      exact ih hq

theorem Extends.origin (h : t.Extends t') (p : Path) : t'.origin p = t.origin p := by
  rw [FileTree.origin, FileTree.origin, h.home]

theorem locate_eq_ok {p : Path} {q : Place} :
    t.locate p = .ok q ↔
      fault? p = none ∧ p.segments.foldlM t.enter (t.origin p) = .ok q := by
  unfold locate
  cases fault? p <;> simp

theorem Extends.locate (h : t.Extends t') {p : Path} {q : Place}
    (hq : t.locate p = .ok q) : t'.locate p = .ok q := by
  rw [locate_eq_ok] at hq ⊢
  rw [h.origin]
  exact ⟨hq.1, h.foldlM_enter hq.2⟩

/-- A file can be written at the place of a path that does not end with a slash and leads
to no directory, unless it is refused. -/
theorem locateFile_eq_ok {p : Path} {q : Place} :
    t.locateFile p = .ok q ↔ t.locate p = .ok q
      ∧ (p.segments.reverse.dropWhile List.isEmpty).reverse = p.segments
      ∧ t.entry? q ≠ some .directory ∧ t.refusal? q = none := by
  unfold locateFile locate
  cases hfault : fault? p with
  | some e => simp [throw, throwThe, MonadExceptOf.throw]
  | none =>
      simp only [pure, Except.pure, throw, throwThe, MonadExceptOf.throw]
      -- an empty last segment stands for a slash at the end
      by_cases htrim : (p.segments.reverse.dropWhile List.isEmpty).reverse = p.segments
      · rw [htrim]
        simp only [ne_eq, not_true_eq_false, if_false, Except.bind_eq_ok, true_and]
        constructor
        · rintro ⟨r, hr, h⟩
          split at h
          · cases h
          · next hdir =>
              cases hrefusal : t.refusal? r with
              | some e => simp [hrefusal] at h
              | none =>
                  simp only [hrefusal] at h
                  cases h
                  exact ⟨hr, hdir, hrefusal⟩
        · rintro ⟨hr, hne, hrefusal⟩
          refine ⟨q, hr, ?_⟩
          rw [if_neg hne, hrefusal]
      · simp only [ne_eq, htrim, not_false_eq_true, if_true, false_and, and_false, iff_false]
        cases List.foldlM t.enter (t.origin p)
          (p.segments.reverse.dropWhile List.isEmpty).reverse <;> simp

theorem Extends.locateFile (h : t.Extends t') {p : Path} {q : Place}
    (hq : t.locateFile p = .ok q) (hne : t'.entry? q ≠ some .directory) :
    t'.locateFile p = .ok q := by
  rw [locateFile_eq_ok] at hq ⊢
  exact ⟨h.locate hq.1, hq.2.1, hne, (h.refusal? q).trans hq.2.2.2⟩

/-- A path that let a file be written still does where the file is. -/
theorem Extends.locateFile_of_file (h : t.Extends t') {p : Path} {q : Place}
    (hq : t.locateFile p = .ok q) {content : ByteArray}
    (hentry : t'.entry? q = some (.file content)) : t'.locateFile p = .ok q := by
  refine h.locateFile hq ?_
  rw [hentry]
  exact nofun

/-! ## Reading -/

theorem read_eq (p : Path) : t.read p = (t.locate p).bind fun q =>
    match t.entry? q with
    | some (.file content) => .ok content
    | some .directory => .error .isDirectory
    | none => .error .missing := by
  unfold read
  cases t.locate p <;> rfl

theorem read_eq_ok {p : Path} {content : ByteArray} :
    t.read p = .ok content ↔
      ∃ q, t.locate p = .ok q ∧ t.entry? q = some (.file content) := by
  rw [read_eq]
  cases t.locate p with
  | error e => simp [Except.bind]
  | ok q =>
      cases hentry : t.entry? q with
      | none => simp [Except.bind, hentry]
      | some e => cases e <;> simp [Except.bind, hentry]

/-- What is read depends on the place of the path and the entry there. -/
theorem read_congr {p : Path} (hlocate : t'.locate p = t.locate p)
    (hentry : ∀ q, t.locate p = .ok q → t'.entry? q = t.entry? q) :
    t'.read p = t.read p := by
  rw [read_eq, read_eq, hlocate]
  cases hq : t.locate p with
  | error e => rfl
  | ok q => simp only [Except.bind, hentry q hq]

/-- The bytes of a text are read as the text. -/
theorem fromUTF8?_toUTF8 (s : String) : String.fromUTF8? s.toUTF8 = some s := by
  rw [String.fromUTF8?, String.toUTF8_eq_toByteArray, dif_pos s.isValidUTF8]
  rfl

/-- A text that was written can be read. -/
theorem readText_of_entry? {p : Path} {q : Place} {text : String}
    (hq : t.locate p = .ok q) (hentry : t.entry? q = some (.file text.toUTF8)) :
    t.readText p = .ok text := by
  have hread : t.read p = .ok text.toUTF8 := read_eq_ok.mpr ⟨q, hq, hentry⟩
  unfold readText
  rw [hread, Except.ok_bind]
  simp only [fromUTF8?_toUTF8]
  rfl

/-! ## Names below a root -/

theorem enter_name {place : Place} {name : String} (hname : Path.isName name = true)
    (hdir : t.entry? place = some .directory) :
    t.enter place name.toList
      = if nameLimit < name.utf8ByteSize then .error .nameTooLong
        else .ok (place ++ [name]) := by
  unfold enter
  rw [hdir]
  simp only [Path.innerPart?_of_isName hname]

theorem eq_of_enter_name {place q : Place} {name : String}
    (hname : Path.isName name = true) (h : t.enter place name.toList = .ok q) :
    q = place ++ [name] := by
  rw [enter_name hname (entry?_of_enter h)] at h
  split at h
  · cases h
  · cases h
    rfl

/-- Following a path without asking for its fault. -/
def follow (t : FileTree) (p : Path) : Except FileError Place :=
  p.segments.foldlM t.enter (t.origin p)

/-- An empty segment asks for a directory, as a name behind it does. -/
theorem enter_nil_bind (place : Place) (segment : List Char) :
    (t.enter place [] >>= fun q => t.enter q segment) = t.enter place segment := by
  unfold enter
  cases hentry : t.entry? place with
  | none => rfl
  | some e =>
      cases e with
      | file content => rfl
      | directory =>
          simp only [show Path.innerPart? [] = none from rfl, Except.ok_bind, hentry]

theorem follow_join {p : Path} (hp : p.text ≠ "") {name : String}
    (hname : Path.isName name = true) :
    t.follow (p.join name) = t.follow p >>= fun q => t.enter q name.toList := by
  have horigin : t.origin (p.join name) = t.origin p := by
    rw [origin, origin, Path.isAbsolute_join hp hname]
  unfold follow
  rw [horigin]
  rcases Path.segments_join hp hname with ⟨front, -, hold, hnew⟩ | hnew
  · rw [hold, hnew, List.foldlM_append, List.foldlM_append]
    cases front.foldlM t.enter (t.origin p) with
    | error e => rfl
    | ok q =>
        simp only [Except.ok_bind, List.foldlM_cons, List.foldlM_nil, bind_pure]
        exact (enter_nil_bind q name.toList).symm
  · rw [hnew, List.foldlM_append]
    simp only [List.foldlM_cons, List.foldlM_nil, bind_pure]

/-- Names are entered one after the other. -/
theorem follow_descend {root : Path} (hroot : root.text ≠ "") {names : List String}
    (hnames : ∀ name ∈ names, Path.isName name = true) :
    t.follow (root.descend names)
      = t.follow root >>= fun q => names.foldlM (fun q n => t.enter q n.toList) q := by
  induction names generalizing root with
  | nil => exact (bind_pure _).symm
  | cons name rest ih =>
      have hname := hnames name List.mem_cons_self
      have hrest := ih (Path.text_join_ne root hname) fun n hn =>
        hnames n (List.mem_cons_of_mem _ hn)
      rw [Path.descend, List.foldl_cons, ← Path.descend, hrest, follow_join hroot hname,
        bind_assoc]
      rfl

theorem eq_of_foldlM_enter {place q : Place} {names : List String}
    (hnames : ∀ name ∈ names, Path.isName name = true)
    (h : names.foldlM (fun q n => t.enter q n.toList) place = .ok q) :
    q = place ++ names := by
  induction names generalizing place with
  | nil =>
      cases h
      rw [List.append_nil]
  | cons name rest ih =>
      rw [List.foldlM_cons] at h
      obtain ⟨r, hr, h⟩ := Except.bind_eq_ok.mp h
      rw [eq_of_enter_name (hnames name List.mem_cons_self) hr] at h
      rw [ih (fun n hn => hnames n (List.mem_cons_of_mem _ hn)) h]
      simp

theorem text_ne_of_locate {p : Path} {q : Place} (h : t.locate p = .ok q) :
    p.text ≠ "" := by
  intro hp
  have hfault := (locate_eq_ok.mp h).1
  unfold fault? at hfault
  rw [hp] at hfault
  cases hfault

/-- The place of a path below a root. -/
theorem locate_descend {root : Path} {place q : Place} (hroot : t.locate root = .ok place)
    {names : List String} (hnames : ∀ name ∈ names, Path.isName name = true)
    (h : t.locate (root.descend names) = .ok q) : q = place ++ names := by
  have hfollow := (locate_eq_ok.mp h).2
  change t.follow (root.descend names) = .ok q at hfollow
  rw [follow_descend (text_ne_of_locate hroot) hnames] at hfollow
  obtain ⟨r, hr, hfollow⟩ := Except.bind_eq_ok.mp hfollow
  have hplace : t.follow root = .ok place := (locate_eq_ok.mp hroot).2
  rw [hplace] at hr
  cases hr
  exact eq_of_foldlM_enter hnames hfollow

/-! ## Trees in good shape -/

/-- Every entry has a name and stands in a directory. -/
structure WellFormed (t : FileTree) : Prop where
  ne_root : [] ∉ t.entries.keys
  names : ∀ place ∈ t.entries.keys, ∀ name ∈ place, Path.isName name = true
  parents : ∀ place ∈ t.entries.keys, t.entry? place.dropLast = some .directory

instance (t : FileTree) : Decidable t.WellFormed :=
  decidable_of_iff ([] ∉ t.entries.keys
      ∧ (∀ place ∈ t.entries.keys, ∀ name ∈ place, Path.isName name = true)
      ∧ ∀ place ∈ t.entries.keys, t.entry? place.dropLast = some .directory)
    ⟨fun h => ⟨h.1, h.2.1, h.2.2⟩, fun h => ⟨h.ne_root, h.names, h.parents⟩⟩

/-- All places on the way to an entry are directories. -/
theorem WellFormed.entry?_of_append (h : t.WellFormed) {place names : Place}
    (hnames : names ≠ []) (hmem : place ++ names ∈ t.entries.keys) :
    t.entry? place = some .directory := by
  induction names using List.reverseRecOn with
  | nil => exact absurd rfl hnames
  | append_singleton names name ih =>
      have hparent := h.parents _ hmem
      rw [← List.append_assoc, List.dropLast_concat] at hparent
      by_cases hne : names = []
      · rwa [hne, List.append_nil] at hparent
      · refine ih hne ?_
        by_cases hroot : place ++ names = []
        · exact absurd (List.append_eq_nil_iff.mp hroot).2 hne
        · exact mem_keys_of_entry hroot hparent

theorem foldlM_enter_congr {names : List String}
    (hnames : ∀ name ∈ names, Path.isName name = true) {place : Place}
    (hdirs : ∀ front name back, names = front ++ name :: back →
      t.entry? (place ++ front) = some .directory
        ∧ t'.entry? (place ++ front) = some .directory) :
    names.foldlM (fun q n => t'.enter q n.toList) place
      = names.foldlM (fun q n => t.enter q n.toList) place := by
  induction names generalizing place with
  | nil => rfl
  | cons name rest ih =>
      obtain ⟨hdir, hdir'⟩ := hdirs [] name rest rfl
      rw [List.append_nil] at hdir hdir'
      rw [List.foldlM_cons, List.foldlM_cons, enter_congr (hdir.trans hdir'.symm)]
      cases hq : t.enter place name.toList with
      | error e => rfl
      | ok q =>
          rw [eq_of_enter_name (hnames name List.mem_cons_self) hq]
          -- what is in front of a later name gets the entered one as its first
          refine ih (fun n hn => hnames n (List.mem_cons_of_mem _ hn)) ?_
          intro front n back hsplit
          have h := hdirs (name :: front) n back (by rw [hsplit]; rfl)
          rwa [List.append_cons] at h

/-- The way to an entry below a root is the same in a tree with more
directories, whether it can be followed or not. -/
theorem Extends.locate_descend (h : t.Extends t') (hwf : t.WellFormed) {root : Path}
    {place : Place} (hroot : t.locate root = .ok place) {names : List String}
    (hmem : place ++ names ∈ t.entries.keys) :
    t'.locate (root.descend names) = t.locate (root.descend names) := by
  have hnames : ∀ name ∈ names, Path.isName name = true := fun name hname =>
    hwf.names _ hmem name (List.mem_append_right _ hname)
  -- the way leads through directories, which both trees have
  have hdirs : ∀ front name back, names = front ++ name :: back →
      t.entry? (place ++ front) = some .directory
        ∧ t'.entry? (place ++ front) = some .directory := by
    rintro front name back rfl
    rw [← List.append_assoc] at hmem
    have hdir := hwf.entry?_of_append (List.cons_ne_nil name back) hmem
    exact ⟨hdir, h.directories _ hdir⟩
  have hfollow : t'.follow (root.descend names) = t.follow (root.descend names) := by
    have hold : t.follow root = .ok place := (locate_eq_ok.mp hroot).2
    have hnew : t'.follow root = .ok place := (locate_eq_ok.mp (h.locate hroot)).2
    have htext := text_ne_of_locate hroot
    rw [follow_descend htext hnames, follow_descend htext hnames, hold, hnew,
      Except.ok_bind, Except.ok_bind, foldlM_enter_congr hnames hdirs]
  unfold FileTree.locate
  split
  · rfl
  · exact hfollow

end SimAnnotate.FileTree
