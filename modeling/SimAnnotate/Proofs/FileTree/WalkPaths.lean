import SimAnnotate.Proofs.FileTree.Change

/-!
# The paths of a walk

A walk gives the files at or below a path (`mem_walk`), in the order of the octets of
their parts (`pairwise_walk`). A tree compares names by their characters; that the
octets of UTF-8 have the same order is the one fact about text here (`octets_lt`).

What is walked depends on the entries of a tree and not on their order (`Same.walk`).
A file that is taken away is missing from the walk, and nothing else (`walk_erase`).
-/

namespace SimAnnotate

/-! ## The order of octets -/

namespace Path

/-- The text that a part is written with. -/
def Part.text : Part → String
  | .root => "/"
  | .here => "."
  | .up => ".."
  | .name s => s

/-- The octets of the parts. -/
def octets (p : Path) : List (List UInt8) := p.parts.map (·.text.toUTF8.data.toList)

end Path

/-- Where characters differ their octets do, whatever follows them. -/
theorem utf8EncodeChar_append_lt {c d : Char} (h : c < d) (xs ys : List UInt8) :
    String.utf8EncodeChar c ++ xs < String.utf8EncodeChar d ++ ys := by
  have hlt : c.toNat < d.toNat := UInt32.lt_iff_toNat_lt.mp h
  have hd : d.toNat < 0x110000 := by
    have hvalid := d.valid
    have hval : d.val.toNat = d.toNat := rfl
    simp only [UInt32.isValidChar, Nat.isValidChar] at hvalid
    omega
  unfold String.utf8EncodeChar
  rw [show c.val.toNat = c.toNat from rfl, show d.val.toNat = d.toNat from rfl]
  dsimp only
  generalize c.toNat = m at hlt
  generalize d.toNat = n at hlt hd
  -- one case for each pair of lengths; longer characters begin with a greater octet
  split_ifs
  all_goals
    simp only [List.cons_append, List.nil_append, List.cons_lt_cons_iff,
      UInt8.lt_iff_toNat_lt, ← UInt8.toNat_inj, UInt8.toNat_ofNat']
    simp (disch := omega) only [Nat.mod_eq_of_lt]
    omega

theorem flatMap_utf8EncodeChar_lt {cs ds : List Char} (h : cs < ds) :
    cs.flatMap String.utf8EncodeChar < ds.flatMap String.utf8EncodeChar := by
  induction h with
  | @nil d ds =>
      obtain ⟨b, bs, hd⟩ := List.exists_cons_of_ne_nil (String.utf8EncodeChar_ne_nil (c := d))
      rw [List.flatMap_nil, List.flatMap_cons, hd]
      exact List.nil_lt_cons b _
  | rel h => exact utf8EncodeChar_append_lt h _ _
  | cons _ ih => exact List.append_left_lt ih

/-- Characters and octets order texts in the same way. -/
theorem octets_lt {a b : String} (h : a < b) :
    a.toUTF8.data.toList < b.toUTF8.data.toList := by
  have hoctets : ∀ s : String, s.toUTF8.data.toList = s.toList.flatMap String.utf8EncodeChar := by
    intro s
    conv_lhs => rw [← String.ofList_toList (s := s)]
    rw [String.toUTF8_eq_toByteArray, String.toByteArray_ofList, List.utf8Encode,
      List.data_toByteArray]
  rw [hoctets, hoctets]
  exact flatMap_utf8EncodeChar_lt (String.lt_iff.mp h)

namespace FileTree

/-- The octets of names. -/
def octets (names : Place) : List (List UInt8) := names.map (·.toUTF8.data.toList)

/-- The order of a walk is that of the octets. -/
theorem octets_lt_of_inWalkOrder {xs ys : Place} (h : inWalkOrder xs ys = true)
    (hne : xs ≠ ys) : octets xs < octets ys := by
  induction xs generalizing ys with
  | nil =>
      cases ys with
      | nil => exact absurd rfl hne
      | cons b bs => exact List.nil_lt_cons _ _
  | cons a as ih =>
      cases ys with
      | nil => cases h
      | cons b bs =>
          rw [inWalkOrder] at h
          rw [octets, octets, List.map_cons, List.map_cons, List.cons_lt_cons_iff]
          -- where names differ their octets do, in the same order
          by_cases hab : a = b
          · subst hab
            rw [if_pos rfl] at h
            exact .inr ⟨rfl, ih h fun heq => hne (heq ▸ rfl)⟩
          · rw [if_neg hab, decide_eq_true_eq] at h
            exact .inl (octets_lt h)

theorem pairwise_octets_filesBelow (t : FileTree) (place : Place) :
    (t.filesBelow place).Pairwise fun xs ys => octets xs < octets ys :=
  ((t.pairwise_filesBelow place).and (t.nodup_filesBelow place)).imp
    fun h => octets_lt_of_inWalkOrder h.1 h.2

variable {t t' : FileTree} {root p : Path}

/-! ## The files of a walk -/

/-- The names that lead from a place to a file. -/
theorem WellFormed.mem_filesBelow (hwf : t.WellFormed) {place names : Place} :
    names ∈ t.filesBelow place ↔ ∃ content, t.entry? (place ++ names) = some (.file content) := by
  rw [FileTree.mem_filesBelow]
  by_cases hroot : place ++ names = []
  · rw [hroot, OrderedMap.get?_eq_none hwf.ne_root, t.entry?_nil]
    simp
  · rw [entry?_of_ne hroot]

/-- The names that lead to a file below a place are names of entries. -/
theorem WellFormed.named (hwf : t.WellFormed) {place names : Place}
    (h : names ∈ t.filesBelow place) :
    place ++ names ∈ t.entries.keys ∧ ∀ name ∈ names, Path.isName name = true := by
  obtain ⟨content, hget⟩ := FileTree.mem_filesBelow.mp h
  have hkey : place ++ names ∈ t.entries.keys := by
    rw [← OrderedMap.contains_iff, OrderedMap.contains, hget]
    rfl
  exact ⟨hkey, fun name hname => hwf.names _ hkey name (List.mem_append_right _ hname)⟩

theorem walk_of_locate {place : Place} (h : t.locate root = .ok place) :
    t.walk root = (t.filesBelow place).map root.descend := by
  unfold walk
  rw [h]

theorem mem_walk (hwf : t.WellFormed) : p ∈ t.walk root ↔ ∃ place names content,
    t.locate root = .ok place ∧ p = root.descend names
      ∧ t.entry? (place ++ names) = some (.file content) := by
  cases hroot : t.locate root with
  | error e => simp [walk, hroot]
  | ok place =>
      rw [walk_of_locate hroot, List.mem_map]
      constructor
      · rintro ⟨names, hnames, rfl⟩
        obtain ⟨content, hentry⟩ := hwf.mem_filesBelow.mp hnames
        exact ⟨place, names, content, rfl, rfl, hentry⟩
      · rintro ⟨_, names, content, hplace, rfl, hentry⟩
        cases hplace
        exact ⟨names, hwf.mem_filesBelow.mpr ⟨content, hentry⟩, rfl⟩

/-- A walk goes through the files in the order of their octets, and so visits each of
them once. -/
theorem pairwise_walk (hwf : t.WellFormed) (root : Path) :
    (t.walk root).Pairwise fun p q => p.octets < q.octets := by
  cases hroot : t.locate root with
  | error e => simp [walk, hroot]
  | ok place =>
      have htext := text_ne_of_locate hroot
      rw [walk_of_locate hroot, List.pairwise_map]
      have hoctets : ∀ names ∈ t.filesBelow place,
          (root.descend names).octets = root.octets ++ octets names := by
        intro names hnames
        rw [Path.octets, Path.parts_descend htext (hwf.named hnames).2, List.map_append,
          List.map_map]
        rfl
      refine (t.pairwise_octets_filesBelow place).imp_of_mem fun {xs ys} hxs hys hlt => ?_
      rw [hoctets xs hxs, hoctets ys hys]
      exact List.append_left_lt hlt

/-- The files of a walk are told apart by their parts. -/
theorem nodup_walk (hwf : t.WellFormed) (root : Path) :
    ((t.walk root).map Path.parts).Nodup := by
  rw [List.Nodup, List.pairwise_map]
  refine (pairwise_walk hwf root).imp fun {p q} hlt heq => ?_
  rw [Path.octets, Path.octets, heq] at hlt
  exact List.lt_irrefl _ hlt

/-! ## Trees with the same entries -/

namespace Same

variable (h : t.Same t')

include h

theorem enter : t'.enter = t.enter := by
  funext place segment
  exact enter_congr (h.entries place).symm segment

theorem locate (p : Path) : t'.locate p = t.locate p := by
  unfold FileTree.locate
  rw [h.enter, h.toExtends.origin]

theorem read (p : Path) : t'.read p = t.read p :=
  read_congr (h.locate p) fun q _ => h.entries q

/-- The order of the entries does not matter to a walk. -/
theorem walk (hwf : t.WellFormed) (root : Path) : t'.walk root = t.walk root := by
  -- only the root needs no entry, and neither tree has one for it
  have hget : ∀ q, t'.entries.get? q = t.entries.get? q := by
    intro q
    by_cases hq : q = []
    · rw [hq, OrderedMap.get?_eq_none hwf.ne_root,
        OrderedMap.get?_eq_none fun hmem => hwf.ne_root (h.root hmem)]
    · rw [← entry?_of_ne hq, ← entry?_of_ne hq, h.entries]
  cases hroot : t.locate root with
  | error e =>
      unfold FileTree.walk
      rw [h.locate, hroot]
  | ok place =>
      rw [walk_of_locate hroot, walk_of_locate ((h.locate root).trans hroot)]
      have hfiles : (t'.filesBelow place).filter (fun _ => true)
          = (t.filesBelow place).filter fun _ => true :=
        filter_filesBelow_congr fun names _ => by
          rw [FileTree.mem_filesBelow, FileTree.mem_filesBelow, hget]
      rw [List.filter_true, List.filter_true] at hfiles
      rw [hfiles]

end Same

/-! ## A tree without a file -/

section

variable {place names : Place} {content : ByteArray} (hwf : t.WellFormed)
  (hroot : t.locate root = .ok place)
  (hentry : t.entry? (place ++ names) = some (.file content))

include hwf hroot hentry

omit hwf hroot in
theorem extends_erase_file : t.Extends (t.erase (place ++ names)) :=
  extends_erase (by simp [hentry])

/-- A file that is taken away is missing from a walk. -/
theorem walk_erase : (t.erase (place ++ names)).walk root
    = (t.walk root).filter (· ≠ root.descend names) := by
  have hne : place ++ names ≠ [] := by
    intro hnil
    rw [hnil, t.entry?_nil] at hentry
    cases hentry
  have hmem : names ∈ t.filesBelow place := hwf.mem_filesBelow.mpr ⟨content, hentry⟩
  have hget : ∀ q, (t.erase (place ++ names)).entries.get? q
      = if q = place ++ names then none else t.entries.get? q :=
    t.entries.get?_erase (place ++ names)
  have hfiles : ((t.erase (place ++ names)).filesBelow place).filter (· ≠ names)
      = (t.filesBelow place).filter (· ≠ names) :=
    filter_filesBelow_congr fun other hother => by
      have hother : place ++ other ≠ place ++ names := by
        simpa using hother
      rw [FileTree.mem_filesBelow, FileTree.mem_filesBelow, hget, if_neg hother]
  have hall : ((t.erase (place ++ names)).filesBelow place).filter (· ≠ names)
      = (t.erase (place ++ names)).filesBelow place := by
    refine List.filter_eq_self.mpr fun other hother => ?_
    obtain ⟨_, hother⟩ := FileTree.mem_filesBelow.mp hother
    rw [hget] at hother
    refine decide_eq_true fun heq => ?_
    rw [heq, if_pos rfl] at hother
    cases hother
  have htext := text_ne_of_locate hroot
  rw [walk_of_locate hroot,
    walk_of_locate ((extends_erase_file hentry).locate hroot), ← hall, hfiles,
    List.filter_map]
  refine congrArg _ (List.filter_congr fun other hother => ?_)
  -- different names lead to different paths
  rw [Function.comp_apply, decide_eq_decide, not_iff_not]
  refine ⟨fun heq => heq ▸ rfl, fun heq => ?_⟩
  exact Path.descend_inj htext (hwf.named hother).2 (hwf.named hmem).2
    (congrArg Path.parts heq)

/-- The other files of a walk are read as before. -/
theorem read_erase (hp : p ∈ t.walk root) (hne : p ≠ root.descend names) :
    (t.erase (place ++ names)).read p = t.read p := by
  rw [walk_of_locate hroot] at hp
  obtain ⟨other, hother, rfl⟩ := List.mem_map.mp hp
  obtain ⟨hkey, hnamed⟩ := hwf.named hother
  have hext := extends_erase_file hentry
  refine read_congr (hext.locate_descend hwf hroot hkey) fun q hq => ?_
  rw [locate_descend hroot hnamed hq]
  refine entry?_erase_ne (fun heq => hne ?_) t
  rw [List.append_cancel_left heq]

end

end FileTree

end SimAnnotate
