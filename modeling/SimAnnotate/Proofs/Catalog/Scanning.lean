import SimAnnotate.Proofs.Catalog.Refinement
import SimAnnotate.Proofs.FileTree.DepthFirst

/-!
# What a scan brings

A scan looks at the YAML files at or below a path that are not excluded (`Considers`).
Those that can be loaded and are not known come in behind the files that are there, in
the order of a walk, and nothing else changes (`Brings`). A file that cannot be loaded
gives one warning; apart from that the scan is as if the file were not there
(`PassesOver`). `ofOperations_scan` says so of every catalog that operations build.

The number that a scan gives is that of the files that were loaded, whether they have
come in or not, so it is the number of new files just where no file is loaded that was
known (`ofOperations_scan_count`).
-/

namespace SimAnnotate

/-! ## What ought to be -/

/-- The text is not YAML to its end, or some value in it is no document. -/
def Document.Faulty (text : String) : Prop :=
  (Yaml.Stream.read text).intact = false
    ∨ ∃ n v e, ((Yaml.Stream.read text).documents.filter (!·.isNull))[n]? = some v
      ∧ Document.ofValue n v = .error e

/-- The file that a warning is about. -/
def Warning.file? : Warning → Option Path
  | .unreadable p _ | .alreadyIndexed p | .outside p => some p
  | _ => none

namespace Catalog

/-- A YAML file at or below a path that is not excluded. -/
structure Considers (c : Catalog) (t : FileTree) (root p : Path) : Prop where
  below : ∃ place names content, t.locate root = .ok place ∧ p = root.descend names
    ∧ t.entry? (place ++ names) = some (.file content)
  yaml : p.extension? = some "yml" ∨ p.extension? = some "yaml"
  included : p.parts ∉ c.excluded

/-- The files `new` come in, and nothing else changes. -/
structure Brings (c : Catalog) (t : FileTree) (root : Path) (new : List FileContent)
    (c' : Catalog) : Prop where
  files : c'.files = c.files ++ new.map (·.path)
  mem : ∀ f, f ∈ new ↔ c.Considers t root f.path ∧ c.contains f.path = false
    ∧ Document.load t f.path = .ok f.documents
  sorted : new.Pairwise fun f g => f.path.octets < g.path.octets
  visited : ∀ place, t.locate root = .ok place → ∃ visit,
    (∀ ps, t.Visits place ps ↔ ps = visit)
      ∧ (new.map (·.path)).Sublist (visit.map root.descend)
  documents : ∀ k, c'.documents k
    = c.documents k ++ Document.ofKind k (new.flatMap (·.documents))
  documentsOf : ∀ f ∈ new, c'.documentsOf f.path = f.documents
  records : c.records.entries <+: c'.records.entries
  get? : ∀ h d, c.get? h = some d → c'.get? h = some d
  flagged : c'.flagged = c.flagged
  excluded : c'.excluded = c.excluded

/-- Of the file `p` there is one warning and nothing else. -/
structure PassesOver (c : Catalog) (t : FileTree) (root p : Path) (s : Scan) : Prop where
  warning : ∃ e, Document.load t p = .error e
    ∧ s.warnings.filter (·.file? = some p) = [.unreadable p e]
  documentsOf : s.catalog.documentsOf p = c.documentsOf p
  without : ∀ place names content, t.locate root = .ok place → p = root.descend names →
    t.entry? (place ++ names) = some (.file content) →
      (c.scan (t.erase (place ++ names)) root).catalog = s.catalog

end Catalog

/-! ## Files that cannot be loaded -/

/-- One faulty document spoils a text. -/
theorem Document.exists_parse_error_iff {text : String} :
    (∃ e, Document.parse text = .error e) ↔ Document.Faulty text := by
  have hok : (∃ ds, Document.parse text = .ok ds) ↔ ¬Document.Faulty text := by
    rw [parse, ofStream]
    simp only [Except.bind_eq_ok]
    rw [Faulty, not_or, Bool.not_eq_false]
    -- the documents of a text are those that are not null, by their positions
    have hvalues : (∃ ds, ofValues (Yaml.Stream.read text).documents = .ok ds)
        ↔ ¬∃ n v e, ((Yaml.Stream.read text).documents.filter (!·.isNull))[n]? = some v
          ∧ ofValue n v = .error e := by
      rw [ofValues, List.exists_mapM_iff]
      constructor
      · rintro h ⟨n, v, e, hv, he⟩
        obtain ⟨d, hd⟩ := h (v, n) (List.mem_zipIdx_iff_getElem?.mpr hv)
        cases hd.symm.trans he
      · rintro h ⟨v, n⟩ hmem
        cases hvalue : ofValue n v with
        | ok d => exact ⟨d, hvalue⟩
        | error e => exact absurd ⟨n, v, e, List.mem_zipIdx_iff_getElem?.mp hmem, hvalue⟩ h
    rw [← hvalues]
    constructor
    · rintro ⟨_, ds, hds, h⟩
      split at h
      · next hintact => exact ⟨hintact, ds, hds⟩
      · cases h
    · rintro ⟨hintact, ds, hds⟩
      exact ⟨ds, ds, hds, if_pos hintact⟩
  cases hparse : Document.parse text with
  | ok ds =>
      rw [hparse] at hok
      exact iff_of_false nofun (hok.mp ⟨ds, rfl⟩)
  | error e =>
      rw [hparse] at hok
      exact iff_of_true ⟨e, rfl⟩ (not_not.mp (mt hok.mpr nofun))

/-- A file with a text cannot be loaded just where the text is faulty. -/
theorem Document.exists_load_error_iff {t : FileTree} {p : Path} {text : String}
    (h : t.readText p = .ok text) :
    (∃ e, Document.load t p = .error e) ↔ Document.Faulty text := by
  rw [← exists_parse_error_iff, Document.load, h]
  simp only [Except.mapError, Except.ok_bind]
  cases Document.parse text <;> simp [pure, Except.pure]

/-! ## Listings -/

namespace Listing

variable {t : FileTree}

/-- A file that comes in: it can be loaded and is not known. -/
def entering? (l : Listing) (t : FileTree) (p : Path) : Option FileContent :=
  if l.contains p then none else (Document.load t p).toOption.map (FileContent.mk p)

theorem entering?_eq_some {l : Listing} {p : Path} {f : FileContent} :
    l.entering? t p = some f ↔ f.path = p ∧ l.contains p = false
      ∧ Document.load t p = .ok f.documents := by
  unfold entering?
  cases hp : l.contains p with
  | true => simp
  | false =>
      obtain ⟨q, ds⟩ := f
      cases Document.load t p <;> simp [Except.toOption, and_comm, eq_comm]

/-- Of the files that are looked at some come in, in the order in which they are looked at. -/
theorem sublist_entering (l : Listing) (ps : List Path) :
    ((ps.filterMap (l.entering? t)).map (·.path)).Sublist ps := by
  induction ps with
  | nil => exact .slnil
  | cons p rest ih =>
      cases hp : l.entering? t p with
      | none =>
          rw [List.filterMap_cons_none hp]
          exact ih.cons p
      | some f =>
          rw [List.filterMap_cons_some hp, List.map_cons, (entering?_eq_some.mp hp).1]
          exact ih.cons_cons p

/-- Different files come in one after the other. -/
theorem foldl_load {ps : List Path} (hnodup : (ps.map Path.parts).Nodup)
    (l : Listing) : ps.foldl (load t) l
      = { l with files := l.files ++ ps.filterMap (l.entering? t) } := by
  induction ps generalizing l with
  | nil => rw [List.filterMap_nil, List.append_nil, List.foldl_nil]
  | cons p rest ih =>
      rw [List.map_cons, List.nodup_cons] at hnodup
      rw [List.foldl_cons, ih hnodup.2]
      cases hp : l.entering? t p with
      | none =>
          -- the file is passed over, or it is known
          have hstep : l.load t p = l := by
            unfold entering? at hp
            unfold load
            cases hload : Document.load t p with
            | error e => rfl
            | ok ds =>
                rw [hload] at hp
                refine if_pos ?_
                by_contra hnew
                rw [if_neg hnew] at hp
                cases hp
          rw [hstep, List.filterMap_cons_none hp]
      | some f =>
          obtain ⟨rfl, hnew, hload⟩ := entering?_eq_some.mp hp
          obtain ⟨_, parsed, -, -, hfiled⟩ := Document.load_eq_ok.mp hload
          have hstep : l.load t f.path = { l with files := l.files ++ [f] } := by
            rw [load, hload]
            dsimp only
            rw [insert, hnew, if_neg Bool.false_ne_true, ← hfiled, filed_filed, hfiled]
          have hrest : ∀ q ∈ rest, entering? { l with files := l.files ++ [f] } t q
              = l.entering? t q := by
            intro q hq
            have hne : f.path.parts ≠ q.parts := fun heq =>
              hnodup.1 (heq ▸ List.mem_map_of_mem hq)
            have hcontains : Listing.contains { l with files := l.files ++ [f] } q
                = l.contains q := by
              simp [contains, hne]
            rw [entering?, entering?, hcontains]
          rw [hstep, List.filterMap_congr hrest, List.filterMap_cons_some hp]
          simp

end Listing

namespace Catalog

variable {c : Catalog} {l : Listing} {t t' : FileTree} {root p : Path}

/-! ## The files that a scan looks at -/

theorem mem_scannable (hwf : t.WellFormed) :
    p ∈ c.scannable t root ↔ c.Considers t root p := by
  rw [scannable, List.mem_filter, FileTree.mem_walk hwf]
  simp only [isYaml, isExcluded, Bool.and_eq_true, Bool.or_eq_true, beq_iff_eq,
    Bool.not_eq_true', decide_eq_false_iff_not]
  constructor
  · rintro ⟨hbelow, hyaml, hkept⟩
    exact ⟨hbelow, hyaml, hkept⟩
  · rintro ⟨hbelow, hyaml, hkept⟩
    exact ⟨hbelow, hyaml, hkept⟩

theorem nodup_scannable (hwf : t.WellFormed) :
    ((c.scannable t root).map Path.parts).Nodup :=
  (FileTree.nodup_walk hwf root).sublist (List.filter_sublist.map _)

/-! ## The files that come in -/

/-- Adds a file, if it can be loaded. -/
def enter (t : FileTree) (c : Catalog) (p : Path) : Catalog :=
  ((Document.load t p).toOption.map (c.insert p)).getD c

theorem catalog_foldl_scanFile (ps : List Path) (s : Scan) :
    (ps.foldl (scanFile t) s).catalog = ps.foldl (enter t) s.catalog := by
  induction ps generalizing s with
  | nil => rfl
  | cons p rest ih =>
      rw [List.foldl_cons, List.foldl_cons, ih, scanFile, enter]
      cases Document.load t p <;> rfl

theorem catalog_scan :
    (c.scan t root).catalog = (c.scannable t root).foldl (enter t) c :=
  catalog_foldl_scanFile _ _

/-- What comes in when a catalog is scanned. -/
theorem Refines.scan_files (r : c.Refines l) (hwf : t.WellFormed) (root : Path) :
    (c.scan t root).catalog.Refines
      { l with files := l.files ++ (c.scannable t root).filterMap (l.entering? t) } := by
  rw [← Listing.foldl_load (nodup_scannable hwf)]
  exact r.foldl_scanFile t _ (s := ⟨c, 0, []⟩)

theorem Refines.brings {c' : Catalog} {new : List FileContent} (r : c.Refines l)
    (r' : c'.Refines { l with files := l.files ++ new })
    (hmem : ∀ f, f ∈ new ↔ c.Considers t root f.path ∧ c.contains f.path = false
      ∧ Document.load t f.path = .ok f.documents)
    (hsorted : new.Pairwise fun f g => f.path.octets < g.path.octets)
    (hvisited : ∀ place, t.locate root = .ok place → ∃ visit,
      (∀ ps, t.Visits place ps ↔ ps = visit)
        ∧ (new.map (·.path)).Sublist (visit.map root.descend)) :
    Brings c t root new c' := by
  have hall : Listing.all { l with files := l.files ++ new }
      = l.all ++ new.flatMap (·.documents) := List.flatMap_append
  have hdocuments : ∀ k, c'.documents k
      = c.documents k ++ Document.ofKind k (new.flatMap (·.documents)) := by
    intro k
    rw [r'.documents, r.documents, hall, Document.ofKind_append]
  exact {
    files := by rw [r'.files, r.files, List.map_append]
    mem := hmem
    sorted := hsorted
    visited := hvisited
    documents := hdocuments
    documentsOf := fun f hf => r'.documentsOf_file (List.mem_append_right _ hf)
    records := by
      rw [r'.records, r.records, Listing.records_append]
      exact List.prefix_append _ _
    get? := fun h d hd => by
      have hlt := (List.getElem?_eq_some_iff.mp hd).1
      rw [Catalog.get?, hdocuments, List.getElem?_append_left hlt]
      exact hd
    flagged := OrderedMap.ext_entries (r'.flagged.trans r.flagged.symm)
    excluded := r'.excluded.trans r.excluded.symm }

theorem exists_brings (r : c.Refines l) (hwf : t.WellFormed) (root : Path) :
    Brings c t root ((c.scannable t root).filterMap (l.entering? t))
      (c.scan t root).catalog := by
  refine r.brings (r.scan_files hwf root) (fun f => ?_) ?_ ?_
  · simp only [List.mem_filterMap, Listing.entering?_eq_some, mem_scannable hwf, r.contains]
    constructor
    · rintro ⟨p, hp, rfl, hnew, hload⟩
      exact ⟨hp, hnew, hload⟩
    · rintro ⟨hp, hnew, hload⟩
      exact ⟨f.path, hp, rfl, hnew, hload⟩
  · have hwalk := (FileTree.pairwise_walk hwf root).filter
      (fun p => isYaml p && !c.isExcluded p)
    refine hwalk.filterMap _ fun p q hlt f hf g hg => ?_
    rwa [(Listing.entering?_eq_some.mp hf).1, (Listing.entering?_eq_some.mp hg).1]
  · intro place hroot
    refine ⟨t.filesBelow place, fun ps => FileTree.visits_iff hwf, ?_⟩
    rw [← FileTree.walk_of_locate hroot]
    exact (l.sublist_entering _).trans List.filter_sublist

/-! ## Scanning twice, in another order and without a file -/

/-- After a scan all files are known that it could load, so to scan again adds none. -/
theorem scan_again {new : List FileContent} {c' : Catalog} (hwf : t.WellFormed)
    (h : Brings c t root new c') (r' : ∃ l', c'.Refines l') :
    (c'.scan t root).catalog = c' := by
  obtain ⟨l', r'⟩ := r'
  have hscannable : c'.scannable t root = c.scannable t root := by
    rw [scannable, scannable]
    simp only [isExcluded, h.excluded]
  -- a file that can be loaded was known before the first scan or came with it
  have hcontains : ∀ p ∈ c.scannable t root, ∀ ds, Document.load t p = .ok ds →
      c'.contains p = true := by
    intro p hp ds hload
    have hkeys : ∀ q, c'.contains q = true ↔ q.parts ∈ c'.files.map Path.parts := by
      intro q
      rw [r'.contains, Listing.contains_iff, r'.files, List.map_map]
      rfl
    cases hknown : c.contains p with
    | true =>
        obtain ⟨more, hmore⟩ := h.records
        rw [contains, OrderedMap.contains_iff, OrderedMap.keys] at hknown ⊢
        rw [← hmore, List.map_append]
        exact List.mem_append_left _ hknown
    | false =>
        have hnew : ⟨p, ds⟩ ∈ new := (h.mem _).mpr ⟨(mem_scannable hwf).mp hp, hknown, hload⟩
        rw [hkeys, h.files, List.map_append, List.map_map]
        exact List.mem_append_right _ (List.mem_map_of_mem (f := Path.parts ∘ (·.path)) hnew)
  rw [catalog_scan, hscannable]
  -- so no file comes in, in whatever order they are looked at
  generalize hps : c.scannable t root = ps at hcontains
  clear hps hscannable
  induction ps with
  | nil => rfl
  | cons p rest ih =>
      have hstep : enter t c' p = c' := by
        unfold enter
        cases hload : Document.load t p with
        | error e => rfl
        | ok ds => exact if_pos (hcontains p List.mem_cons_self ds hload)
      rw [List.foldl_cons, hstep]
      exact ih fun p hp => hcontains p (List.mem_cons_of_mem _ hp)

theorem scan_same (h : t.Same t') (hwf : t.WellFormed) : c.scan t' root = c.scan t root := by
  have hload : ∀ p, Document.load t' p = Document.load t p := fun p =>
    Document.load_congr (h.read p)
  have hfile : scanFile t' = scanFile t := by
    funext s p
    rw [scanFile, scanFile, hload]
  rw [scan, scan, scannable, scannable, h.walk hwf, hfile]

/-- A file that cannot be loaded might as well not be there. -/
theorem scan_without (hwf : t.WellFormed) {place names : Place} {content : ByteArray}
    (hroot : t.locate root = .ok place)
    (hentry : t.entry? (place ++ names) = some (.file content)) {e : LoadError}
    (hload : Document.load t (root.descend names) = .error e) :
    (c.scan (t.erase (place ++ names)) root).catalog = (c.scan t root).catalog := by
  have hscannable : c.scannable (t.erase (place ++ names)) root
      = (c.scannable t root).filter (· ≠ root.descend names) := by
    rw [scannable, FileTree.walk_erase hwf hroot hentry, List.filter_comm]
    rfl
  rw [catalog_scan, catalog_scan, hscannable, List.foldl_filter]
  refine List.foldl_ext _ _ _ fun c' p hp => ?_
  by_cases hfile : p = root.descend names
  · have hstay : enter t c' p = c' := by
      rw [enter, hfile, hload]
      rfl
    rw [hstay, if_neg (by simpa using hfile)]
  · have hread := FileTree.read_erase hwf hroot hentry (List.mem_of_mem_filter hp) hfile
    rw [if_pos (by simpa using hfile), enter, enter, Document.load_congr hread]

/-! ## The count and the warnings -/

theorem count_foldl_scanFile (ps : List Path) (s : Scan) : (ps.foldl (scanFile t) s).count
    = s.count + ps.countP fun p => (Document.load t p).toOption.isSome := by
  induction ps generalizing s with
  | nil => rfl
  | cons p rest ih =>
      rw [List.foldl_cons, ih, List.countP_cons, scanFile]
      cases Document.load t p with
      | ok ds => exact Nat.add_right_comm s.count 1 _
      | error e => rfl

theorem count_scan : (c.scan t root).count
    = (c.scannable t root).countP fun p => (Document.load t p).toOption.isSome := by
  rw [scan, count_foldl_scanFile, Nat.zero_add]

/-- The known files that a scan loads again. -/
def loadedAgain (c : Catalog) (t : FileTree) (root : Path) : List Path :=
  (c.scannable t root).filter fun p => c.contains p && (Document.load t p).toOption.isSome

theorem mem_loadedAgain (hwf : t.WellFormed) : p ∈ c.loadedAgain t root
    ↔ c.Considers t root p ∧ c.contains p = true ∧ ∃ ds, Document.load t p = .ok ds := by
  rw [loadedAgain, List.mem_filter, mem_scannable hwf, Bool.and_eq_true]
  cases Document.load t p <;> simp [Except.toOption]

/-- A file that is loaded comes in or is known. -/
theorem Refines.count_scan (r : c.Refines l) : (c.scan t root).count
    = ((c.scannable t root).filterMap (l.entering? t)).length
      + (c.loadedAgain t root).length := by
  have hentering : ∀ p, (l.entering? t p).isSome
      = ((Document.load t p).toOption.isSome && !c.contains p) := by
    intro p
    rw [Listing.entering?, r.contains]
    cases l.contains p <;> cases Document.load t p <;> rfl
  rw [Catalog.count_scan, List.countP_eq_countP_filter_add _ _ c.contains, Nat.add_comm,
    List.countP_filter, List.countP_filter, List.length_filterMap_eq_countP, loadedAgain,
    ← List.countP_eq_length_filter]
  simp only [hentering, Bool.and_comm]

/-- What is said when a scan looks at a file is said of that file. -/
theorem warnings_scanFile (s : Scan) (p : Path) : ∃ ws,
    (scanFile t s p).warnings = s.warnings ++ ws ∧ ∀ w ∈ ws, w.file? = some p := by
  unfold scanFile insertWarnings
  cases Document.load t p with
  | error e => exact ⟨_, rfl, by simp [Warning.file?]⟩
  | ok ds =>
      refine ⟨_, rfl, fun w hw => ?_⟩
      split at hw
      · cases List.mem_singleton.mp hw
        rfl
      · cases hw

/-- A file that cannot be loaded gives a warning each time that a scan looks at it. -/
theorem warnings_foldl_scanFile {e : LoadError} (hload : Document.load t p = .error e)
    {ps : List Path} (hnodup : ps.Nodup) (s : Scan) :
    (ps.foldl (scanFile t) s).warnings.filter (·.file? = some p)
      = s.warnings.filter (·.file? = some p) ++ if p ∈ ps then [.unreadable p e] else [] := by
  induction ps generalizing s with
  | nil => exact (List.append_nil _).symm
  | cons q rest ih =>
      rw [List.nodup_cons] at hnodup
      rw [List.foldl_cons, ih hnodup.2]
      -- a warning names the file that it is about
      by_cases hq : p = q
      · subst hq
        have hstep : (scanFile t s p).warnings = s.warnings ++ [.unreadable p e] := by
          rw [scanFile, hload]
        rw [hstep, if_neg hnodup.1, if_pos List.mem_cons_self, List.append_nil,
          List.filter_append]
        simp [Warning.file?]
      · obtain ⟨ws, hws, hfile⟩ := warnings_scanFile (t := t) s q
        have hother : ws.filter (·.file? = some p) = [] := by
          refine List.filter_eq_nil_iff.mpr fun w hw => ?_
          simpa [hfile w hw] using Ne.symm hq
        rw [hws, List.filter_append, hother, List.append_nil]
        simp [hq]

/-! ## Scans -/

theorem passesOver (r : c.Refines l) (hwf : t.WellFormed) (hp : c.Considers t root p)
    {e : LoadError} (hload : Document.load t p = .error e) :
    PassesOver c t root p (c.scan t root) := by
  have hnodup : (c.scannable t root).Nodup := (nodup_scannable hwf).of_map _
  have r' := r.scan_files hwf root
  exact {
    warning := by
      refine ⟨e, hload, ?_⟩
      rw [scan, warnings_foldl_scanFile hload hnodup, if_pos ((mem_scannable hwf).mpr hp)]
      rfl
    documentsOf := by
      have hnew : ∀ f ∈ (c.scannable t root).filterMap (l.entering? t),
          f.path.parts ≠ p.parts := by
        intro f hf hparts
        obtain ⟨q, hq, hf⟩ := List.mem_filterMap.mp hf
        obtain ⟨rfl, -, hfload⟩ := Listing.entering?_eq_some.mp hf
        -- no two files of a scan have the same parts
        have heq := List.inj_on_of_nodup_map (nodup_scannable hwf) hq
          ((mem_scannable hwf).mpr hp) hparts
        rw [heq, hload] at hfload
        cases hfload
      rw [r'.documentsOf, r.documentsOf, Listing.documentsOf, Listing.documentsOf,
        List.find?_append]
      have hnone : ((c.scannable t root).filterMap (l.entering? t)).find?
          (·.path.parts = p.parts) = none :=
        List.find?_eq_none.mpr fun f hf => by simpa using hnew f hf
      rw [hnone, Option.or_none]
    without := by
      rintro place names content hroot rfl hentry
      exact scan_without hwf hroot hentry hload }

/-- A scan of any catalog. The YAML files at or below the path that are not excluded, can
be loaded and are not known come in, in the order of their octets, and nothing else
changes. A file that cannot be loaded, as is each with a faulty document, gives one
warning, and the scan is as if it were not there. The order in which a tree has its
entries does not matter, and to scan it again changes nothing. -/
theorem ofOperations_scan (ops : List Operation) {t : FileTree} (hwf : t.WellFormed)
    (root : Path) :
    let c := ofOperations ops
    let s := c.scan t root
    (∃ new, Brings c t root new s.catalog)
      ∧ (∀ p, c.Considers t root p → (∃ e, Document.load t p = .error e) →
        PassesOver c t root p s)
      ∧ (∀ p text, t.readText p = .ok text → Document.Faulty text →
        ∃ e, Document.load t p = .error e)
      ∧ (∀ t', t.Same t' → c.scan t' root = s)
      ∧ (s.catalog.scan t root).catalog = s.catalog := by
  intro c s
  have r := refines_ofOperations ops
  have hbrings := exists_brings r hwf root
  refine ⟨⟨_, hbrings⟩, ?_, ?_, ?_, ?_⟩
  · rintro p hp ⟨e, he⟩
    exact passesOver r hwf hp he
  · intro p text htext hfaulty
    exact (Document.exists_load_error_iff htext).mpr hfaulty
  · exact fun t' h => scan_same h hwf
  · exact scan_again hwf hbrings ⟨_, r.scan_files hwf root⟩

namespace Sample

/-- A directory `a` beside `a.yaml`, an excluded file, one that is no YAML, and one with a
faulty document behind a good one. -/
def grown : FileTree :=
  ⟨.ofList [(["a.yaml"], .file "kind: Model\n".toUTF8), (["a"], .directory),
    (["a", "c.yml"], .file "kind: Model\n".toUTF8),
    (["a", "b.txt"], .file "kind: Model\n".toUTF8),
    (["a", "b.yml"], .file "kind: Model\n".toUTF8),
    (["bad.yml"], .file "kind: Model\n---\nModel\n".toUTF8)], [], []⟩

def before : List Operation := [.exclude ⟨"./a//b.yml"⟩, .insert ⟨"./c.yml"⟩ []]

theorem wellFormed_grown : grown.WellFormed := by decide

/-- The files of the directory come in before `a.yaml`; a second scan finds two files and
adds none. -/
theorem scans :
    ((ofOperations before).scan grown ⟨"."⟩).catalog.files
        = [⟨"./c.yml"⟩, ⟨"./a/c.yml"⟩, ⟨"./a.yaml"⟩]
      ∧ (ofOperations (before ++ [.scan grown ⟨"."⟩])).files.length = 3
      ∧ ((ofOperations (before ++ [.scan grown ⟨"."⟩])).scan grown ⟨"."⟩).count = 2
      ∧ ((ofOperations (before ++ [.scan grown ⟨"."⟩])).scan grown ⟨"."⟩).catalog.files.length
        = 3 := by
  decide +kernel

end Sample

theorem ofOperations_scan_grown :
    Sample.grown.WellFormed
      ∧ (∃ new, Brings (ofOperations Sample.before) Sample.grown ⟨"."⟩ new
          ((ofOperations Sample.before).scan Sample.grown ⟨"."⟩).catalog
        ∧ new.map (·.path) = [⟨"./a/c.yml"⟩, ⟨"./a.yaml"⟩]) := by
  have hwf := Sample.wellFormed_grown
  obtain ⟨⟨new, hnew⟩, -⟩ := ofOperations_scan Sample.before hwf ⟨"."⟩
  refine ⟨hwf, new, hnew, ?_⟩
  have hfiles := hnew.files
  rw [Sample.scans.1] at hfiles
  exact (List.cons.inj hfiles).2.symm

/-- A scan counts the files that it could load. Besides those that have come in these are
the ones that were known, so the count is the number of new files just where no file is
loaded again. -/
theorem ofOperations_scan_count (ops : List Operation) {t : FileTree} (hwf : t.WellFormed)
    (root : Path) :
    let c := ofOperations ops
    let s := c.scan t root
    ∃ new again : List Path, s.catalog.files = c.files ++ new
      ∧ again.Nodup
      ∧ (∀ p, p ∈ again ↔ c.Considers t root p ∧ c.contains p = true
        ∧ ∃ ds, Document.load t p = .ok ds)
      ∧ s.count = new.length + again.length
      ∧ (c.files.length + s.count = s.catalog.files.length ↔ again = []) := by
  intro c s
  have r : c.Refines _ := refines_ofOperations ops
  have hfiles := (exists_brings r hwf root).files
  have hcount : s.count = _ := r.count_scan
  refine ⟨_, c.loadedAgain t root, hfiles, ((nodup_scannable hwf).of_map _).filter _,
    fun p => mem_loadedAgain hwf, ?_, ?_⟩
  · rw [List.length_map, hcount]
  · rw [hfiles, hcount, List.length_append, List.length_map, ← List.length_eq_zero_iff]
    omega

theorem ofOperations_scan_count_grown :
    Sample.grown.WellFormed ∧ ∃ new again : List Path,
      ((ofOperations Sample.before).scan Sample.grown ⟨"."⟩).catalog.files
          = [⟨"./c.yml"⟩] ++ new
        ∧ ((ofOperations Sample.before).scan Sample.grown ⟨"."⟩).count
          = new.length + again.length := by
  obtain ⟨new, again, hfiles, -, -, hcount, -⟩ :=
    ofOperations_scan_count Sample.before Sample.wellFormed_grown ⟨"."⟩
  exact ⟨Sample.wellFormed_grown, new, again, hfiles, hcount⟩

/-- The count is not that of the files that have come in. -/
theorem scan_count_of_scanned :
    ¬∀ (ops : List Operation) (t : FileTree) (root : Path), t.WellFormed →
      (ofOperations ops).files.length + ((ofOperations ops).scan t root).count
        = ((ofOperations ops).scan t root).catalog.files.length := by
  intro h
  have hsum := h (Sample.before ++ [.scan Sample.grown ⟨"."⟩]) Sample.grown ⟨"."⟩
    Sample.wellFormed_grown
  obtain ⟨-, hbefore, hcount, hafter⟩ := Sample.scans
  rw [hbefore, hcount, hafter] at hsum
  cases hsum

end Catalog

end SimAnnotate
