import SimAnnotate.Proofs.Catalog.Listing
import SimAnnotate.Proofs.Catalog.Steps

/-!
# A catalog holds the files of its listing

`Catalog.Refines` ties the three containers of a catalog to a listing: the
documents of a kind are those of all files in order, the handles kept for a
file are the numbers of its documents, and only known files are flagged. Each
operation on the catalog does what its plain counterpart does
(`Refines.after`), so the catalog that operations build refines the listing
that they build (`refines_ofOperations`).
-/

namespace SimAnnotate

open Document (ofKind number handleAfter editAt)

/-! ## What a catalog keeps for files -/

namespace Listing

/-- The records of files behind documents. -/
def records : List Document → List FileContent →
    List (List Path.Part × FileRecord)
  | _, [] => []
  | before, x :: rest =>
      (x.path.parts, ⟨x.path, number before x.documents⟩)
        :: records (before ++ x.documents) rest

theorem records_append (before : List Document) (xs ys : List FileContent) :
    records before (xs ++ ys)
      = records before xs
        ++ records (before ++ xs.flatMap (·.documents)) ys := by
  induction xs generalizing before with
  | nil => simp [records]
  | cons x xs ih => simp [records, ih]

theorem keys_records (before : List Document) (fs : List FileContent) :
    (records before fs).map Prod.fst = fs.map (·.path.parts) := by
  induction fs generalizing before with
  | nil => rfl
  | cons x rest ih => simp [records, ih]

theorem paths_records (before : List Document) (fs : List FileContent) :
    (records before fs).map (·.2.path) = fs.map (·.path) := by
  induction fs generalizing before with
  | nil => rfl
  | cons x rest ih => simp [records, ih]

theorem handles_records (before : List Document) (fs : List FileContent) :
    (records before fs).flatMap (·.2.handles)
      = number before (fs.flatMap (·.documents)) := by
  induction fs generalizing before with
  | nil => rfl
  | cons x rest ih =>
      simp only [records, List.flatMap_cons, Document.number_append, ih]

/-- The record of a path addresses the documents of its file. -/
theorem get?_records (before : List Document) (fs : List FileContent)
    (q : List Path.Part) :
    (Entries.get? (records before fs) q).map (fun r => r.handles.filterMap fun h =>
        (ofKind h.kind (before ++ fs.flatMap (·.documents)))[h.position]?)
      = (fs.find? (·.path.parts = q)).map (·.documents) := by
  induction fs generalizing before with
  | nil => rfl
  | cons x rest ih =>
      by_cases hx : x.path.parts = q
      · have hhandles := congrArg (List.filterMap id)
          (Document.get?_number before x.documents (rest.flatMap (·.documents)))
        simpa [records, Entries.get?, hx] using hhandles
      · have hrest := ih (before ++ x.documents)
        rw [List.append_assoc] at hrest
        simpa [records, Entries.get?, hx] using hrest

theorem documents_eq (l : Listing) (k : Kind) :
    l.documents k = ofKind k l.all := by
  simp only [documents, all, ofKind, List.filter_flatMap]

theorem get?_eq (l : Listing) (h : Handle) :
    l.get? h = (ofKind h.kind l.all)[h.position]? := by
  rw [get?, documents_eq]

theorem contains_iff {l : Listing} {p : Path} :
    l.contains p = true ↔ p.parts ∈ l.files.map (·.path.parts) := by
  simp [contains]

theorem files_flag (l : Listing) (p : Path) : (l.flag p).files = l.files := by
  unfold flag
  split <;> rfl

theorem files_flagFile (l : Listing) (d : Document) : (l.flagFile d).files = l.files := by
  unfold flagFile
  split
  · exact l.files_flag _
  · rfl

/-! ## Changing a document of a listing -/

section

variable {h : Handle} {f : Document → Document}

theorem flatMap_editFiles (before : List Document) (fs : List FileContent) :
    (editFiles h f before fs).flatMap (·.documents)
      = editAt h f before (fs.flatMap (·.documents)) := by
  induction fs generalizing before with
  | nil => rfl
  | cons x rest ih =>
      simp only [editFiles, List.flatMap_cons, Document.editAt_append, ih]

theorem paths_editFiles (before : List Document) (fs : List FileContent) :
    (editFiles h f before fs).map (·.path) = fs.map (·.path) := by
  induction fs generalizing before with
  | nil => rfl
  | cons x rest ih => simp [editFiles, ih]

/-- A change that keeps kinds keeps the records. -/
theorem records_editFiles (hf : ∀ d, (f d).kind = d.kind)
    {before before' : List Document}
    (hb : before'.map Document.kind = before.map Document.kind)
    (fs : List FileContent) :
    records before' (editFiles h f before fs) = records before fs := by
  induction fs generalizing before before' with
  | nil => rfl
  | cons x rest ih =>
      have hk := Document.map_editAt (h := h) Document.kind hf before x.documents
      have hb' : (before' ++ editAt h f before x.documents).map Document.kind
          = (before ++ x.documents).map Document.kind := by
        rw [List.map_append, List.map_append, hb, hk]
      rw [editFiles, records, records, Document.number_congr hb hk, ih hb']

theorem filed_editFiles (hf : ∀ d, (f d).file = d.file) (before : List Document)
    {fs : List FileContent}
    (hfs : ∀ x ∈ fs, ∀ d ∈ x.documents, d.file = some x.path) :
    ∀ x ∈ editFiles h f before fs, ∀ d ∈ x.documents, d.file = some x.path := by
  induction fs generalizing before with
  | nil => simp [editFiles]
  | cons y rest ih =>
      intro x hx d hd
      rcases List.mem_cons.mp hx with rfl | hx
      · have hfile := List.mem_map_of_mem (f := Document.file) hd
        rw [Document.map_editAt Document.file hf] at hfile
        obtain ⟨d', hd', he⟩ := List.mem_map.mp hfile
        exact he ▸ hfs y List.mem_cons_self d' hd'
      · exact ih _ (fun x hx => hfs x (List.mem_cons_of_mem y hx)) x hx d hd

theorem contains_edit (l : Listing) (p : Path) :
    (l.edit h f).contains p = l.contains p := by
  have h := congrArg (List.map Path.parts) (paths_editFiles (h := h) (f := f) [] l.files)
  rw [List.map_map, List.map_map] at h
  rw [Bool.eq_iff_iff, contains_iff, contains_iff]
  exact Eq.to_iff (congrArg (p.parts ∈ ·) h)

end

end Listing

/-! ## The relation -/

/-- The catalog holds what the listing says. -/
structure Catalog.Refines (c : Catalog) (l : Listing) : Prop where
  documents : ∀ k, c.documents k = ofKind k l.all
  records : c.records.entries = Listing.records [] l.files
  flagged : c.flagged.entries = l.flagged.map fun p => (p.parts, p)
  excluded : c.excluded = l.excluded
  filed : ∀ f ∈ l.files, ∀ d ∈ f.documents, d.file = some f.path
  known : ∀ p ∈ l.flagged, l.contains p = true

namespace Catalog.Refines

variable {c : Catalog} {l : Listing}

theorem get? (r : c.Refines l) (h : Handle) : c.get? h = l.get? h := by
  rw [Catalog.get?, r.documents, Listing.get?_eq]

/-- A document that is found is one of a file. -/
theorem exists_file (r : c.Refines l) {h : Handle} {d : Document}
    (hd : c.get? h = some d) : ∃ f ∈ l.files, d ∈ f.documents := by
  rw [r.get?, Listing.get?_eq] at hd
  have hmem := List.mem_of_mem_filter (List.mem_of_getElem? hd)
  exact List.mem_flatMap.mp hmem

/-- A document is kept among those of its kind. -/
theorem kind (r : c.Refines l) {h : Handle} {d : Document} (hd : c.get? h = some d) :
    d.kind = h.kind := by
  rw [Catalog.get?, r.documents] at hd
  simpa using List.of_mem_filter (List.mem_of_getElem? hd)

theorem keys (r : c.Refines l) :
    c.records.keys = l.files.map (·.path.parts) := by
  rw [OrderedMap.keys, r.records, Listing.keys_records]

theorem contains (r : c.Refines l) (p : Path) : c.contains p = l.contains p := by
  rw [Bool.eq_iff_iff, Catalog.contains, OrderedMap.contains_iff, r.keys,
    Listing.contains_iff]

theorem files (r : c.Refines l) : c.files = l.files.map (·.path) := by
  rw [Catalog.files, OrderedMap.values, r.records, List.map_map,
    ← Listing.paths_records []]
  rfl

/-- No two files have the same path. -/
theorem nodup (r : c.Refines l) : (l.files.map (·.path.parts)).Nodup := by
  rw [← r.keys]
  exact c.records.nodup

theorem isFlagged (r : c.Refines l) (p : Path) :
    c.isFlagged p = true ↔ p.parts ∈ l.flagged.map Path.parts := by
  rw [Catalog.isFlagged, OrderedMap.contains_iff, OrderedMap.keys, r.flagged,
    List.map_map]
  rfl

theorem flaggedValues (r : c.Refines l) : c.flagged.values = l.flagged := by
  rw [OrderedMap.values, r.flagged, List.map_map]
  exact List.map_id' _

theorem isFlagged_iff (r : c.Refines l) {p : Path} :
    c.isFlagged p = true ↔ ∃ q ∈ c.flagged.values, q.parts = p.parts := by
  rw [r.isFlagged, r.flaggedValues, List.mem_map]

/-- No path is flagged twice. -/
theorem nodup_flagged (r : c.Refines l) : (c.flagged.values.map Path.parts).Nodup := by
  have hkeys : c.flagged.keys = c.flagged.values.map Path.parts := by
    rw [OrderedMap.keys, OrderedMap.values, r.flagged]
    simp only [List.map_map]
    rfl
  rw [← hkeys]
  exact c.flagged.nodup

section

variable {c' : Catalog} {l' : Listing} (r : c.Refines l) (r' : c'.Refines l')
  (hfiles : l'.files = l.files)

include r r' hfiles

theorem get?_congr (h : Handle) : c'.get? h = c.get? h := by
  rw [r.get?, r'.get?, Listing.get?_eq, Listing.get?_eq, Listing.all, Listing.all, hfiles]

theorem records_congr : c'.records = c.records := by
  refine OrderedMap.ext_entries ?_
  rw [r.records, r'.records, hfiles]

end

end Catalog.Refines

theorem Catalog.refines_empty : Catalog.empty.Refines Listing.empty where
  documents _ := rfl
  records := rfl
  flagged := rfl
  excluded := rfl
  filed := by simp [Listing.empty]
  known := by simp [Listing.empty]

/-! ## Adding files -/

namespace Catalog

/-- Pushing documents appends them to their kinds and numbers them. -/
theorem foldl_push {c : Catalog} {before : List Document}
    (hc : ∀ k, c.documents k = ofKind k before) (p : Path) (ds : List Document)
    (hs : List Handle) :
    ∃ c' : Catalog,
      ds.foldl (push p) (c, hs) = (c', hs ++ number before ds)
        ∧ (∀ k, c'.documents k = ofKind k (before ++ Listing.filed p ds))
        ∧ c'.records = c.records ∧ c'.flagged = c.flagged
        ∧ c'.excluded = c.excluded := by
  induction ds generalizing c before hs with
  | nil => exact ⟨c, by simp [number], by simpa [Listing.filed] using hc, rfl, rfl, rfl⟩
  | cons d rest ih =>
      -- the catalog with one more document
      have hpush : push p (c, hs) d
          = ({ c with
                byKind := c.byKind.insert d.kind
                  (c.documents d.kind ++ [{ d with file := some p }]) },
              hs ++ [handleAfter before d]) := by
        rw [push, handleAfter, ← hc]
        rfl
      have hdocs : ∀ k, Catalog.documents
          { c with
            byKind := c.byKind.insert d.kind
              (c.documents d.kind ++ [{ d with file := some p }]) } k
            = ofKind k (before ++ [{ d with file := some p }]) := by
        intro k
        by_cases hk : k = d.kind
        · subst hk
          rw [Catalog.documents, OrderedMap.get?_insert_self, Option.getD_some,
            Document.ofKind_append, hc]
          exact congrArg (_ ++ ·) (Document.ofKind_cons_self _ []).symm
        · have hd : Document.kind { d with file := some p } ≠ k :=
            fun h => hk h.symm
          have hnone := (Document.ofKind_cons_ne hd []).trans (Document.ofKind_nil k)
          rw [Catalog.documents, OrderedMap.get?_insert_ne _ _ hk,
            Document.ofKind_append, hnone, List.append_nil, ← hc k]
          rfl
      obtain ⟨c', hfold, hdocs', hrecords, hflagged, hexcluded⟩ :=
        ih hdocs (hs ++ [handleAfter before d])
      refine ⟨c', ?_, ?_, hrecords, hflagged, hexcluded⟩
      · rw [List.foldl_cons, hpush, hfold, number, List.append_assoc,
          List.singleton_append]
        congr 3
        exact Document.number_congr (by simp [Document.kind]) rfl
      · simpa [Listing.filed] using hdocs'

namespace Refines

variable {c : Catalog} {l : Listing}

theorem insertNew (r : c.Refines l) {p : Path} (hp : l.contains p = false)
    (ds : List Document) :
    (c.insertNew p ds).Refines
      { l with files := l.files ++ [⟨p, Listing.filed p ds⟩] } := by
  obtain ⟨c', hfold, hdocs, hrecords, hflagged, hexcluded⟩ :=
    foldl_push r.documents p ds []
  -- handles are given out before the file is recorded, so `l.all` numbers them
  have hnew : c.insertNew p ds
      = { c' with records := c.records.insert p.parts ⟨p, number l.all ds⟩ } := by
    rw [Catalog.insertNew, hfold, ← hrecords]
    rfl
  have hp' : p.parts ∉ c.records.keys := by
    rw [← OrderedMap.contains_iff, ← Catalog.contains, r.contains, hp]
    exact Bool.false_ne_true
  have hall : Listing.all { l with files := l.files ++ [⟨p, Listing.filed p ds⟩] }
      = l.all ++ Listing.filed p ds := by simp [Listing.all]
  have hnumber : number l.all ds = number l.all (Listing.filed p ds) :=
    Document.number_congr rfl (by simp [Listing.filed, Document.kind])
  rw [hnew]
  exact {
    documents := fun k => by rw [hall]; exact hdocs k
    records := by
      rw [OrderedMap.entries_insert_of_not_mem hp', r.records,
        Listing.records_append, hnumber]
      rfl
    flagged := by rw [← r.flagged, ← hflagged]
    excluded := by rw [← r.excluded, ← hexcluded]
    filed := by
      intro f hf d hd
      rcases List.mem_append.mp hf with hf | hf
      · exact r.filed f hf d hd
      · rw [List.mem_singleton] at hf
        subst hf
        obtain ⟨d', -, rfl⟩ := List.mem_map.mp hd
        rfl
    known := by
      intro q hq
      have h := Listing.contains_iff.mp (r.known q hq)
      rw [Listing.contains_iff, List.map_append]
      exact List.mem_append_left _ h }

theorem insert (r : c.Refines l) (p : Path) (ds : List Document) :
    (c.insert p ds).Refines (l.insert p ds) := by
  unfold Catalog.insert Listing.insert
  rw [r.contains]
  split
  · exact r
  · next hp => exact r.insertNew (Bool.eq_false_iff.mpr hp) ds

/-- A scan adds the files that can be read, one after the other. -/
theorem foldl_scanFile (t : FileTree) (ps : List Path) {s : Scan}
    (r : s.catalog.Refines l) :
    (ps.foldl (scanFile t) s).catalog.Refines (ps.foldl (Listing.load t) l) := by
  induction ps generalizing s l with
  | nil => exact r
  | cons p rest ih =>
      refine ih ?_
      unfold scanFile Listing.load
      cases Document.load t p with
      | ok ds => exact r.insert p ds
      | error e => exact r

theorem scan (r : c.Refines l) (t : FileTree) (root : Path) :
    (c.scan t root).catalog.Refines (l.scan t root) := by
  have hs : c.scannable t root
      = (t.walk root).filter fun p => isYaml p && !l.excluded.contains p.parts := by
    rw [← r.excluded, scannable]
    simp only [isExcluded, List.contains_eq_mem]
  rw [Listing.scan, ← hs]
  exact foldl_scanFile t (c.scannable t root) (s := ⟨c, 0, []⟩) r

theorem add (r : c.Refines l) (t : FileTree) (p : Path) :
    ((c.add t p).toOption.getD c).Refines
      (if l.contains p then l else l.load t p) := by
  unfold Catalog.add
  rw [r.contains]
  split
  · exact r
  · next hp =>
      have hp := Bool.eq_false_iff.mpr hp
      unfold Listing.load Listing.insert
      cases Document.load t p with
      | error e => exact r
      | ok ds =>
          rw [hp]
          exact r.insertNew hp ds

/-! ## Flags -/

theorem flag (r : c.Refines l) (p : Path) : (c.flag p).Refines (l.flag p) := by
  have hflagged : c.isFlagged p = !l.flagged.all (·.parts ≠ p.parts) := by
    rw [Bool.eq_iff_iff, r.isFlagged]
    simp
  unfold Catalog.flag Listing.flag
  rw [r.contains, hflagged, Bool.not_not]
  -- a path that is not known or is flagged already changes nothing on either side
  split
  · next h =>
      rw [Bool.and_eq_true] at h
      have hp : p.parts ∉ c.flagged.keys := by
        rw [← OrderedMap.contains_iff]
        change ¬ c.isFlagged p = true
        rw [hflagged, h.2]
        exact Bool.false_ne_true
      exact { r with
        flagged := by
          rw [OrderedMap.entries_insert_of_not_mem hp, r.flagged, List.map_append]
          rfl
        known := by
          intro q hq
          rcases List.mem_append.mp hq with hq | hq
          · exact r.known q hq
          · rw [List.mem_singleton.mp hq]
            exact h.1 }
  · exact r

theorem unflagAll (r : c.Refines l) :
    c.unflagAll.Refines { l with flagged := [] } :=
  { r with
    flagged := rfl
    known := fun _ hp => absurd hp List.not_mem_nil }

theorem exclude (r : c.Refines l) (p : Path) :
    (c.exclude p).Refines { l with excluded := l.excluded ++ [p.parts] } :=
  { r with excluded := congrArg (· ++ [p.parts]) r.excluded }

/-! ## Changing documents -/

/-- A change that keeps kinds and files is one of the listing. -/
theorem modify (r : c.Refines l) (h : Handle) {f : Document → Document}
    (hkind : ∀ d, (f d).kind = d.kind) (hfile : ∀ d, (f d).file = d.file) :
    (c.modify h f).Refines (l.edit h f) := by
  have hall : (l.edit h f).all = editAt h f [] l.all :=
    Listing.flatMap_editFiles [] l.files
  exact {
    documents := by
      intro k
      rw [hall, Document.ofKind_editAt hkind, ← r.documents k, documents_modify]
    records := by
      rw [Catalog.modify, r.records]
      exact (Listing.records_editFiles hkind rfl l.files).symm
    flagged := r.flagged
    excluded := r.excluded
    filed := Listing.filed_editFiles hfile [] r.filed
    known := fun p hp => by
      rw [Listing.contains_edit]
      exact r.known p hp }

theorem flagFile (r : c.Refines l) (d : Document) :
    (References.flagFile c d).Refines (l.flagFile d) := by
  unfold References.flagFile Listing.flagFile
  cases d.file with
  | none => exact r
  | some p => exact r.flag p

/-! ## Saving -/

theorem documentsOf (r : c.Refines l) (p : Path) :
    c.documentsOf p = l.documentsOf p := by
  have hget : c.get? = fun h => (ofKind h.kind l.all)[h.position]? := by
    funext h
    rw [r.get?, Listing.get?_eq]
  rw [Catalog.documentsOf, Listing.documentsOf, OrderedMap.get?, r.records, hget]
  exact congrArg (·.getD []) (Listing.get?_records [] l.files p.parts)

/-- A document of a file remembers the path of the file. -/
theorem file_of_mem (r : c.Refines l) {p : Path} {d : Document}
    (hd : d ∈ c.documentsOf p) :
    ∃ f ∈ l.files, d.file = some f.path ∧ f.path.parts = p.parts := by
  rw [r.documentsOf, Listing.documentsOf] at hd
  cases hf : l.files.find? (·.path.parts = p.parts) with
  | none =>
      rw [hf] at hd
      cases hd
  | some f =>
      rw [hf] at hd
      have hmem := List.mem_of_find?_eq_some hf
      have hparts : f.path.parts = p.parts := by simpa using List.find?_some hf
      exact ⟨f, hmem, r.filed f hmem d hd, hparts⟩

/-- The documents of a file are those that are listed with it. -/
theorem documentsOf_file (r : c.Refines l) {f : FileContent} (hf : f ∈ l.files) :
    c.documentsOf f.path = f.documents := by
  obtain ⟨before, after, hsplit⟩ := List.append_of_mem hf
  have hnodup := r.nodup
  rw [hsplit, List.map_append, List.map_cons, List.nodup_append] at hnodup
  have hfind : l.files.find? (·.path.parts = f.path.parts) = some f := by
    refine List.find?_eq_some_iff_append.mpr
      ⟨decide_eq_true rfl, before, after, hsplit, fun g hg => ?_⟩
    have hne := hnodup.2.2 _ (List.mem_map_of_mem hg) _ List.mem_cons_self
    simpa using hne
  rw [r.documentsOf, Listing.documentsOf, hfind]
  rfl

theorem writeFiles (r : c.Refines l) (t : FileTree) (ps : List Path) :
    (c.writeFiles t ps).2.isNone = l.canWrite t ps := by
  induction ps generalizing t with
  | nil => rfl
  | cons p rest ih =>
      rw [Catalog.writeFiles, Listing.canWrite, r.documentsOf]
      cases Catalog.writeFile t p (l.documentsOf p) with
      | ok t => exact ih t
      | error e => rfl

theorem saveFiles (r : c.Refines l) (t : FileTree) (ps : List Path) :
    (c.saveFiles t ps).catalog.Refines (l.save t ps) := by
  have h := r.writeFiles t ps
  unfold Catalog.saveFiles Listing.save
  rw [← h]
  obtain ⟨t', e⟩ := c.writeFiles t ps
  cases e with
  | none => exact r.unflagAll
  | some e => exact r

/-! ## References and the summary -/

theorem channel? (r : c.Refines l) (d : Document) :
    Wiring.channel? c d = l.channel? d := by
  have hdocs : ∀ k, c.documents k = l.documents k := fun k => by
    rw [r.documents, Listing.documents_eq]
  rw [Wiring.channel?, Wiring.candidates, Wiring.stack, Catalog.stackDocument,
    Listing.channel?, hdocs, hdocs]
  cases l.documents .stack with
  | nil => rfl
  | cons s rest => cases rest <;> rfl

theorem tableChannel? (r : c.Refines l) (d : Document) (policy : ReferencePolicy) :
    References.channel? c policy d = l.tableChannel? d policy := by
  cases policy with
  | counter last => rfl
  | table t => exact r.channel? d

theorem annotate (r : c.Refines l) (h : Handle) (rules : RuleSet)
    (policy : ReferencePolicy) :
    (((References.annotate c h rules policy).toOption.map (·.catalog)).getD
      c).Refines (l.annotate h rules policy) := by
  rw [References.annotate_eq]
  unfold Listing.annotate Listing.referred? References.referred
  rw [← r.get?]
  cases c.get? h with
  | none => exact r
  | some d =>
      dsimp only
      rw [r.tableChannel?]
      -- both sides refuse for the same reasons, and revise the same signals otherwise
      cases References.isBinary d with
      | true => exact r
      | false =>
          cases l.tableChannel? d policy with
          | error e => exact r
          | ok channel =>
              cases d.signalGroup? with
              | none => exact r
              | some g =>
                  exact (r.modify h (fun d => d.kind_mapSignals _)
                    (fun d => d.file_mapSignals _)).flagFile d

theorem summarise (r : c.Refines l) (sim : Path) :
    ((StackSummary.annotate c sim).toOption.getD c).Refines (l.summarise sim) := by
  have hdocs : c.documents .stack = l.documents .stack := by
    rw [r.documents, Listing.documents_eq]
  have hnames : StackSummary.filesBelow c sim
      = (l.files.map (·.path)).filterMap (·.below? sim) := by
    rw [StackSummary.filesBelow, r.files]
  rw [StackSummary.annotate_eq, hnames, Catalog.stackDocument, hdocs]
  unfold Listing.summarise
  -- there is something to summarise only where there is one Stack
  cases l.documents .stack with
  | nil => exact r
  | cons d rest =>
      cases rest with
      | nil =>
          have hchange := r.modify ⟨.stack, 0⟩
            (f := StackSummary.summarise
              ((l.files.map (·.path)).filterMap (·.below? sim)))
            (fun _ => rfl) (fun _ => rfl)
          exact hchange.flagFile d
      | cons d' rest => exact r

/-! ## Runs of operations -/

/-- Every operation does what its plain counterpart does. -/
theorem after (r : c.Refines l) (op : Operation) :
    (c.after op).Refines (l.after op) := by
  cases op with
  | exclude p => exact r.exclude p
  | scan t root => exact r.scan t root
  | add t p => exact r.add t p
  | insert p ds => exact r.insert p ds
  | flag p => exact r.flag p
  | save t =>
      rw [Catalog.after, Catalog.save, r.flaggedValues]
      exact r.saveFiles t l.flagged
  | saveAll t =>
      rw [Catalog.after, Catalog.saveAll, r.files]
      exact r.saveFiles t (l.files.map (·.path))
  | annotate h rules policy => exact r.annotate h rules policy
  | summarise sim => exact r.summarise sim
  | edit h e =>
      exact r.modify h (fun d => Document.kind_of_bare (e.bare_change d))
        (fun d => Document.file_of_bare (e.bare_change d))

end Refines

theorem refines_ofOperations (ops : List Operation) :
    (ofOperations ops).Refines (Listing.ofOperations ops) := by
  have hrun : ∀ {c : Catalog} {l : Listing}, c.Refines l →
      (ops.foldl Catalog.after c).Refines (ops.foldl Listing.after l) := by
    induction ops with
    | nil => exact id
    | cons op rest ih => exact fun r => ih (r.after op)
  exact hrun refines_empty

end Catalog

end SimAnnotate
