import SimAnnotate.Proofs.Catalog.Saving
import SimAnnotate.Proofs.Catalog.Soundness
import SimAnnotate.Proofs.OffsetTable
import SimAnnotate.Proofs.Run.Scan

/-!
# The documents of a run

Between reading and saving a run has the files that it read and, behind them, the
file of the offset table (`refines_opened`). It revises documents of the selected
groups and the Stack (`evolves`), so what it flags are files that it read
(`exists_file_of_flagged`), and all documents stay sound.
-/

namespace SimAnnotate

namespace Run

/-! ## What is assumed of YAML -/

/-- The texts that are written give back the values that they are written for. -/
structure Progress.GivesBack (p : Progress) : Prop where
  files : ∀ q ∈ p.catalog.flagged.values,
    ∀ text ∈ (Document.printAll (p.catalog.documentsOf q)).toOption,
      Yaml.Stream.Gives text ((p.catalog.documentsOf q).filterMap Document.encode?)
  table : ∀ t ∈ p.policy.table?, ∀ text ∈ t.text.toOption,
    Yaml.Stream.Gives text (t.documents.filterMap Document.encode?)

theorem Progress.givesBack_iff {p : Progress} : p.GivesBack ↔
    p.catalog.GivesBack p.catalog.flagged.values
      ∧ ∀ t ∈ p.policy.table?, ∀ css ∈ t.documents.mapM Document.chars?, Yaml.Stream.Gives
          (String.ofList (css.flatMap (Document.separator.toList ++ ·)))
          (t.documents.filterMap Document.encode?) := by
  simp only [← OffsetTable.gives_text_iff]
  exact ⟨fun h => ⟨h.files, h.table⟩, fun h => ⟨h.1, h.2⟩⟩

instance (p : Progress) : Decidable p.GivesBack :=
  decidable_of_iff _ Progress.givesBack_iff.symm

/-- The files that a run writes. -/
def writtenFiles (o : Options) (p : Progress) : List Path :=
  (if o.index then [o.indexFile] else []) ++ p.catalog.flagged.values

variable {o : Options} {t t' : FileTree} {place : Place}

/-! ## The offset table among the files -/

/-- The file that a run adds behind those that it reads. -/
def addedFiles (o : Options) (policy : ReferencePolicy) : List FileContent :=
  (policy.table?.map fun t =>
    ⟨o.indexFile, Listing.filed o.indexFile t.documents⟩).toList

theorem kind_of_addedFiles {policy : ReferencePolicy} {f : FileContent}
    (hf : f ∈ addedFiles o policy) {d : Document} (hd : d ∈ f.documents) :
    d.kind = .signalGroup ∧ d.Sound := by
  cases policy with
  | counter last => cases hf
  | table t =>
      rw [addedFiles, ReferencePolicy.table?, Option.map_some, Option.toList_some,
        List.mem_singleton] at hf
      subst hf
      obtain ⟨d', hd', rfl⟩ := List.mem_map.mp hd
      have hsound := t.sound_documents d' hd'
      obtain ⟨e, -, rfl⟩ := List.mem_map.mp hd'
      exact ⟨rfl, ⟨hsound.annotations, hsound.spec⟩⟩

/-- A file is read as the documents of the text that is there. -/
theorem load_of_text {p : Path} {q : Place} (hq : t.locate p = .ok q) {text : String}
    (hentry : t.entry? q = some (.file text.toUTF8)) {ds : List Document}
    (hparse : Document.parse text = .ok ds) :
    Document.load t p = .ok (Listing.filed p ds) :=
  Document.load_eq_ok.mpr ⟨text, ds, FileTree.readText_of_entry? hq hentry, hparse, rfl⟩

/-- The files that groups are annotated among. -/
theorem refines_opened {c c' : Catalog} {l : Listing} (r : c.Refines l)
    {handles : List Handle} {policy : ReferencePolicy}
    (hopened : Opened o c handles t c' policy t')
    (hnew : o.index = true → l.contains o.indexFile = false)
    (hload : ∀ table ∈ policy.table?, Document.load t' o.indexFile
      = .ok (Listing.filed o.indexFile table.documents)) :
    c'.Refines { l with files := l.files ++ addedFiles o policy } := by
  unfold Opened at hopened
  split at hopened
  · next hindex =>
      obtain ⟨table, rfl, htabled⟩ := hopened
      have hadded := htabled.added
      rw [Catalog.add, r.contains, hnew hindex, if_neg Bool.false_ne_true,
        hload table rfl] at hadded
      cases hadded
      have hc' := r.insertNew (hnew hindex) (Listing.filed o.indexFile table.documents)
      rw [Listing.filed_filed] at hc'
      exact hc'
  · obtain ⟨rfl, rfl, -⟩ := hopened
    rw [addedFiles, ReferencePolicy.table?, Option.map_none, Option.toList_none,
      List.append_nil]
    exact r

theorem contains_listing (hwf : t.WellFormed) (hsim : t.locate o.sim = .ok place)
    (hindex : o.index = true) : (listing o t).contains o.indexFile = false := by
  rw [Listing.contains, List.any_eq_false]
  intro f hf
  rw [decide_eq_true_eq]
  obtain ⟨names, hreads⟩ := reads_of_mem hwf hsim (mem_files_listing hf).1
  exact hreads.ne_index hsim hindex

/-- A simulation with a Stack is there. -/
theorem exists_place_of_stack (hstack : ∃ h, (scanned o t).catalog.stackHandle = .ok h) :
    ∃ place, t.locate o.sim = .ok place := by
  cases hsim : t.locate o.sim with
  | ok place => exact ⟨place, rfl⟩
  | error e =>
      have hpaths : scanPaths o t = [] := by
        rw [scanPaths, FileTree.walk, hsim]
        rfl
      have r := refines_scanned (o := o) (t := t) (by rw [hpaths]; exact List.nodup_nil)
      obtain ⟨d, hd⟩ := Catalog.exists_stackHandle_iff.mp hstack
      have hdocs := Catalog.stackDocument_eq_ok.mp hd
      rw [r.documents, Listing.all, listing, hpaths] at hdocs
      cases hdocs

/-! ### The documents that groups are annotated among -/

namespace Opened

section

variable (hwf : t.WellFormed) (hsim : t.locate o.sim = .ok place) {c : Catalog}
  {handles : List Handle} {policy : ReferencePolicy}
  (hopened : Opened o (scanned o t).catalog handles t c policy t')
  (hload : ∀ table ∈ policy.table?, Document.load t' o.indexFile
    = .ok (Listing.filed o.indexFile table.documents))

include hwf hsim hopened hload

theorem refines : c.Refines
    { listing o t with files := (listing o t).files ++ addedFiles o policy } :=
  refines_opened (refines_scanned (nodup_scanPaths hwf)) hopened
    (contains_listing hwf hsim) hload

/-- The table brings signal groups behind those that were read. -/
theorem documents (k : Kind) : c.documents k
    = (scanned o t).catalog.documents k
      ++ Document.ofKind k ((addedFiles o policy).flatMap (·.documents)) := by
  rw [(refines hwf hsim hopened hload).documents,
    (refines_scanned (nodup_scanPaths hwf)).documents, ← Document.ofKind_append]
  simp [Listing.all]

theorem get?_of_read {h : Handle} {d : Document}
    (hd : (scanned o t).catalog.get? h = some d) : c.get? h = some d := by
  have hlt := (List.getElem?_eq_some_iff.mp hd).1
  rw [Catalog.get?, documents hwf hsim hopened hload, List.getElem?_append_left hlt]
  exact hd

/-- The Stack and the models are those that were read. -/
theorem documents_of_ne (k : Kind) (hk : k ≠ .signalGroup) :
    c.documents k = (scanned o t).catalog.documents k := by
  have hadded : Document.ofKind k ((addedFiles o policy).flatMap (·.documents)) = [] := by
    refine List.filter_eq_nil_iff.mpr fun d hd => ?_
    obtain ⟨f, hf, hd⟩ := List.mem_flatMap.mp hd
    rw [(kind_of_addedFiles hf hd).1, decide_eq_true_eq]
    exact Ne.symm hk
  rw [documents hwf hsim hopened hload, hadded, List.append_nil]

/-- The selected groups can be annotated. -/
theorem ready (hstack : ∃ h, (scanned o t).catalog.stackHandle = .ok h) :
    Ready c ((scanned o t).catalog.selected o.signalGroups) := by
  refine ⟨?_, fun h hh => ?_⟩
  · obtain ⟨d, hd⟩ := Catalog.exists_stackHandle_iff.mp hstack
    refine ⟨d, Catalog.stackDocument_eq_ok.mpr ?_⟩
    rw [documents_of_ne hwf hsim hopened hload .stack nofun]
    exact Catalog.stackDocument_eq_ok.mp hd
  · obtain ⟨hkind, d, hd, -⟩ := Catalog.mem_selected.mp hh
    have r := refines_scanned (o := o) (nodup_scanPaths hwf)
    obtain ⟨g, hg⟩ := Document.signalGroup?_of_kind ((r.kind hd).trans hkind)
    exact ⟨d, g, get?_of_read hwf hsim hopened hload hd, hg⟩

end

end Opened

/-! ## Before saving -/

namespace Preparation

variable (w : Preparation o t)

theorem exists_place (w : Preparation o t) : ∃ place, t.locate o.sim = .ok place :=
  exists_place_of_stack w.stack

section

variable (hwf : t.WellFormed) (hsim : t.locate o.sim = .ok place)

include hwf hsim

omit hsim in
theorem refines_read : (scanned o t).catalog.Refines (listing o t) :=
  refines_scanned (nodup_scanPaths hwf)

/-- The table is written to its file, if there is one. -/
theorem written (hindex : o.index = true) : ∃ table text, w.policy = .table table
    ∧ table.text = .ok text ∧ WritesIndex o text (place ++ indexNames) t w.tree := by
  have hopened := w.opens
  rw [Opened, if_pos hindex] at hopened
  obtain ⟨table, hpolicy, htabled⟩ := hopened
  obtain ⟨text, htext, hwrites⟩ := writesIndex_of_tabled hwf hsim htabled
  exact ⟨table, text, hpolicy, htext, hwrites⟩

omit hwf hsim in
theorem not_written (hindex : o.index = false) :
    w.opened = (scanned o t).catalog ∧ w.policy = .counter 0 ∧ w.tree = t := by
  have hopened := w.opens
  rwa [Opened, if_neg (by rw [hindex]; exact Bool.false_ne_true)] at hopened

omit hwf hsim in
theorem of_mem_addedFiles {f : FileContent} (hf : f ∈ addedFiles o w.policy) :
    o.index = true ∧ f.path = o.indexFile := by
  obtain ⟨table, htable, rfl⟩ := Option.map_eq_some_iff.mp (Option.mem_toList.mp hf)
  refine ⟨?_, rfl⟩
  by_contra hindex
  rw [(w.not_written (Bool.eq_false_iff.mpr hindex)).2.1] at htable
  cases htable

omit hwf hsim in
theorem tabled {table : OffsetTable} (hpolicy : w.policy = .table table) :
    Tabled o (scanned o t).catalog
      (((scanned o t).catalog.selected o.signalGroups).filterMap (scanned o t).catalog.get?)
      t w.opened table w.tree := by
  have hopened := w.opens
  unfold Opened at hopened
  split at hopened
  · obtain ⟨table', hpolicy', htabled⟩ := hopened
    rw [hpolicy] at hpolicy'
    cases hpolicy'
    exact htabled
  · rw [hpolicy] at hopened
    cases hopened.2.1

theorem extends_tree : t.Extends w.tree := by
  cases hindex : o.index with
  | true =>
      obtain ⟨_, _, -, -, hwrites⟩ := w.written hwf hsim hindex
      exact hwrites.extend
  | false =>
      rw [(w.not_written hindex).2.2]
      exact .refl t

/-- Other files are as they were. -/
theorem file_tree {q : Place} (hq : o.index = true → q ≠ place ++ indexNames)
    (content : ByteArray) :
    w.tree.entry? q = some (.file content) ↔ t.entry? q = some (.file content) := by
  cases hindex : o.index with
  | true =>
      obtain ⟨_, _, -, -, hwrites⟩ := w.written hwf hsim hindex
      exact hwrites.files q (hq hindex) content
  | false => rw [(w.not_written hindex).2.2]

omit hwf hsim in
/-- The groups have the table that was written. -/
theorem table?_progress : w.progress.policy.table? = w.policy.table? :=
  table?_of_groupSteps w.refers

variable (hyaml : w.progress.GivesBack)

include hyaml

/-- The file of the table holds the table as long as it is not written again. -/
theorem load_table {u : FileTree} (hext : w.tree.Extends u)
    (hentry : o.index = true →
      u.entry? (place ++ indexNames) = w.tree.entry? (place ++ indexNames))
    {table : OffsetTable} (htable : table ∈ w.policy.table?) :
    Document.load u o.indexFile = .ok (Listing.filed o.indexFile table.documents) := by
  cases hindex : o.index with
  | true =>
      obtain ⟨table', text, hpolicy, htext, hwrites⟩ := w.written hwf hsim hindex
      rw [hpolicy] at htable
      cases htable
      have hgives := hyaml.table table (by rw [w.table?_progress, hpolicy]; rfl) text
        (Except.mem_toOption.mpr htext)
      have hentry := (hentry hindex).trans hwrites.entry
      exact load_of_text (hext.locate (FileTree.locateFile_eq_ok.mp hwrites.located).1)
        hentry (OffsetTable.parse_text hgives)
  | false =>
      rw [(w.not_written hindex).2.1] at htable
      cases htable

theorem load_opened : ∀ table ∈ w.policy.table?, Document.load w.tree o.indexFile
    = .ok (Listing.filed o.indexFile table.documents) :=
  fun _ => w.load_table hwf hsim hyaml (.refl w.tree) fun _ => rfl

theorem refines_opened : w.opened.Refines
    { listing o t with files := (listing o t).files ++ addedFiles o w.policy } :=
  w.opens.refines hwf hsim (w.load_opened hwf hsim hyaml)

theorem documents_opened (k : Kind) : w.opened.documents k
    = (scanned o t).catalog.documents k
      ++ Document.ofKind k ((addedFiles o w.policy).flatMap (·.documents)) :=
  w.opens.documents hwf hsim (w.load_opened hwf hsim hyaml) k

theorem get?_opened {h : Handle} {d : Document}
    (hd : (scanned o t).catalog.get? h = some d) : w.opened.get? h = some d :=
  w.opens.get?_of_read hwf hsim (w.load_opened hwf hsim hyaml) hd

theorem documents_opened_of_ne (k : Kind) (hk : k ≠ .signalGroup) :
    w.opened.documents k = (scanned o t).catalog.documents k :=
  w.opens.documents_of_ne hwf hsim (w.load_opened hwf hsim hyaml) k hk

/-- Groups are wired as they were when they were read. -/
theorem channel?_opened (d : Document) :
    Wiring.channel? w.opened d = Wiring.channel? (scanned o t).catalog d := by
  have hdocs := w.documents_opened_of_ne hwf hsim hyaml
  refine Wiring.channel?_congr ?_ ?_ (Eq.refl d.outline)
  · rw [hdocs .stack nofun]
  · rw [hdocs .model nofun]

theorem ready : Ready w.opened ((scanned o t).catalog.selected o.signalGroups) :=
  w.opens.ready hwf hsim (w.load_opened hwf hsim hyaml) w.stack

/-- Groups and then the Stack are revised. -/
theorem evolves_referred : Catalog.Evolves
    ((scanned o t).catalog.selected o.signalGroups) w.opened w.referred.catalog :=
  evolves_of_groupSteps w.refers (w.ready hwf hsim hyaml)

theorem evolves : Catalog.Evolves
    ((scanned o t).catalog.selected o.signalGroups ++ [⟨.stack, 0⟩]) w.opened w.catalog :=
  (w.evolves_referred hwf hsim hyaml).trans (StackSummary.evolves_annotate w.summarises)

/-- The Stack that was read is summarised. -/
theorem exists_summary : ∃ d, (scanned o t).catalog.stackDocument = .ok d
    ∧ w.catalog.stackDocument = .ok (StackSummary.summarise
      (StackSummary.filesBelow w.referred.catalog o.sim) d) := by
  obtain ⟨d, hd, hcatalog⟩ := StackSummary.annotate_eq_ok.mp w.summarises
  obtain ⟨d', hd'⟩ := Catalog.exists_stackHandle_iff.mp w.stack
  have hopened := w.get?_opened hwf hsim hyaml (StackSummary.get?_of_stackDocument hd')
  -- no group is the Stack
  have hkept := (w.evolves_referred hwf hsim hyaml).kept ⟨.stack, 0⟩ fun h =>
    Catalog.ne_stack_of_mem_selected h (List.mem_singleton_self _)
  rw [StackSummary.get?_of_stackDocument hd, hopened] at hkept
  cases hkept
  refine ⟨d, hd', Catalog.stackDocument_eq_ok.mpr ?_⟩
  rw [← hcatalog, Catalog.documents_revise, Catalog.documents_modify, if_pos rfl,
    Catalog.stackDocument_eq_ok.mp hd]
  rfl

/-- The catalog has the files that were read and that of the table. -/
theorem exists_listing : ∃ l, w.catalog.Refines l ∧ l.files.map (·.path)
    = ((listing o t).files ++ addedFiles o w.policy).map (·.path) :=
  (w.evolves hwf hsim hyaml).refined _ (w.refines_opened hwf hsim hyaml)

theorem sound : w.catalog.Sound := by
  refine (w.evolves hwf hsim hyaml).sound fun h d hd => ?_
  obtain ⟨f, hf, hmem⟩ := (w.refines_opened hwf hsim hyaml).exists_file hd
  rcases List.mem_append.mp hf with hf | hf
  · exact Catalog.sound_of_load (mem_files_listing hf).2 d hmem
  · exact (kind_of_addedFiles hf hmem).2

/-- Only files that were read are flagged. -/
theorem exists_file_of_flagged {q : Path} (hq : q ∈ w.catalog.flagged.values) :
    ∃ f ∈ (listing o t).files, f.path = q := by
  have r := refines_read (o := o) hwf
  -- the revised documents are among those that were read
  have hread : ∀ h ∈ (scanned o t).catalog.selected o.signalGroups ++ [⟨.stack, 0⟩],
      ∃ d, (scanned o t).catalog.get? h = some d := by
    intro h hh
    rcases List.mem_append.mp hh with hh | hh
    · obtain ⟨-, d, hd, -⟩ := Catalog.mem_selected.mp hh
      exact ⟨d, hd⟩
    · obtain ⟨d, hd⟩ := Catalog.exists_stackHandle_iff.mp w.stack
      rw [List.mem_singleton.mp hh]
      exact ⟨d, StackSummary.get?_of_stackDocument hd⟩
  rcases (w.evolves hwf hsim hyaml).flagged q hq with hq | ⟨h, hh, d, hd, hfile⟩
  · rw [(w.refines_opened hwf hsim hyaml).flaggedValues] at hq
    cases hq
  · obtain ⟨d', hd'⟩ := hread h hh
    rw [w.get?_opened hwf hsim hyaml hd'] at hd
    cases hd
    obtain ⟨f, hf, hmem⟩ := r.exists_file hd'
    have hpath := r.filed f hf d hmem
    rw [hfile] at hpath
    exact ⟨f, hf, (Option.some.inj hpath).symm⟩

theorem reads_of_flagged {q : Path} (hq : q ∈ w.catalog.flagged.values) :
    ∃ names, Reads o t place q names := by
  obtain ⟨f, hf, rfl⟩ := w.exists_file_of_flagged hwf hsim hyaml hq
  exact reads_of_mem hwf hsim (mem_files_listing hf).1

/-- The flagged files are at different places. -/
theorem apart_flagged : Catalog.Apart w.tree w.catalog.flagged.values := by
  obtain ⟨l, r, -⟩ := w.exists_listing hwf hsim hyaml
  have hext := w.extends_tree hwf hsim
  have hdistinct := List.pairwise_map.mp r.nodup_flagged
  refine hdistinct.imp_of_mem fun {p p'} hp hp' hne q hq hq' => hne ?_
  obtain ⟨names, hreads⟩ := w.reads_of_flagged hwf hsim hyaml hp
  obtain ⟨names', hreads'⟩ := w.reads_of_flagged hwf hsim hyaml hp'
  have hplace := (hreads.place_eq hsim hext hq).symm.trans (hreads'.place_eq hsim hext hq')
  rw [hreads.path, hreads'.path, List.append_cancel_left hplace]

end

end Preparation

/-! ## A sample -/

namespace Sample

def stackText : String :=
  "kind: Stack\nspec: \x7bmodels: [\x7bname: i, model: \x7bname: m\x7d, channels: ["
    ++ "\x7bname: c, selectors: \x7bk: v\x7d\x7d, \x7bname: d, selectors: \x7bk: w\x7d\x7d"
    ++ "]\x7d]\x7d\n"

def firstText : String :=
  "kind: SignalGroup\nmetadata: \x7blabels: \x7bk: v\x7d\x7d\nspec: \x7bsignals: ["
    ++ "\x7bsignal: a, annotations: \x7bdirection: input\x7d\x7d, \x7bsignal: x\x7d, "
    ++ "\x7bsignal: b, annotations: \x7bdirection: output\x7d\x7d]\x7d\n"

def secondText : String :=
  "kind: SignalGroup\nmetadata: \x7blabels: \x7bk: w\x7d\x7d\nspec: \x7bsignals: ["
    ++ "\x7bsignal: a, annotations: \x7bdirection: input\x7d\x7d]\x7d\n"

def ruleText : String :=
  "Annotation,Value,FmiAnnotation,FmiValue\ndirection,input,fmi_variable_causality,input\n"
    ++ "direction,output,fmi_variable_causality,output\n"

/-- A Stack with two channels, a group for each of them, and a table of rules. -/
def tree : FileTree :=
  ⟨.ofList [(["a.yml"], .file stackText.toUTF8), (["b.yml"], .file firstText.toUTF8),
    (["rules.csv"], .file ruleText.toUTF8), (["sub"], .directory),
    (["sub", "c.yml"], .file secondText.toUTF8)], [], []⟩

def options : Options := ⟨⟨"/"⟩, [], some ⟨"/rules.csv"⟩, none, true⟩

/-- The table has the rules that are built in as well. -/
def rules : RuleSet := .signalDirection

def channel (name label : String) : Channel :=
  ⟨some name, none, some (.ofList [("k", label)]), ∅⟩

def stack : Document :=
  ⟨⟨"", ∅, ∅⟩, .stack ⟨some [⟨"i", ⟨"m", ∅⟩, some [channel "c" "v", channel "d" "w"], ∅⟩], ∅⟩,
    none⟩

/-- A signal with a direction. -/
def signal (name direction : String) : Signal :=
  ⟨name, .ofList [("direction", .string direction)], ∅⟩

def group (label : String) (signals : List Signal) : Document :=
  ⟨⟨"", .ofList [("k", label)], ∅⟩, .signalGroup ⟨signals, ∅⟩, none⟩

/-- A group with a signal that has no direction. -/
def first : Document :=
  group "v" [signal "a" "input", ⟨"x", ∅, ∅⟩, signal "b" "output"]

/-- A group with a signal that has the name of one of the first. -/
def second : Document := group "w" [signal "a" "input"]

/-- The documents of the sample, file by file. -/
def files : List FileContent :=
  [⟨⟨"/a.yml"⟩, Listing.filed ⟨"/a.yml"⟩ [stack]⟩,
    ⟨⟨"/b.yml"⟩, Listing.filed ⟨"/b.yml"⟩ [first]⟩,
    ⟨⟨"/sub/c.yml"⟩, Listing.filed ⟨"/sub/c.yml"⟩ [second]⟩]

/-- A catalog with the documents of the sample. -/
def read (c : Catalog) : Catalog := files.foldl (fun c f => c.insert f.path f.documents) c

theorem wellFormed : tree.WellFormed := by decide

/-- Each text is read as its document. -/
theorem parsed : Document.parse stackText = .ok [stack]
    ∧ Document.parse firstText = .ok [first] ∧ Document.parse secondText = .ok [second] := by
  decide +kernel

/-- In every tree that has the files of the sample they are read as its documents. -/
theorem load_of_files {t : FileTree} (hext : tree.Extends t)
    (hfiles : ∀ q ∈ [["a.yml"], ["b.yml"], ["sub", "c.yml"]], t.entry? q = tree.entry? q) :
    ∀ f ∈ files, Document.load t f.path = .ok f.documents := by
  obtain ⟨hstack, hfirst, hsecond⟩ := parsed
  obtain ⟨ha, hb, hc⟩ : tree.locate ⟨"/a.yml"⟩ = .ok ["a.yml"]
      ∧ tree.locate ⟨"/b.yml"⟩ = .ok ["b.yml"]
      ∧ tree.locate ⟨"/sub/c.yml"⟩ = .ok ["sub", "c.yml"] := by decide
  simp only [files, List.forall_mem_cons]
  exact ⟨load_of_text (hext.locate ha) (hfiles _ (by simp)) hstack,
    load_of_text (hext.locate hb) (hfiles _ (by simp)) hfirst,
    load_of_text (hext.locate hc) (hfiles _ (by simp)) hsecond, nofun⟩

theorem loads : ∀ f ∈ files, Document.load tree f.path = .ok f.documents :=
  load_of_files (.refl tree) fun _ _ => rfl

theorem catalog_scan {c : Catalog} {t : FileTree}
    (hpaths : c.scannable t ⟨"/"⟩ = files.map (·.path))
    (hfiles : ∀ f ∈ files, Document.load t f.path = .ok f.documents) :
    (c.scan t ⟨"/"⟩).catalog = read c := by
  rw [Catalog.scan, hpaths, read]
  simp only [files, List.forall_mem_cons] at hfiles
  obtain ⟨ha, hb, hc, -⟩ := hfiles
  simp only [files, List.map_cons, List.map_nil, List.foldl_cons, List.foldl_nil,
    Catalog.scanFile, ha, hb, hc]

theorem scannable_tree : ∀ p ∈ [[], [options.indexFile.parts]],
    Catalog.scannable { Catalog.empty with excluded := p } tree ⟨"/"⟩
      = files.map (·.path) := by
  decide +kernel

theorem scanPaths_tree : scanPaths options tree = files.map (·.path) := by decide

theorem selects : RuleSet.select tree options.rules options.ruleSet = .ok (some rules) := by
  decide +kernel

def catalog : Catalog := read (Catalog.empty.exclude options.indexFile)

theorem catalog_scanned : (scanned options tree).catalog = catalog :=
  catalog_scan (scannable_tree [options.indexFile.parts] (by simp)) loads

def table : OffsetTable :=
  ⟨.ofList [("c", ⟨.ofList [("a", ⟨0, 0⟩), ("x", ⟨1, 8⟩), ("b", ⟨2, 16⟩)], 0, 3⟩),
    ("d", ⟨.ofList [("a", ⟨0, 72⟩)], 3, 1⟩)]⟩

theorem compiled : OffsetTable.compile catalog
    ((catalog.selected options.signalGroups).filterMap catalog.get?) = .ok table := by
  decide +kernel

def tableText : String := table.text.toOption.getD ""

/-- The table has a text, which gives back its values. -/
theorem givesBack_table : table.text.toOption.isSome = true
    ∧ ∀ css ∈ table.documents.mapM Document.chars?, Yaml.Stream.Gives
      (String.ofList (css.flatMap (Document.separator.toList ++ ·)))
      (table.documents.filterMap Document.encode?) := by
  decide +kernel

theorem text_table : table.text = .ok tableText := by
  obtain ⟨text, htext⟩ := Option.isSome_iff_exists.mp givesBack_table.1
  rw [tableText, htext]
  exact Except.mem_toOption.mp htext

theorem parse_table : Document.parse tableText = .ok table.documents :=
  OffsetTable.parse_text (OffsetTable.gives_text_iff.mpr givesBack_table.2 _
    (Except.mem_toOption.mpr text_table))

/-- The sample with its offset table. -/
def tabled : FileTree :=
  (tree.put ["data"] .directory).put ["data", "direct_index.yaml"] (.file tableText.toUTF8)

/-- The offset table comes into a new directory. -/
theorem opens : Opened options catalog (catalog.selected options.signalGroups) tree
    (catalog.insertNew options.indexFile (Listing.filed options.indexFile table.documents))
    (.table table) tabled := by
  obtain ⟨hnew, hdirectory, hput, hlocate, hunknown⟩ :
      tree.exists? options.indexFile = false
      ∧ ((tree.makeDirectories options.dataDirectory).toOption.map fun t => t.entry? ["data"])
        = some (some .directory)
      ∧ (tree.put ["data"] .directory).locateFile options.indexFile
        = .ok ["data", "direct_index.yaml"]
      ∧ tabled.locate options.indexFile = .ok ["data", "direct_index.yaml"]
      ∧ catalog.contains options.indexFile = false := by
    decide +kernel
  -- whole trees are not compared, since that would compare the bytes of all files
  have hmade : tree.makeDirectories options.dataDirectory
      = .ok (tree.put ["data"] .directory) := by
    obtain ⟨t, ht, hentry⟩ := Option.map_eq_some_iff.mp hdirectory
    have hmakes := Except.mem_toOption.mp ht
    have hroot : tree.locate options.sim = .ok [] := rfl
    rcases FileTree.makeDirectories_join hroot nofun rfl hmakes with rfl | ⟨-, rfl⟩
    · cases hentry
    · exact hmakes
  have hload : Document.load tabled options.indexFile
      = .ok (Listing.filed options.indexFile table.documents) :=
    load_of_text hlocate rfl parse_table
  unfold Opened
  rw [if_pos (show options.index = true from rfl)]
  refine ⟨table, rfl, compiled, ⟨tree, _, ?_, hmade, emit_eq_ok.mpr
    ⟨tableText, text_table, FileTree.append_of_missing hput rfl⟩⟩, ?_⟩
  · unfold Cleared
    rw [hnew, if_neg Bool.false_ne_true]
  · rw [Catalog.add, hunknown, if_neg Bool.false_ne_true, hload]
    rfl

def preparation : Preparation options tree :=
  .ofSteps catalog_scanned ⟨⟨.stack, 0⟩, by decide +kernel⟩ selects opens
    (by decide +kernel) (by decide +kernel)

/-- What is computed of the documents that are written. -/
theorem written : preparation.catalog.GivesBack preparation.catalog.flagged.values
    ∧ (preparation.catalog.writeFiles tabled preparation.catalog.flagged.values).2 = none
    ∧ ∀ file ∈ options.rules, ∀ q ∈ writtenFiles options preparation.progress,
      (preparation.catalog.writeFiles tabled preparation.catalog.flagged.values).1.locate q
        ≠ (preparation.catalog.writeFiles tabled
          preparation.catalog.flagged.values).1.locate file := by
  decide +kernel

theorem givesBack : preparation.progress.GivesBack := by
  refine Progress.givesBack_iff.mpr ⟨written.1, fun t ht => ?_⟩
  cases ht
  exact givesBack_table.2

/-- The run succeeds, with texts that give back their values, and does not write the
table of rules. -/
theorem runs : ∃ summary s, on tree (annotate options) = (.ok summary, s)
    ∧ (∀ p ∈ (on tree (prepare options)).1.toOption, p.GivesBack)
    ∧ ∀ p ∈ (on tree (prepare options)).1.toOption, ∀ file ∈ options.rules,
      ∀ q ∈ writtenFiles options p, s.tree.locate q ≠ s.tree.locate file := by
  obtain ⟨-, hsaves, hrules⟩ := written
  obtain ⟨s, hrun, htree⟩ := preparation.exists_on_annotate hsaves
  rw [preparation.on_prepare]
  refine ⟨_, s, hrun, ?_, ?_⟩
  · rintro p ⟨⟩
    exact givesBack
  · rw [htree]
    rintro p ⟨⟩
    exact hrules

end Sample

end Run

end SimAnnotate
