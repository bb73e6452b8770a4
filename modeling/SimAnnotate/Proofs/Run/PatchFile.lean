import SimAnnotate.Proofs.Catalog.Saving
import SimAnnotate.Proofs.Catalog.Soundness
import SimAnnotate.Proofs.Run.Meaning

/-!
# Patching a file

A file is patched in four steps, and each of them can fail: the table is read, the file
is read, a signal group is looked for, and the file is written. Only the last one changes
the tree, and it changes it at the place of the file alone (`patch_atomic`).

What has been read can be written, as long as its documents have a text and the system
does not refuse it.
-/

namespace SimAnnotate

/-! ## What ought to be -/

/-- What a patch makes of a document. A signal group gets other signals, and nothing else
changes. -/
structure Patch.Patched (p : Patch) (removeUnknown : Bool) (d d' : Document) : Prop where
  group : ∀ g, d.spec = .signalGroup g → d' = { d with
    spec := .signalGroup { g with signals := p.apply removeUnknown g.signals } }
  other : d.kind ≠ .signalGroup → d' = d

namespace Run

/-- The place of a file refuses to be changed. -/
def Refuses (t : FileTree) (file : Path) (r : Refusal) : Prop :=
  ∃ place, t.locate file = .ok place ∧ t.refusal? place = some r

/-- Why documents cannot be written into a file that is there. The first one that has no
text decides, and where all have one a refusal does. -/
inductive WriteFails (t : FileTree) (file : Path) (ds : List Document) :
    WriteFault → Prop where
  | unknownKind {before after : List Document} {d : Document} {k : String} :
      ds = before ++ d :: after →
      (∀ x ∈ before, (∀ k, x.kind ≠ .other k) ∧ x.isWritable = true) →
      d.kind = .other k → WriteFails t file ds (.print (.unknownKind k))
  | unwritable {before after : List Document} {d : Document} {cause : Yaml.Unwritable} :
      ds = before ++ d :: after →
      (∀ x ∈ before, (∀ k, x.kind ≠ .other k) ∧ x.isWritable = true) →
      (∀ k, d.kind ≠ .other k) → d.unwritable? = some cause →
      WriteFails t file ds (.print (.unwritable cause))
  | refused {r : Refusal} :
      (∀ d ∈ ds, (∀ k, d.kind ≠ .other k) ∧ d.isWritable = true) →
      Refuses t file r → WriteFails t file ds (.file (.refused r))

/-- The errors of a patch, in the order in which they count. -/
inductive PatchFails (t : FileTree) (file table : Path) (removeUnknown : Bool) :
    Error → Prop where
  | table {e : TableError} : Patch.load t table = .error e →
      PatchFails t file table removeUnknown (.table e)
  | load {p : Patch} {e : LoadError} : Patch.load t table = .ok p →
      Document.load t file = .error e → PatchFails t file table removeUnknown (.load e)
  | noGroup {p : Patch} {ds : List Document} : Patch.load t table = .ok p →
      Document.load t file = .ok ds → (∀ d ∈ ds, d.kind ≠ .signalGroup) →
      PatchFails t file table removeUnknown (.notFound (.signalGroup file))
  | write {p : Patch} {ds ds' : List Document} {fault : WriteFault} :
      Patch.load t table = .ok p → Document.load t file = .ok ds →
      (∃ d ∈ ds, d.kind = .signalGroup) → List.Forall₂ (p.Patched removeUnknown) ds ds' →
      WriteFails t file ds' fault →
      PatchFails t file table removeUnknown (.write ⟨file, fault⟩)

/-- The file holds the documents, and nothing else has changed. -/
structure Replaces (t : FileTree) (file : Path) (ds : List Document) (t' : FileTree) :
    Prop where
  home : t'.home = t.home
  refusals : t'.refusals = t.refusals
  others : ∃ place, t.locate file = .ok place ∧ ∀ q, q ≠ place → t'.entry? q = t.entry? q
  text : ∃ text, Document.printAll ds = .ok text ∧ t'.readText file = .ok text
    ∧ (Yaml.Stream.Gives text (ds.filterMap Document.encode?) → Document.load t' file = .ok ds)

/-- What patching a file comes to. -/
structure PatchesFile (t : FileTree) (file table : Path) (removeUnknown : Bool)
    (run : Except Error Unit × State) : Prop where
  error : ∀ e, run.1 = .error e ↔ PatchFails t file table removeUnknown e
  unchanged : ∀ e, run.1 = .error e → run.2.tree = t
  replaced : run.1 = .ok () → ∃ p ds ds', Patch.load t table = .ok p
    ∧ Document.load t file = .ok ds ∧ List.Forall₂ (p.Patched removeUnknown) ds ds'
    ∧ Replaces t file ds' run.2.tree

variable {t t' : FileTree} {file table : Path} {removeUnknown : Bool} {p : Patch}
  {ds ds' : List Document}

/-! ## Patched documents -/

theorem patched_mapSignals (p : Patch) (removeUnknown : Bool) (d : Document) :
    p.Patched removeUnknown d (d.mapSignals (p.apply removeUnknown)) := by
  obtain ⟨m, spec, file⟩ := d
  constructor
  · rintro g rfl
    rfl
  · intro hkind
    cases spec with
    | signalGroup g => exact absurd rfl hkind
    | stack s => rfl
    | model m => rfl
    | other k v => rfl

/-- A document is patched in one way. -/
theorem patched_iff {d d' : Document} :
    p.Patched removeUnknown d d' ↔ d' = d.mapSignals (p.apply removeUnknown) := by
  refine ⟨fun h => ?_, fun h => h ▸ patched_mapSignals p removeUnknown d⟩
  have hmap := patched_mapSignals p removeUnknown d
  by_cases hkind : d.kind = .signalGroup
  · cases hspec : d.spec with
    | signalGroup g => rw [h.group g hspec, hmap.group g hspec]
    | stack s => simp [Document.kind, hspec] at hkind
    | model m => simp [Document.kind, hspec] at hkind
    | other k v => simp [Document.kind, hspec] at hkind
  · rw [h.other hkind, hmap.other hkind]

theorem forall₂_patched_iff : List.Forall₂ (p.Patched removeUnknown) ds ds'
    ↔ ds' = ds.map (·.mapSignals (p.apply removeUnknown)) := by
  constructor
  · intro h
    induction h with
    | nil => rfl
    | cons hd _ ih => rw [patched_iff.mp hd, ih, List.map_cons]
  · rintro rfl
    exact List.forall₂_map_right_iff.mpr
      (List.forall₂_same.mpr fun d _ => patched_mapSignals p removeUnknown d)

/-- Patched documents are as sound as the documents. -/
theorem sound_mapSignals {d : Document} (h : d.Sound) :
    (d.mapSignals (p.apply removeUnknown)).Sound := by
  refine h.mapSignals fun g hg s hs => ?_
  obtain ⟨s', hs', hsignal⟩ := List.mem_filterMap.mp hs
  have hsound := (h.group hg).signals s' hs'
  -- a signal that stays has its annotations and fields
  unfold Patch.signal? at hsignal
  split at hsignal
  · split at hsignal
    · cases hsignal
    · cases hsignal
      exact ⟨hsound.annotations, hsound.extra⟩
  · split at hsignal
    · cases hsignal
    · cases hsignal
      exact hsound

/-! ## Writing -/

/-- Documents that come into a file that is there. -/
theorem writeFile_of_load (hload : Document.load t file = .ok ds) (ds' : List Document) :
    ∃ place, t.locate file = .ok place ∧ Catalog.writeFile t file ds' =
      match Document.printAll ds', t.refusal? place with
      | .error e, _ => .error ⟨file, .print e⟩
      | .ok _, some r => .error ⟨file, .file (.refused r)⟩
      | .ok text, none => .ok (t.put place (.file text.toUTF8)) := by
  obtain ⟨text, -, htext, -⟩ := Document.load_eq_ok.mp hload
  obtain ⟨place, hplace, hentry⟩ := FileTree.readText_eq_ok.mp htext
  refine ⟨place, hplace, ?_⟩
  unfold Catalog.writeFile FileTree.write
  rw [FileTree.locateFile_of_file hplace hentry]
  cases Document.printAll ds' with
  | error e => rfl
  | ok text => cases t.refusal? place <;> rfl

theorem writeFails_iff {fault : WriteFault} : WriteFails t file ds fault
    ↔ (∃ e, Document.printAll ds = .error e ∧ fault = .print e)
      ∨ (∃ text, Document.printAll ds = .ok text)
        ∧ ∃ r, Refuses t file r ∧ fault = .file (.refused r) := by
  -- all documents are printed before the file is asked
  constructor
  · intro h
    cases h with
    | unknownKind hsplit hbefore hkind =>
        refine .inl ⟨_, Document.printAll_eq_error.mpr ⟨_, _, _, hsplit, ?_, ?_⟩, rfl⟩
        · simpa only [Document.isKnown_iff] using hbefore
        · exact Document.print_eq_error.mpr (.inl ⟨_, hkind, rfl⟩)
    | unwritable hsplit hbefore hknown hunwritable =>
        refine .inl ⟨_, Document.printAll_eq_error.mpr ⟨_, _, _, hsplit, ?_, ?_⟩, rfl⟩
        · simpa only [Document.isKnown_iff] using hbefore
        · exact Document.print_eq_error.mpr
            (.inr ⟨Document.isKnown_iff.mpr hknown, _, hunwritable, rfl⟩)
    | refused hall hrefuses =>
        refine .inr ⟨Document.exists_printAll_iff.mpr ?_, _, hrefuses, rfl⟩
        simpa only [Document.isKnown_iff] using hall
  · rintro (⟨e, he, rfl⟩ | ⟨htext, r, hrefuses, rfl⟩)
    · obtain ⟨before, d, after, hsplit, hbefore, hprint⟩ := Document.printAll_eq_error.mp he
      simp only [Document.isKnown_iff] at hbefore
      rcases Document.print_eq_error.mp hprint with
        ⟨k, hk, rfl⟩ | ⟨hknown, cause, hunwritable, rfl⟩
      · exact .unknownKind hsplit hbefore hk
      · exact .unwritable hsplit hbefore (Document.isKnown_iff.mp hknown) hunwritable
    · refine .refused ?_ hrefuses
      simpa only [Document.isKnown_iff] using Document.exists_printAll_iff.mp htext

/-- Documents cannot be written where one of them has a kind that is not known or a value
that has no text, or where the file refuses it. -/
theorem exists_writeFails_iff : (∃ fault, WriteFails t file ds fault)
    ↔ (∃ d ∈ ds, ∃ k, d.kind = .other k) ∨ (∃ d ∈ ds, d.isWritable = false)
      ∨ ∃ r, Refuses t file r := by
  have hprint : (∃ e, Document.printAll ds = .error e)
      ↔ ¬∃ text, Document.printAll ds = .ok text := by
    cases Document.printAll ds <;> simp
  have hfails : (∃ fault, WriteFails t file ds fault)
      ↔ (∃ e, Document.printAll ds = .error e) ∨ ∃ r, Refuses t file r := by
    simp only [writeFails_iff]
    constructor
    · rintro ⟨fault, ⟨e, he, -⟩ | ⟨-, r, hr, -⟩⟩
      · exact .inl ⟨e, he⟩
      · exact .inr ⟨r, hr⟩
    · rintro (⟨e, he⟩ | ⟨r, hr⟩)
      · exact ⟨_, .inl ⟨e, he, rfl⟩⟩
      · by_cases htext : ∃ text, Document.printAll ds = .ok text
        · exact ⟨_, .inr ⟨htext, r, hr, rfl⟩⟩
        · obtain ⟨e, he⟩ := hprint.mpr htext
          exact ⟨_, .inl ⟨e, he, rfl⟩⟩
  rw [hfails, hprint, Document.exists_printAll_iff, ← or_assoc]
  refine or_congr_left ?_
  simp only [Document.isKnown_iff, not_forall, not_and_or, exists_prop, and_or_left,
    exists_or, not_not, Bool.not_eq_true]

/-- Writing into a file that was read fails for these reasons only. -/
theorem writeFile_eq_error (hload : Document.load t file = .ok ds) {ds' : List Document}
    {e : WriteError} : Catalog.writeFile t file ds' = .error e
      ↔ e.file = file ∧ WriteFails t file ds' e.fault := by
  obtain ⟨place, hplace, hwrite⟩ := writeFile_of_load hload ds'
  have hrefuses : ∀ r, Refuses t file r ↔ t.refusal? place = some r := by
    simp [Refuses, hplace]
  obtain ⟨path, fault⟩ := e
  rw [writeFails_iff, hwrite]
  simp only [hrefuses]
  cases Document.printAll ds' with
  | error e => simp [eq_comm]
  | ok text => cases t.refusal? place <;> simp [eq_comm]

/-! ## Steps of a patch -/

/-- A file is read and nothing changes. -/
theorem exec_read {α β ε : Type} (load : FileTree → Except ε α) (cause : ε → Error)
    (k : α → Run β) (s : State) :
    exec (tree >>= fun t => liftM ((load t).mapError cause) >>= k) s =
      match load s.tree with
      | .ok a => exec (k a) s
      | .error e => (.error (cause e), s) := by
  rw [exec_bind_of_ok (exec_tree s), exec_bind, exec_lift rfl]
  cases load s.tree <;> rfl

theorem exec_change (f : FileTree → Except Error FileTree) (s : State) : exec (change f) s =
    match f s.tree with
    | .ok t => (.ok (), { s with tree := t })
    | .error e => (.error e, s) := by
  have hstep : exec (change f) s = exec (liftM (f s.tree) >>= setTree) s :=
    exec_bind_of_ok (exec_tree s)
  rw [hstep, exec_bind, exec_lift rfl]
  cases f s.tree <;> rfl

theorem any_signalGroup_iff :
    ds.any (·.signalGroup?.isSome) = true ↔ ∃ d ∈ ds, d.kind = .signalGroup := by
  have hd : ∀ d : Document, d.signalGroup?.isSome = true ↔ d.kind = .signalGroup := by
    rintro ⟨m, spec, file⟩
    cases spec <;> simp [Document.signalGroup?, Document.kind]
  simp only [List.any_eq_true, hd]

/-- The table is read, the file is read, a signal group is looked for, and the file is
written. -/
theorem on_patch (t : FileTree) (file table : Path) (removeUnknown : Bool) :
    on t (patch file table removeUnknown) =
      match Patch.load t table, Document.load t file with
      | .error e, _ => (.error (.table e), ⟨t, []⟩)
      | .ok _, .error e => (.error (.load e), ⟨t, []⟩)
      | .ok p, .ok ds =>
          if ∃ d ∈ ds, d.kind = .signalGroup then
            match Catalog.writeFile t file
              (ds.map (·.mapSignals (p.apply removeUnknown))) with
            | .ok t' => (.ok (), ⟨t', []⟩)
            | .error e => (.error (.write e), ⟨t, []⟩)
          else (.error (.notFound (.signalGroup file)), ⟨t, []⟩) := by
  rw [on_eq, patch, exec_read (Patch.load · table)]
  cases Patch.load t table with
  | error e => rfl
  | ok p =>
      dsimp only
      rw [exec_read (Document.load · file)]
      cases Document.load t file with
      | error e => rfl
      | ok ds =>
          dsimp only
          by_cases hgroup : ∃ d ∈ ds, d.kind = .signalGroup
          · rw [any_signalGroup_iff.mpr hgroup, if_pos hgroup, Bool.not_true,
              if_neg Bool.false_ne_true, exec_change]
            cases Catalog.writeFile t file
              (ds.map (·.mapSignals (p.apply removeUnknown))) <;> rfl
          · rw [Bool.eq_false_iff.mpr (mt any_signalGroup_iff.mp hgroup), if_neg hgroup]
            rfl

/-! ## Patches -/

/-- A file that is written holds the documents that were read and patched. -/
theorem replaces_of_writeFile (hload : Document.load t file = .ok ds)
    (h : Catalog.writeFile t file (ds.map (·.mapSignals (p.apply removeUnknown))) = .ok t') :
    Replaces t file (ds.map (·.mapSignals (p.apply removeUnknown))) t' := by
  obtain ⟨text, q, hprint, hq, rfl⟩ := Catalog.writeFile_eq_ok.mp h
  have htext := (FileTree.hasText_put hq text).readText
  refine ⟨rfl, rfl, ⟨q, (FileTree.locateFile_eq_ok.mp hq).1, fun q' hq' =>
    FileTree.entry?_put_ne hq' t _⟩, text, hprint, htext, fun hgives => ?_⟩
  obtain ⟨_, parsed, -, hparsed, rfl⟩ := Document.load_eq_ok.mp hload
  -- patched documents stay sound, so their text is read as they are
  have hsound : ∀ d ∈ (Listing.filed file parsed).map (·.mapSignals (p.apply removeUnknown)),
      d.Sound := by
    intro d hd
    obtain ⟨d', hd', rfl⟩ := List.mem_map.mp hd
    exact sound_mapSignals (Catalog.sound_of_load hload d' hd')
  have hknown := Document.exists_printAll_iff.mp ⟨text, hprint⟩
  have hparse := Document.parse_of_gives hsound (fun d hd => (hknown d hd).1) hgives
  refine Document.load_eq_ok.mpr ⟨text, _, htext, hparse, ?_⟩
  rw [Listing.filed, List.map_map]
  refine Listing.filed_eq_self fun d hd => ?_
  obtain ⟨d', hd', rfl⟩ := List.mem_map.mp hd
  obtain ⟨d, -, rfl⟩ := List.mem_map.mp hd'
  exact Document.file_mapSignals _ _

/-- Each of the errors comes about, -/
theorem PatchFails.run {e : Error} (h : PatchFails t file table removeUnknown e) :
    on t (patch file table removeUnknown) = (.error e, ⟨t, []⟩) := by
  rw [on_patch]
  cases h with
  | table htable => rw [htable]
  | load htable hload => rw [htable, hload]
  | noGroup htable hload hnone =>
      rw [htable, hload]
      refine if_neg ?_
      rintro ⟨d, hd, hkind⟩
      exact hnone d hd hkind
  | @write p ds ds' fault htable hload hgroup hpatched hfails =>
      have hwrite : Catalog.writeFile t file ds' = .error ⟨file, fault⟩ :=
        (writeFile_eq_error hload).mpr ⟨rfl, hfails⟩
      rw [forall₂_patched_iff.mp hpatched] at hwrite
      rw [htable, hload]
      dsimp only
      rw [if_pos hgroup, hwrite]

/-- and where there is none the file is written. -/
theorem fails_or_replaces (t : FileTree) (file table : Path) (removeUnknown : Bool) :
    (∃ e, PatchFails t file table removeUnknown e)
      ∨ ∃ p ds ds' t', Patch.load t table = .ok p ∧ Document.load t file = .ok ds
        ∧ List.Forall₂ (p.Patched removeUnknown) ds ds' ∧ Replaces t file ds' t'
        ∧ on t (patch file table removeUnknown) = (.ok (), ⟨t', []⟩) := by
  rcases htable : Patch.load t table with e | p
  · exact .inl ⟨_, .table htable⟩
  rcases hload : Document.load t file with e | ds
  · exact .inl ⟨_, .load htable hload⟩
  by_cases hgroup : ∃ d ∈ ds, d.kind = .signalGroup
  · have hpatched : List.Forall₂ (p.Patched removeUnknown) ds _ := forall₂_patched_iff.mpr rfl
    rcases hwrite : Catalog.writeFile t file
      (ds.map (·.mapSignals (p.apply removeUnknown))) with ⟨path, fault⟩ | t'
    · have hfails := (writeFile_eq_error hload).mp hwrite
      exact .inl ⟨_, .write htable hload hgroup hpatched hfails.2⟩
    · have hreplaces := replaces_of_writeFile hload hwrite
      refine .inr ⟨p, ds, _, t', rfl, rfl, hpatched, hreplaces, ?_⟩
      rw [on_patch, htable, hload]
      dsimp only
      rw [if_pos hgroup, hwrite]
  · exact .inl ⟨_, .noGroup htable hload fun d hd hkind => hgroup ⟨d, hd, hkind⟩⟩

theorem patchesFile (t : FileTree) (file table : Path) (removeUnknown : Bool) :
    PatchesFile t file table removeUnknown (on t (patch file table removeUnknown)) := by
  obtain ⟨e, hfails⟩ | ⟨p, ds, ds', t', htable, hload, hpatched, hreplaces, hrun⟩ :=
    fails_or_replaces t file table removeUnknown
  · rw [hfails.run]
    refine ⟨fun e' => ⟨?_, fun h => ?_⟩, fun _ _ => rfl, nofun⟩
    · rintro ⟨⟩
      exact hfails
    · exact congrArg Prod.fst (hfails.run.symm.trans h.run)
  · rw [hrun]
    refine ⟨fun e' => ⟨nofun, fun h => ?_⟩, nofun,
      fun _ => ⟨p, ds, ds', htable, hload, hpatched, hreplaces⟩⟩
    exact congrArg Prod.fst (hrun.symm.trans h.run)

/-- The file cannot be written where it holds a document of a kind that is not known, where
a patched document has a value that has no text, or where the file refuses it. -/
theorem exists_patchFails_write_iff :
    (∃ e, PatchFails t file table removeUnknown (.write e)) ↔ ∃ p ds ds',
      Patch.load t table = .ok p ∧ Document.load t file = .ok ds
        ∧ (∃ d ∈ ds, d.kind = .signalGroup) ∧ List.Forall₂ (p.Patched removeUnknown) ds ds'
        ∧ ((∃ d ∈ ds, ∃ k, d.kind = .other k) ∨ (∃ d ∈ ds', d.isWritable = false)
          ∨ ∃ r, Refuses t file r) := by
  -- patching leaves every kind, so the documents of before can be asked
  have hkinds : ∀ (p : Patch) (ds : List Document),
      (∃ d ∈ ds.map (·.mapSignals (p.apply removeUnknown)), ∃ k, d.kind = .other k)
        ↔ ∃ d ∈ ds, ∃ k, d.kind = .other k := by
    simp [Document.kind_mapSignals]
  constructor
  · rintro ⟨e, h⟩
    cases h with
    | write htable hload hgroup hpatched hfails =>
        have hwrite := exists_writeFails_iff.mp ⟨_, hfails⟩
        cases forall₂_patched_iff.mp hpatched
        rw [hkinds] at hwrite
        exact ⟨_, _, _, htable, hload, hgroup, hpatched, hwrite⟩
  · rintro ⟨p, ds, ds', htable, hload, hgroup, hpatched, hwrite⟩
    cases forall₂_patched_iff.mp hpatched
    rw [← hkinds p] at hwrite
    obtain ⟨fault, hfails⟩ := exists_writeFails_iff.mpr hwrite
    exact ⟨_, .write htable hload hgroup hpatched hfails⟩

/-- Patching a file. It fails with the first of the errors that there are, and then the tree
stays. Else the file holds the patched documents, and nothing else has changed. -/
theorem patch_atomic (t : FileTree) (file table : Path) (removeUnknown : Bool) :
    let run := on t (patch file table removeUnknown)
    PatchesFile t file table removeUnknown run
      ∧ ((∃ e, run.1 = .error (.write e)) ↔ ∃ p ds ds',
        Patch.load t table = .ok p ∧ Document.load t file = .ok ds
          ∧ (∃ d ∈ ds, d.kind = .signalGroup)
          ∧ List.Forall₂ (p.Patched removeUnknown) ds ds'
          ∧ ((∃ d ∈ ds, ∃ k, d.kind = .other k) ∨ (∃ d ∈ ds', d.isWritable = false)
            ∨ ∃ r, Refuses t file r)) := by
  have hpatches := patchesFile t file table removeUnknown
  refine ⟨hpatches, ?_⟩
  simp only [hpatches.error]
  exact exists_patchFails_write_iff

namespace Sample

/-- A table that exchanges two names, and a file with two signal groups and a model. -/
def patched : FileTree :=
  ⟨.ofList [(["p.csv"], .file "source,target\na,b\nb,a\n".toUTF8),
    (["g.yml"], .file ("kind: SignalGroup\nspec: \x7bsignals: [\x7bsignal: a\x7d]\x7d\n"
      ++ "---\nkind: Model\n---\n"
      ++ "kind: SignalGroup\nspec: \x7bsignals: [\x7bsignal: b\x7d]\x7d\n").toUTF8)], [], []⟩

/-- The file is patched, and the text that is written gives back what it is written for. -/
theorem patches : (on patched (patch ⟨"g.yml"⟩ ⟨"p.csv"⟩ true)).1 = .ok ()
    ∧ ∀ p ∈ (Patch.load patched ⟨"p.csv"⟩).toOption,
      ∀ ds ∈ (Document.load patched ⟨"g.yml"⟩).toOption,
        ∀ css ∈ (ds.map (·.mapSignals (p.apply true))).mapM Document.chars?,
          Yaml.Stream.Gives (String.ofList (Document.separator.toList.intercalate css))
            ((ds.map (·.mapSignals (p.apply true))).filterMap Document.encode?) := by
  decide +kernel

end Sample

theorem patch_atomic_patched :
    let run := on Sample.patched (patch ⟨"g.yml"⟩ ⟨"p.csv"⟩ true)
    run.1 = .ok () ∧ ∃ p ds ds', Document.load Sample.patched ⟨"g.yml"⟩ = .ok ds
      ∧ List.Forall₂ (Patch.Patched p true) ds ds'
      ∧ Document.load run.2.tree ⟨"g.yml"⟩ = .ok ds' := by
  obtain ⟨hrun, hyaml⟩ := Sample.patches
  obtain ⟨hpatches, -⟩ := patch_atomic Sample.patched ⟨"g.yml"⟩ ⟨"p.csv"⟩ true
  obtain ⟨p, ds, ds', htable, hload, hpatched, hreplaces⟩ := hpatches.replaced hrun
  obtain ⟨text, hprint, -, hreload⟩ := hreplaces.text
  have hgives := Document.gives_printAll_iff.mpr
    (hyaml p (Except.mem_toOption.mpr htable) ds (Except.mem_toOption.mpr hload))
  rw [← forall₂_patched_iff.mp hpatched] at hgives
  exact ⟨hrun, p, ds, ds', hload, hpatched,
    hreload (hgives text (Except.mem_toOption.mpr hprint))⟩

end Run

end SimAnnotate
