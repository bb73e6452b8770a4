import SimAnnotate.Catalog.Files
import SimAnnotate.Proofs.Document.Text
import SimAnnotate.Proofs.FileTree.Change

/-!
# What saving leaves in a tree

Files are written one after the other. When their places differ, each of them
holds its documents' text afterwards (`writeFiles_written`), and nothing else has
changed (`writeFiles_frame`). Writing them again changes nothing
(`writeFiles_again`). `GivesBack` is what is assumed of YAML where the files are read
again.
-/

namespace SimAnnotate.Catalog

/-- The texts that are written for files give back the values that they are written
for. -/
def GivesBack (c : Catalog) (ps : List Path) : Prop :=
  ∀ p ∈ ps, ∀ text ∈ (Document.printAll (c.documentsOf p)).toOption,
    Yaml.Stream.Gives text ((c.documentsOf p).filterMap Document.encode?)

theorem givesBack_iff {c : Catalog} {ps : List Path} : c.GivesBack ps ↔
    ∀ p ∈ ps, ∀ css ∈ (c.documentsOf p).mapM Document.chars?, Yaml.Stream.Gives
      (String.ofList (Document.separator.toList.intercalate css))
      ((c.documentsOf p).filterMap Document.encode?) := by
  simp only [GivesBack, ← Document.gives_printAll_iff]

instance (c : Catalog) (ps : List Path) : Decidable (c.GivesBack ps) :=
  decidable_of_iff _ givesBack_iff.symm

variable {c : Catalog} {t t' : FileTree}

theorem writeFile_eq_ok {p : Path} {ds : List Document} :
    writeFile t p ds = .ok t' ↔ ∃ text q, Document.printAll ds = .ok text
      ∧ t.locateFile p = .ok q ∧ t.put q (.file text.toUTF8) = t' := by
  unfold writeFile
  simp only [Except.bind_eq_ok, Except.mapError_eq_ok, FileTree.write_eq_ok]
  constructor
  · rintro ⟨text, htext, q, hq, h⟩
    exact ⟨text, q, htext, hq, h⟩
  · rintro ⟨text, q, htext, hq, h⟩
    exact ⟨text, htext, q, hq, h⟩

theorem writeFiles_cons {p : Path} {ps : List Path} :
    c.writeFiles t (p :: ps) = (t', none) ↔
      ∃ s, writeFile t p (c.documentsOf p) = .ok s ∧ c.writeFiles s ps = (t', none) := by
  rw [writeFiles]
  cases writeFile t p (c.documentsOf p) <;> simp

/-- A file that is written comes where no directory is. -/
theorem extends_of_writeFile {p : Path} {ds : List Document}
    (h : writeFile t p ds = .ok t') : t.Extends t' ∧ t'.Extends t := by
  obtain ⟨text, q, -, hq, rfl⟩ := writeFile_eq_ok.mp h
  have hdir := (FileTree.locateFile_eq_ok.mp hq).2.2.1
  have hroot := FileTree.ne_root_of_locateFile hq
  refine ⟨FileTree.extends_put hdir _, rfl, rfl, (FileTree.root_mem_put hroot t _).mpr,
    fun r hr => ?_⟩
  by_cases heq : r = q
  · rw [heq, FileTree.entry?_put_self hroot] at hr
    cases hr
  · rwa [FileTree.entry?_put_ne heq] at hr

/-- Saving leaves the directories, and every file that is not written. -/
theorem writeFiles_frame {ps : List Path} (h : c.writeFiles t ps = (t', none)) :
    (t.Extends t' ∧ t'.Extends t)
      ∧ ∀ q, (∀ p ∈ ps, t.locate p ≠ .ok q) → t'.entry? q = t.entry? q := by
  induction ps generalizing t with
  | nil =>
      cases h
      exact ⟨⟨.refl _, .refl _⟩, fun _ _ => rfl⟩
  | cons p rest ih =>
      obtain ⟨s, hs, h⟩ := writeFiles_cons.mp h
      obtain ⟨⟨hto, hfrom⟩, hentries⟩ := ih h
      obtain ⟨hto', hfrom'⟩ := extends_of_writeFile hs
      refine ⟨⟨hto'.trans hto, hfrom.trans hfrom'⟩, fun q hq => ?_⟩
      -- writing changes no way, so the rest stays apart from `q`
      have hrest : ∀ p ∈ rest, s.locate p ≠ .ok q := fun p' hp' hlocate =>
        hq p' (List.mem_cons_of_mem p hp') (hfrom'.locate hlocate)
      rw [hentries q hrest]
      obtain ⟨text, r, -, hr, rfl⟩ := writeFile_eq_ok.mp hs
      have hne : q ≠ r := by
        intro heq
        subst heq
        exact hq p List.mem_cons_self (FileTree.locateFile_eq_ok.mp hr).1
      exact FileTree.entry?_put_ne hne t _

/-- Writing that stops has written the files in front. -/
theorem exists_written {ps : List Path} {e? : Option WriteError}
    (h : c.writeFiles t ps = (t', e?)) :
    ∃ done, done <+: ps ∧ c.writeFiles t done = (t', none) := by
  induction ps generalizing t with
  | nil =>
      cases h
      exact ⟨[], List.prefix_rfl, rfl⟩
  | cons p rest ih =>
      rw [writeFiles] at h
      split at h
      · next s hs =>
          obtain ⟨done, hprefix, hdone⟩ := ih h
          exact ⟨p :: done, List.cons_prefix_cons.mpr ⟨rfl, hprefix⟩,
            writeFiles_cons.mpr ⟨s, hs, hdone⟩⟩
      · cases h
        exact ⟨[], List.nil_prefix, rfl⟩

/-- The paths lead to different places. -/
def Apart (t : FileTree) (ps : List Path) : Prop :=
  ps.Pairwise fun p p' => ∀ q, t.locate p = .ok q → t.locate p' ≠ .ok q

/-- Where paths lead to different places, each file holds its text. -/
theorem writeFiles_written {ps : List Path} (h : c.writeFiles t ps = (t', none))
    (hapart : Apart t ps) : ∀ p ∈ ps, ∃ q text, t'.locateFile p = .ok q
      ∧ Document.printAll (c.documentsOf p) = .ok text
      ∧ t'.entry? q = some (.file text.toUTF8) := by
  induction ps generalizing t with
  | nil => exact fun _ hp => absurd hp List.not_mem_nil
  | cons p rest ih =>
      obtain ⟨s, hs, hrest⟩ := writeFiles_cons.mp h
      obtain ⟨hto, hfrom⟩ := extends_of_writeFile hs
      obtain ⟨hp, hapart⟩ := List.pairwise_cons.mp hapart
      have hapart' : Apart s rest := hapart.imp fun hne q hq hq' =>
        hne q (hfrom.locate hq) (hfrom.locate hq')
      intro p' hp'
      rcases List.mem_cons.mp hp' with rfl | hp'
      · obtain ⟨text, q, htext, hq, rfl⟩ := writeFile_eq_ok.mp hs
        have hroot := FileTree.ne_root_of_locateFile hq
        have hlocate := (FileTree.locateFile_eq_ok.mp hq).1
        obtain ⟨⟨hto', -⟩, hframe⟩ := writeFiles_frame hrest
        -- no later file comes to this place
        have hentry : t'.entry? q = some (.file text.toUTF8) := by
          rw [hframe q fun p' hp' hlocate' => hp p' hp' q hlocate (hfrom.locate hlocate'),
            FileTree.entry?_put_self hroot]
        exact ⟨q, text, (hto.trans hto').locateFile_of_file hq hentry, htext, hentry⟩
      · exact ih hrest hapart' p' hp'

/-- Files that hold their texts are written without a change. -/
theorem writeFiles_again {ps : List Path}
    (h : ∀ p ∈ ps, ∃ q text, t.locateFile p = .ok q
      ∧ Document.printAll (c.documentsOf p) = .ok text
      ∧ t.entry? q = some (.file text.toUTF8)) :
    ∃ t', c.writeFiles t ps = (t', none) ∧ t.Same t' := by
  induction ps generalizing t with
  | nil => exact ⟨t, rfl, .refl t⟩
  | cons p rest ih =>
      obtain ⟨q, text, hq, htext, hentry⟩ := h p List.mem_cons_self
      have hsame := FileTree.same_put (FileTree.ne_root_of_locateFile hq) hentry
      have hwrite : writeFile t p (c.documentsOf p)
          = .ok (t.put q (.file text.toUTF8)) :=
        writeFile_eq_ok.mpr ⟨text, q, htext, hq, rfl⟩
      obtain ⟨t', ht', hsame'⟩ := ih (t := t.put q (.file text.toUTF8)) fun p' hp' => by
        obtain ⟨q', text', hq', htext', hentry'⟩ := h p' (List.mem_cons_of_mem p hp')
        have hentry' := (hsame.entries q').trans hentry'
        exact ⟨q', text', hsame.toExtends.locateFile_of_file hq' hentry', htext', hentry'⟩
      exact ⟨t', writeFiles_cons.mpr ⟨_, hwrite, ht'⟩, hsame.trans hsame'⟩

end SimAnnotate.Catalog
