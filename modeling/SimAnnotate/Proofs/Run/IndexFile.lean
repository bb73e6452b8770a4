import SimAnnotate.Proofs.FileTree.Change
import SimAnnotate.Proofs.Run.Course

/-!
# The file of the offset table

Writing an offset table replaces the file at one place below the simulation and
leaves every other file (`writesIndex_of_tabled`). Where the file is there with
its text, writing the table again changes nothing (`WritesIndex.again`).
-/

namespace SimAnnotate.Run

/-- The names that lead from a simulation to its offset table. -/
def indexNames : Place := ["data", "direct_index.yaml"]

theorem indexFile_eq (o : Options) : o.indexFile = o.sim.descend indexNames := by
  unfold Options.indexFile Options.dataDirectory Path.descend indexNames
  rw [List.foldl_cons, List.foldl_cons, List.foldl_nil]

theorem isName_indexNames : ∀ name ∈ indexNames, Path.isName name = true := by decide

/-- `t'` is `t` with a new file for the offset table, at the place `q`. -/
structure WritesIndex (o : Options) (text : String) (q : Place) (t t' : FileTree) :
    Prop where
  extend : t.Extends t'
  located : t'.locateFile o.indexFile = .ok q
  entry : t'.entry? q = some (.file text.toUTF8)
  files : ∀ r, r ≠ q → ∀ content,
    t'.entry? r = some (.file content) ↔ t.entry? r = some (.file content)
  /-- The directory was made. -/
  directory : ∃ cleared made : FileTree, cleared.makeDirectories o.dataDirectory = .ok made
    ∧ made.Extends t'

theorem emit_eq_ok {table : OffsetTable} {t t' : FileTree} {p : Path} :
    table.emit t p = .ok t' ↔ ∃ text, table.text = .ok text ∧ t.append p text = .ok t' := by
  unfold OffsetTable.emit
  simp only [Except.bind_eq_ok, Except.mapError_eq_ok]

variable {o : Options} {t t' : FileTree} {place : Place}

/-- What clearing leaves: everything but the file itself. -/
theorem extends_of_cleared {p : Path} (h : Cleared p t t') : t.Extends t' := by
  unfold Cleared at h
  split at h
  · obtain ⟨q, content, -, hq, -, rfl⟩ := FileTree.removeFile_eq_ok.mp h
    refine FileTree.extends_erase ?_
    rw [hq]
    exact nofun
  · rw [h]
    exact .refl t

theorem entry?_of_cleared {p : Path} (h : Cleared p t t') {r : Place}
    (hr : t.locate p ≠ .ok r) : t'.entry? r = t.entry? r := by
  unfold Cleared at h
  split at h
  · obtain ⟨q, content, hq, -, -, rfl⟩ := FileTree.removeFile_eq_ok.mp h
    refine FileTree.entry?_erase_ne ?_ t
    intro heq
    exact hr (heq ▸ hq)
  · rw [h]

/-- Clearing leaves nothing where the path leads. -/
theorem entry?_eq_none_of_cleared {p : Path} (h : Cleared p t t') {q : Place}
    (hroot : q ≠ []) (hq : t.locate p = .ok q) : t'.entry? q = none := by
  unfold Cleared at h
  split at h
  · obtain ⟨r, content, hr, -, -, rfl⟩ := FileTree.removeFile_eq_ok.mp h
    rw [hq] at hr
    cases hr
    exact FileTree.entry?_erase_self hroot t
  · next hexists =>
      subst h
      by_contra hne
      exact hexists (FileTree.exists?_iff.mpr ⟨q, hq, Option.isSome_iff_ne_none.mpr hne⟩)

/-- A table that comes in is written to its own file. -/
theorem writesIndex_of_tabled (hwf : t.WellFormed) (hsim : t.locate o.sim = .ok place)
    {c c' : Catalog} {groups : List Document} {table : OffsetTable}
    (h : Tabled o c groups t c' table t') :
    ∃ text, table.text = .ok text
      ∧ WritesIndex o text (place ++ indexNames) t t' := by
  obtain ⟨cleared, made, hcleared, hmade, hemit⟩ := h.written
  obtain ⟨text, htext, happend⟩ := emit_eq_ok.mp hemit
  obtain ⟨q, hq⟩ := FileTree.locateFile_of_append happend
  obtain ⟨hlocate, -, hdir, -⟩ := FileTree.locateFile_eq_ok.mp hq
  have hadds := FileTree.makeDirectories_adds hmade
  have hext := (extends_of_cleared hcleared).trans hadds.toExtends
  have hplace : q = place ++ indexNames := by
    rw [indexFile_eq] at hlocate
    exact FileTree.locate_descend (hext.locate hsim) isName_indexNames hlocate
  have hroot : q ≠ [] := FileTree.ne_root_of_locateFile hq
  -- where there was a file, the path led to it
  have hempty : cleared.entry? q = none := by
    by_cases hold : t.locate o.indexFile = .ok q
    · exact entry?_eq_none_of_cleared hcleared hroot hold
    · rw [entry?_of_cleared hcleared hold, FileTree.entry?_of_ne hroot]
      refine OrderedMap.get?_eq_none fun hmem => hold ?_
      rw [hplace] at hmem
      rw [indexFile_eq] at hlocate ⊢
      exact (hext.locate_descend hwf hsim hmem).symm.trans hlocate
  have hnone : made.entry? q = none := by
    rcases hadds.entries q with heq | ⟨-, heq⟩
    · exact heq.trans hempty
    · exact absurd heq hdir
  rw [FileTree.append_of_missing hq hnone] at happend
  cases happend
  have hput := FileTree.extends_put hdir (.file text.toUTF8)
  have hentry := FileTree.entry?_put_self hroot made (.file text.toUTF8)
  refine ⟨text, htext, ?_⟩
  rw [← hplace]
  exact {
    extend := hext.trans hput
    located := hput.locateFile_of_file hq hentry
    entry := hentry
    files := fun r hr content => by
      rw [FileTree.entry?_put_ne hr, hadds.file_iff]
      by_cases hold : t.locate o.indexFile = .ok r
      · exact absurd (Except.ok.inj ((hext.locate hold).symm.trans hlocate)) hr
      · rw [entry?_of_cleared hcleared hold]
    directory := ⟨cleared, made, hmade, hput⟩ }

/-- Writing the table where its file is changes nothing. -/
theorem WritesIndex.again {text : String} {q : Place} (h : WritesIndex o text q t t')
    {u : FileTree} (hu : t'.Extends u) (hentry : u.entry? q = some (.file text.toUTF8))
    {table : OffsetTable} (htext : table.text = .ok text) :
    ∃ u', u.Same u' ∧ ∃ cleared made, Cleared o.indexFile u cleared
      ∧ cleared.makeDirectories o.dataDirectory = .ok made
      ∧ table.emit made o.indexFile = .ok u' := by
  have hroot : q ≠ [] := FileTree.ne_root_of_locateFile h.located
  have hfile : u.entry? q ≠ some .directory := by
    rw [hentry]
    exact nofun
  have hq : u.locateFile o.indexFile = .ok q := hu.locateFile h.located hfile
  obtain ⟨hlocate, -, -, hrefusal⟩ := FileTree.locateFile_eq_ok.mp hq
  have herase := FileTree.extends_erase hfile
  have hnone := FileTree.entry?_erase_self hroot u
  -- the file is there, so it is removed before it is written
  have hcleared : Cleared o.indexFile u (u.erase q) := by
    unfold Cleared
    rw [if_pos (FileTree.exists?_iff.mpr ⟨q, hlocate, by rw [hentry]; rfl⟩)]
    exact FileTree.removeFile_eq_ok.mpr ⟨q, _, hlocate, hentry, hrefusal, rfl⟩
  obtain ⟨_, made, hmade, hext⟩ := h.directory
  have hagain := FileTree.makeDirectories_again hmade (hext.trans (hu.trans herase))
  have hq' : (u.erase q).locateFile o.indexFile = .ok q :=
    herase.locateFile hq (by rw [hnone]; exact nofun)
  refine ⟨(u.erase q).put q (.file text.toUTF8), ⟨rfl, rfl, fun hr => ?_, fun r => ?_⟩,
    u.erase q, u.erase q, hcleared, hagain,
    emit_eq_ok.mpr ⟨text, htext, FileTree.append_of_missing hq' hnone⟩⟩
  · exact FileTree.root_mem_of_erase ((FileTree.root_mem_put hroot _ _).mp hr)
  · by_cases hr : r = q
    · rw [hr, FileTree.entry?_put_self hroot, hentry]
    · rw [FileTree.entry?_put_ne hr, FileTree.entry?_erase_ne hr]

end SimAnnotate.Run
