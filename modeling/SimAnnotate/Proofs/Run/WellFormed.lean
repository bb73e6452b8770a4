import SimAnnotate.CommandLine
import SimAnnotate.Proofs.FileTree.WellFormed
import SimAnnotate.Proofs.Run.Failing
import SimAnnotate.Proofs.Run.IndexFile
import SimAnnotate.Proofs.Run.PatchFile

/-!
# Runs keep a tree in good shape

A run changes the tree by the operations of trees alone, so it leaves a tree in good shape
that was in good shape before, whether it succeeds or stops somewhere. Any command lines can
therefore follow each other (`wellFormed_commandLines`).
-/

namespace SimAnnotate

variable {t t' : FileTree}

/-! ## Saving -/

theorem Catalog.wellFormed_writeFile (hwf : t.WellFormed) {p : Path} {ds : List Document}
    (h : writeFile t p ds = .ok t') : t'.WellFormed := by
  obtain ⟨text, q, -, hq, rfl⟩ := writeFile_eq_ok.mp h
  exact hwf.put_of_locateFile hq _

/-- Also where it stops at a file. -/
theorem Catalog.wellFormed_writeFiles (hwf : t.WellFormed) {c : Catalog} {ps : List Path}
    {e? : Option WriteError} (h : c.writeFiles t ps = (t', e?)) : t'.WellFormed := by
  -- the files that it came to were written without an error
  obtain ⟨done, -, hdone⟩ := exists_written h
  clear h
  induction done generalizing t with
  | nil =>
      cases hdone
      exact hwf
  | cons p rest ih =>
      obtain ⟨u, hu, hrest⟩ := writeFiles_cons.mp hdone
      exact ih (wellFormed_writeFile hwf hu) hrest

namespace Run

/-! ## The offset table -/

theorem wellFormed_cleared (hwf : t.WellFormed) {p : Path} (h : Cleared p t t') :
    t'.WellFormed := by
  unfold Cleared at h
  split at h
  · exact hwf.removeFile h
  · rwa [h]

theorem wellFormed_emit (hwf : t.WellFormed) {table : OffsetTable} {p : Path}
    (h : table.emit t p = .ok t') : t'.WellFormed := by
  obtain ⟨text, -, happend⟩ := emit_eq_ok.mp h
  exact hwf.append happend

variable {o : Options}

/-- Whichever step writing a table comes to. -/
theorem wellFormed_tabling (hwf : t.WellFormed) {table : OffsetTable}
    (h : Tabling o table t t') : t'.WellFormed := by
  cases h with
  | start => exact hwf
  | cleared hcleared => exact wellFormed_cleared hwf hcleared
  | made hcleared hmade => exact (wellFormed_cleared hwf hcleared).makeDirectories hmade
  | written hcleared hmade hemit =>
      exact wellFormed_emit ((wellFormed_cleared hwf hcleared).makeDirectories hmade) hemit

theorem wellFormed_opened (hwf : t.WellFormed) {c c' : Catalog} {handles : List Handle}
    {policy : ReferencePolicy} (h : Opened o c handles t c' policy t') : t'.WellFormed := by
  unfold Opened at h
  split at h
  · obtain ⟨table, -, htabled⟩ := h
    obtain ⟨cleared, made, hcleared, hmade, hemit⟩ := htabled.written
    exact wellFormed_tabling hwf (.written hcleared hmade hemit)
  · obtain ⟨-, -, rfl⟩ := h
    exact hwf

/-! ## Runs -/

theorem wellFormed_breaks (hwf : t.WellFormed) {e : Error} (h : Breaks o t e t') :
    t'.WellFormed := by
  cases h with
  | stack _ => exact hwf
  | rules _ _ => exact hwf
  | compile _ _ => exact hwf
  | table _ _ htabling _ => exact wellFormed_tabling hwf htabling
  | groups _ hopened _ => exact wellFormed_opened hwf hopened
  | summary _ hopened _ _ => exact wellFormed_opened hwf hopened
  | save w _ hsave => exact Catalog.wellFormed_writeFiles (wellFormed_opened hwf w.opens) hsave

theorem wellFormed_annotate (hwf : t.WellFormed) (o : Options) :
    (on t (annotate o)).2.tree.WellFormed := by
  rcases hrun : on t (annotate o) with ⟨outcome, s⟩
  cases outcome with
  | error e => exact wellFormed_breaks hwf (breaks_of_error hrun)
  | ok summary =>
      obtain ⟨w, -, -, hsave⟩ := exists_preparation hrun
      exact Catalog.wellFormed_writeFiles (wellFormed_opened hwf w.opens) hsave

theorem wellFormed_patch (hwf : t.WellFormed) (file table : Path) (removeUnknown : Bool) :
    (on t (patch file table removeUnknown)).2.tree.WellFormed := by
  rw [on_patch]
  split
  · exact hwf
  · exact hwf
  · split
    · split
      · next hwrite => exact Catalog.wellFormed_writeFile hwf hwrite
      · exact hwf
    · exact hwf

end Run

namespace CommandLine

theorem wellFormed_command (hwf : t.WellFormed) (c : Command) :
    (Run.on t c.run).2.tree.WellFormed := by
  cases c with
  | annotate o =>
      -- the summary is dropped, and the tree is that of the run
      have hrun := Run.wellFormed_annotate hwf o
      rw [Run.on_eq] at hrun ⊢
      rw [Command.run, Run.exec_bind]
      split
      · next hexec => rwa [hexec] at hrun
      · next hexec => rwa [hexec] at hrun
  | patch input table removeUnknown =>
      exact Run.wellFormed_patch hwf input table removeUnknown

theorem wellFormed_run (hwf : t.WellFormed) (args : List String) :
    (run args t).2.WellFormed := by
  unfold run
  split
  · exact hwf
  · exact hwf
  · exact hwf
  · next c _ =>
      have hcommand := wellFormed_command hwf c
      split
      · next hrun => rwa [hrun] at hcommand
      · next hrun => rwa [hrun] at hcommand

/-- Command lines that are carried out one after the other, whatever each of them comes
to. -/
theorem wellFormed_commandLines (hwf : t.WellFormed) (lines : List (List String)) :
    (lines.foldl (fun t args => (run args t).2) t).WellFormed := by
  induction lines generalizing t with
  | nil => exact hwf
  | cons args rest ih => exact ih (wellFormed_run hwf args)

end CommandLine

end SimAnnotate
