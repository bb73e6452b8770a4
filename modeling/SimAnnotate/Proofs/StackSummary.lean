import SimAnnotate.Proofs.Catalog.Evolution
import SimAnnotate.Proofs.OrderedMap
import SimAnnotate.Proofs.Path.Relative

/-!
# The summary on the Stack

Summarising revises the only Stack: it sets two annotations and leaves the others as
they are (`erase_summarise`). The summary depends on the files and on the instances,
neither of which it changes, so a Stack that has its summary keeps it
(`annotate_again`).
-/

namespace SimAnnotate.StackSummary

/-! ## What it says -/

/-- The files that names lead to are listed as these names. -/
theorem filesBelow_descend {c : Catalog} {sim : Path} (hsim : sim.text ≠ "")
    {places : List Place} (hnames : ∀ names ∈ places, ∀ name ∈ names, Path.isName name = true)
    (hfiles : c.files = places.map sim.descend) :
    filesBelow c sim = places.map "/".intercalate := by
  rw [filesBelow, hfiles, List.filterMap_map]
  calc places.filterMap (fun names => (sim.descend names).below? sim)
      = places.filterMap (fun names => some ("/".intercalate names)) :=
        List.filterMap_congr fun names h => Path.below?_descend hsim (hnames names h)
    _ = places.map "/".intercalate := congrFun List.filterMap_eq_map places

section

variable (files : List String) (d : Document)

theorem get?_files_summarise : (summarise files d).metadata.annotations.get? filesKey
    = some (.sequence (files.map .string)) :=
  OrderedMap.get?_insert_self _ _ _

theorem get?_instances_summarise :
    (summarise files d).metadata.annotations.get? instancesKey
      = some (.string (",".intercalate ((d.stack?.map instanceNames).getD []))) := by
  have hkeys : instancesKey ≠ filesKey := by decide
  exact (OrderedMap.get?_insert_ne _ _ hkeys).trans (OrderedMap.get?_insert_self _ _ _)

/-- The other annotations keep their values and their order. -/
theorem erase_summarise :
    ((summarise files d).metadata.annotations.erase filesKey).erase instancesKey
      = (d.metadata.annotations.erase filesKey).erase instancesKey := by
  change (((d.metadata.annotations.insert instancesKey _).insert filesKey _).erase
    filesKey).erase instancesKey = _
  rw [OrderedMap.erase_insert_self, OrderedMap.erase_comm, OrderedMap.erase_insert_self,
    OrderedMap.erase_comm]

end

/-! ## Summarising again -/

theorem sound_summarise (files : List String) {d : Document} (h : d.Sound) :
    (summarise files d).Sound := by
  refine h.withAnnotations ((h.annotations.insert _ ?_).insert _ ?_)
  · rfl
  · rw [Yaml.Value.repeatsKey_sequence]
    intro v hv
    obtain ⟨file, -, rfl⟩ := List.mem_map.mp hv
    rfl

/-- A summary does not change the summary. -/
theorem summarise_summarise (files : List String) (d : Document) :
    summarise files (summarise files d) = summarise files d := by
  have hkeys : instancesKey ≠ filesKey := by decide
  have hnames : (summarise files d).stack? = d.stack? := rfl
  have hinstances : ∀ a : Annotations, ∀ v w : Yaml.Value,
      (((a.insert instancesKey v).insert filesKey w).insert instancesKey v).insert filesKey w
        = (a.insert instancesKey v).insert filesKey w := by
    intro a v w
    rw [OrderedMap.insert_of_get? (k := instancesKey), OrderedMap.insert_of_get?]
    · exact OrderedMap.get?_insert_self _ _ _
    · rw [OrderedMap.get?_insert_ne _ _ hkeys, OrderedMap.get?_insert_self]
  rw [summarise, hnames, summarise, Document.withAnnotations, Document.withAnnotations,
    hinstances]

variable {c c' : Catalog} {sim : Path}

theorem annotate_eq_ok : annotate c sim = .ok c' ↔ ∃ d, c.stackDocument = .ok d
    ∧ c.revise ⟨.stack, 0⟩ d (summarise (filesBelow c sim)) = c' := by
  rw [annotate_eq, Except.map_eq_ok]

theorem get?_of_stackDocument {d : Document} (h : c.stackDocument = .ok d) :
    c.get? ⟨.stack, 0⟩ = some d := by
  rw [c.get?_handle, Catalog.stackDocument_eq_ok.mp h]
  rfl

theorem evolves_annotate (h : annotate c sim = .ok c') :
    Catalog.Evolves [⟨.stack, 0⟩] c c' := by
  obtain ⟨d, hd, rfl⟩ := annotate_eq_ok.mp h
  refine .revise (get?_of_stackDocument hd) (outline_summarise _ d) (sound_summarise _)
    (fun _ => rfl) (fun _ => rfl)

/-- A Stack that has its summary keeps it. -/
theorem annotate_again (h : annotate c sim = .ok c') {e : Catalog}
    (hdocs : ∀ h, e.get? h = c'.get? h) (hrecords : e.records = c.records)
    (hflagged : e.flagged = c.flagged) :
    ∃ e', annotate e sim = .ok e' ∧ (∀ h, e'.get? h = c'.get? h)
      ∧ e'.records = c'.records ∧ e'.flagged = c'.flagged := by
  obtain ⟨d, hd, rfl⟩ := annotate_eq_ok.mp h
  have hfiles : filesBelow e sim = filesBelow c sim := by
    rw [filesBelow, filesBelow, Catalog.files, Catalog.files, hrecords]
  generalize filesBelow c sim = files at *
  have hself : e.get? ⟨.stack, 0⟩ = some (summarise files d) := by
    rw [hdocs, Catalog.get?_revise, Catalog.get?_modify_self, get?_of_stackDocument hd,
      Option.map_some]
  have hd' : e.stackDocument = .ok (summarise files d) := by
    have hstack : e.documents .stack = [summarise files d] := by
      -- lists are the same where all their positions are
      have hlist : e.documents .stack = (c.documents .stack).modify 0 (summarise files) := by
        refine List.ext_getElem? fun i => ?_
        have hi := hdocs ⟨.stack, i⟩
        rw [Catalog.get?_revise, Catalog.get?, Catalog.get?, Catalog.documents_modify,
          if_pos rfl] at hi
        exact hi
      rw [hlist, Catalog.stackDocument_eq_ok.mp hd]
      rfl
    exact Catalog.stackDocument_eq_ok.mpr hstack
  refine ⟨_, annotate_eq_ok.mpr ⟨_, hd', rfl⟩, fun h => ?_, ?_, ?_⟩
  · rw [hfiles, Catalog.get?_revise, ← hdocs h]
    by_cases heq : h = ⟨.stack, 0⟩
    · rw [heq, Catalog.get?_modify_self, hself, Option.map_some, summarise_summarise]
    · exact e.get?_modify_ne heq _
  · rw [Catalog.records_revise, Catalog.records_revise, hrecords]
  · exact Catalog.flagged_revise_congr hrecords hflagged (Eq.refl d.file) _ _ _

end SimAnnotate.StackSummary
