import SimAnnotate.Proofs.Catalog.Evolution
import SimAnnotate.Proofs.StackSummary

/-!
# All documents of a catalog are sound

Documents come into a catalog from texts, and reading gives sound ones. Nothing that is
done to them later makes them unsound (`Sound.after`), if what comes in from outside is
what it ought to be (`Operation.Proper`). So every catalog that proper operations build
is sound (`sound_ofOperations`).
-/

namespace SimAnnotate

/-! ## Proper operations -/

/-- The edit puts only sound values in. -/
def Edit.Proper (e : Edit) : Prop := ∀ d : Document, d.Sound → (e.change d).Sound

theorem Edit.proper_label (key value : String) : (Edit.label key value).Proper :=
  fun _ h => ⟨h.annotations, h.spec⟩

theorem Edit.proper_annotation (key : String) {v : Yaml.Value} (hv : v.repeatsKey = false) :
    (Edit.annotation key v).Proper :=
  fun _ h => h.withAnnotations (h.annotations.insert key hv)

namespace Catalog

/-- Documents that are inserted come from a text, and edits are proper. -/
def Operation.Proper : Operation → Prop
  | .insert _ ds => ∃ text, Document.parse text = .ok ds
  | .edit _ e => e.Proper
  | _ => True

/-! ## What is read -/

theorem sound_filed {p : Path} {ds : List Document} (h : ∀ d ∈ ds, d.Sound) :
    ∀ d ∈ Listing.filed p ds, d.Sound := by
  intro d hd
  obtain ⟨d', hd', rfl⟩ := List.mem_map.mp hd
  exact ⟨(h d' hd').annotations, (h d' hd').spec⟩

theorem sound_of_load {t : FileTree} {p : Path} {ds : List Document}
    (h : Document.load t p = .ok ds) : ∀ d ∈ ds, d.Sound := by
  obtain ⟨text, parsed, -, hparsed, rfl⟩ := Document.load_eq_ok.mp h
  exact sound_filed fun d hd => (Document.sound_of_parse hparsed d hd).1

end Catalog

/-- All documents of the files are sound. -/
def Listing.Sound (l : Listing) : Prop := ∀ f ∈ l.files, ∀ d ∈ f.documents, d.Sound

namespace Listing.Sound

variable {l l' : Listing}

theorem of_files (h : l.Sound) (hfiles : l'.files = l.files) : l'.Sound := by
  unfold Listing.Sound
  rwa [hfiles]

theorem insert (h : l.Sound) (p : Path) {ds : List Document} (hds : ∀ d ∈ ds, d.Sound) :
    (l.insert p ds).Sound := by
  unfold Listing.insert
  split
  · exact h
  · intro f hf
    rcases List.mem_append.mp hf with hf | hf
    · exact h f hf
    · rw [List.mem_singleton.mp hf]
      exact Catalog.sound_filed hds

theorem load (h : l.Sound) (t : FileTree) (p : Path) : (l.load t p).Sound := by
  unfold Listing.load
  split
  · next ds hds => exact h.insert p (Catalog.sound_of_load hds)
  · exact h

theorem foldl_load (h : l.Sound) (t : FileTree) (ps : List Path) :
    (ps.foldl (Listing.load t) l).Sound := by
  induction ps generalizing l with
  | nil => exact h
  | cons p rest ih => exact ih (h.load t p)

theorem save (h : l.Sound) (t : FileTree) (ps : List Path) : (l.save t ps).Sound := by
  refine h.of_files ?_
  unfold Listing.save
  split <;> rfl

end Listing.Sound

namespace Catalog

variable {c : Catalog} {l : Listing}

theorem Refines.sound_iff (r : c.Refines l) : c.Sound ↔ l.Sound := by
  constructor
  · intro h f hf d hd
    have hall : d ∈ Document.ofKind d.kind l.all := by
      refine List.mem_filter.mpr ⟨List.mem_flatMap.mpr ⟨f, hf, hd⟩, ?_⟩
      exact decide_eq_true rfl
    rw [← r.documents] at hall
    obtain ⟨n, hn⟩ := List.mem_iff_getElem?.mp hall
    exact h ⟨d.kind, n⟩ d hn
  · intro h handle d hd
    obtain ⟨f, hf, hmem⟩ := r.exists_file hd
    exact h f hf d hmem

/-! ## Operations -/

namespace Sound

theorem annotate (h : c.Sound) (handle : Handle) (rules : RuleSet) (policy : ReferencePolicy) :
    (((References.annotate c handle rules policy).toOption.map (·.catalog)).getD c).Sound := by
  cases ha : References.annotate c handle rules policy with
  | error e => exact h
  | ok a => exact (Evolves.annotate ha).sound h

theorem summarise (h : c.Sound) (sim : Path) :
    ((StackSummary.annotate c sim).toOption.getD c).Sound := by
  cases hsummary : StackSummary.annotate c sim with
  | error e => exact h
  | ok c' => exact (StackSummary.evolves_annotate hsummary).sound h

theorem edit (h : c.Sound) (handle : Handle) {e : Edit} (he : e.Proper) :
    (c.modify handle e.change).Sound := by
  intro other d hd
  by_cases heq : other = handle
  · rw [heq, c.get?_modify_self, Option.map_eq_some_iff] at hd
    obtain ⟨d', hd', rfl⟩ := hd
    exact he d' (h handle d' hd')
  · rw [c.get?_modify_ne heq] at hd
    exact h other d hd

/-- A proper operation keeps all documents sound. -/
theorem after (h : c.Sound) (r : c.Refines l) {op : Operation} (hop : op.Proper) :
    (c.after op).Sound := by
  have hl := r.sound_iff.mp h
  have r' := r.after op
  cases op with
  | exclude p => exact r'.sound_iff.mpr hl
  | scan t root => exact r'.sound_iff.mpr (hl.foldl_load t _)
  | add t p =>
      refine r'.sound_iff.mpr ?_
      unfold Listing.after
      dsimp only
      split
      · exact hl
      · exact hl.load t p
  | insert p ds =>
      obtain ⟨text, htext⟩ := hop
      exact r'.sound_iff.mpr
        (hl.insert p fun d hd => (Document.sound_of_parse htext d hd).1)
  | flag p => exact r'.sound_iff.mpr (hl.of_files (l.files_flag p))
  | save t => exact r'.sound_iff.mpr (hl.save t l.flagged)
  | saveAll t => exact r'.sound_iff.mpr (hl.save t _)
  | annotate handle rules policy => exact h.annotate handle rules policy
  | summarise sim => exact h.summarise sim
  | edit handle e => exact h.edit handle hop

end Sound

theorem sound_empty : empty.Sound := by
  intro h d hd
  cases hd

theorem sound_ofOperations {ops : List Operation} (hops : ∀ op ∈ ops, op.Proper) :
    (ofOperations ops).Sound := by
  have hrun : ∀ {c : Catalog} {l : Listing}, c.Sound → c.Refines l →
      (ops.foldl Catalog.after c).Sound := by
    induction ops with
    | nil => exact fun h _ => h
    | cons op rest ih =>
        intro c l h r
        exact ih (fun op hop => hops op (List.mem_cons_of_mem _ hop))
          (h.after r (hops op List.mem_cons_self)) (r.after op)
  exact hrun sound_empty refines_empty

end Catalog

end SimAnnotate
