import SimAnnotate.Proofs.Catalog.Listing
import SimAnnotate.Proofs.OffsetTable
import SimAnnotate.Proofs.StackSummary

/-!
# What an offset table does not depend on

The groups that take part, and the table that they compile to, can be told from the
cores of Stacks, models and signal groups (`SameCore.selectedTable`). Annotations are
not among what is read, nor are fields that are not known, documents of other kinds and
files. Annotating keeps the outlines of all documents (`Annotates.outline_get?`), so it
can come before compiling or after.
-/

namespace SimAnnotate.Catalog

/-- The same Stacks, models and signal groups but for annotations, fields that are not
known and files. Documents of other kinds can be any. -/
structure SameCore (c c' : Catalog) : Prop where
  stack : (c'.documents .stack).map Document.core = (c.documents .stack).map Document.core
  model : (c'.documents .model).map Document.core = (c.documents .model).map Document.core
  signalGroup :
    (c'.documents .signalGroup).map Document.core = (c.documents .signalGroup).map Document.core

/-- The offset table of the groups that take part. -/
def selectedTable (c : Catalog) (names : List String) : Except Error OffsetTable :=
  OffsetTable.compile c ((c.selected names).filterMap c.get?)

/-- Operations on annotations: of the signals of a group, of the Stack, of any document. -/
inductive Operation.Annotates : Operation → Prop where
  | annotate (h : Handle) (rules : RuleSet) (policy : ReferencePolicy) :
      Annotates (.annotate h rules policy)
  | summarise (sim : Path) : Annotates (.summarise sim)
  | edit (h : Handle) {e : Edit} (he : ∀ d, (e.change d).outline = d.outline) :
      Annotates (.edit h e)

variable {c c' : Catalog}

/-! ## Two catalogs -/

namespace SameCore

theorem of_outlines
    (h : ∀ h, (c'.get? h).map Document.outline = (c.get? h).map Document.outline) :
    SameCore c c' :=
  have hdocs := fun k => Document.map_core_of_outline (map_documents_congr h k)
  ⟨hdocs .stack, hdocs .model, hdocs .signalGroup⟩

/-- Whatever a channel is, it is so in both. -/
theorem channel? (h : SameCore c c') {d d' : Document} (hd : d'.core = d.core) :
    Wiring.channel? c' d' = Wiring.channel? c d :=
  Wiring.channel?_congr_core h.stack h.model hd

theorem core_get? (h : SameCore c c') {handle : Handle} (hkind : handle.kind = .signalGroup) :
    (c'.get? handle).map Document.core = (c.get? handle).map Document.core := by
  rw [get?, get?, hkind, ← List.getElem?_map, ← List.getElem?_map, h.signalGroup]

theorem selectedTable (h : SameCore c c') (names : List String) :
    c'.selectedTable names = c.selectedTable names := by
  refine OffsetTable.compile_congr (fun _ _ => h.channel?) ?_
  rw [selected_congr h.signalGroup, List.map_filterMap, List.map_filterMap]
  exact List.filterMap_congr fun handle hhandle => h.core_get? (mem_selected.mp hhandle).1

end SameCore

/-! ## Annotating -/

theorem outline_get?_modify {h : Handle} {f : Document → Document}
    (hf : ∀ d, (f d).outline = d.outline) (h' : Handle) :
    ((c.modify h f).get? h').map Document.outline = (c.get? h').map Document.outline := by
  by_cases heq : h' = h
  · rw [heq, get?_modify_self, Option.map_map]
    exact Option.map_congr fun d _ => hf d
  · rw [get?_modify_ne c heq]

theorem Operation.Annotates.outline_get? {op : Operation} (hop : op.Annotates) (h : Handle) :
    ((c.after op).get? h).map Document.outline = (c.get? h).map Document.outline := by
  cases hop with
  | annotate handle rules policy =>
      dsimp only [after]
      cases ha : References.annotate c handle rules policy with
      | error e => rfl
      | ok a => exact (Evolves.annotate ha).outlines h
  | summarise sim =>
      dsimp only [after]
      cases hsummary : StackSummary.annotate c sim with
      | error e => rfl
      | ok c' => exact (StackSummary.evolves_annotate hsummary).outlines h
  | edit handle he => exact outline_get?_modify he h

theorem outline_get?_foldl_after {ops : List Operation} (hops : ∀ op ∈ ops, op.Annotates)
    (h : Handle) :
    ((ops.foldl after c).get? h).map Document.outline = (c.get? h).map Document.outline := by
  induction ops generalizing c with
  | nil => rfl
  | cons op rest ih =>
      rw [List.foldl_cons, ih fun op' hop' => hops op' (List.mem_cons_of_mem op hop')]
      exact (hops op List.mem_cons_self).outline_get? h

/-! ## Independence -/

/-- Catalogs with the same cores of Stacks, models and signal groups select the same
groups under all names and compile them to the same table, or fail with the same error.
So does a catalog before and after any annotating of it. -/
theorem selectedTable_independent (c : Catalog) (names : List String) :
    (∀ c', SameCore c c' → c'.selected names = c.selected names
        ∧ c'.selectedTable names = c.selectedTable names
        ∧ (c'.selectedTable names).map OffsetTable.documents
            = (c.selectedTable names).map OffsetTable.documents)
      ∧ ∀ ops : List Operation, (∀ op ∈ ops, op.Annotates) →
        (ops.foldl after c).selected names = c.selected names
          ∧ (ops.foldl after c).selectedTable names = c.selectedTable names
          ∧ ((ops.foldl after c).selectedTable names).map OffsetTable.documents
              = (c.selectedTable names).map OffsetTable.documents := by
  have hsame : ∀ c', SameCore c c' → c'.selected names = c.selected names
      ∧ c'.selectedTable names = c.selectedTable names
      ∧ (c'.selectedTable names).map OffsetTable.documents
          = (c.selectedTable names).map OffsetTable.documents := by
    intro c' h
    have htable := h.selectedTable names
    exact ⟨selected_congr h.signalGroup names, htable, by rw [htable]⟩
  refine ⟨hsame, ?_⟩
  intro ops hops
  exact hsame _ (.of_outlines (outline_get?_foldl_after hops))

namespace Sample

/-- A Stack, a model that has the selectors, and a wired group, with `fields` wherever
there are annotations or fields that are not known. -/
def documents (fields : OrderedMap String Yaml.Value) : List Document :=
  let bound : Channel := ⟨some "physical", some "p", none, fields⟩
  let declared : Channel := ⟨none, some "p", some (.ofList [("side", "p")]), fields⟩
  [⟨⟨"stack", ∅, fields⟩, .stack ⟨some [⟨"i", ⟨"m", fields⟩, some [bound], fields⟩], fields⟩, none⟩,
    ⟨⟨"m", ∅, fields⟩, .model ⟨some [declared], fields⟩, none⟩,
    ⟨⟨"g", .ofList [("side", "p")], fields⟩,
      .signalGroup ⟨[⟨"a", fields, fields⟩, ⟨"b", ∅, fields⟩], fields⟩, none⟩]

def plain : Catalog := ofOperations [.insert ⟨"all.yml"⟩ (documents ∅)]

/-- The same with fields, of which one says that the group is binary. -/
def marked : Catalog :=
  ofOperations [.insert ⟨"note.yml"⟩ [⟨⟨"n", ∅, ∅⟩, .other "Note" .null, none⟩],
    .insert ⟨"marked.yml"⟩ (documents (.ofList [(References.encodingKey, .string "binary")]))]

def annotating : List Operation :=
  [.annotate ⟨.signalGroup, 0⟩ .signalDirection (.counter 0), .summarise ⟨"/"⟩,
    .edit ⟨.signalGroup, 0⟩ <| Edit.annotation References.encodingKey (.string "binary")]

theorem annotates : ∀ op ∈ annotating, op.Annotates := by
  simp only [annotating, List.forall_mem_cons]
  refine ⟨.annotate _ _ _, .summarise _, .edit _ fun d => d.outline_withAnnotations _, ?_⟩
  exact fun _ hop => absurd hop List.not_mem_nil

end Sample

theorem selectedTable_independent_sample :
    SameCore Sample.plain Sample.marked
      ∧ Sample.marked.selected ["g"] = [⟨.signalGroup, 0⟩]
      ∧ (∃ t, Sample.marked.selectedTable ["g"] = .ok t ∧ t.lookup "physical" "b" = some 8)
      ∧ ((Sample.annotating.foldl after Sample.plain).get? ⟨.signalGroup, 0⟩).map
          References.isBinary = some true
      ∧ (Sample.annotating.foldl after Sample.plain).selectedTable []
          = Sample.plain.selectedTable [] := by
  have hsame : SameCore Sample.plain Sample.marked := ⟨by decide, by decide, by decide⟩
  obtain ⟨hcatalogs, -⟩ := selectedTable_independent Sample.plain ["g"]
  obtain ⟨hselected, htable, -⟩ := hcatalogs Sample.marked hsame
  obtain ⟨-, hannotating⟩ := selectedTable_independent Sample.plain []
  refine ⟨hsame, hselected.trans (by decide), ?_, by decide,
    (hannotating Sample.annotating Sample.annotates).2.1⟩
  obtain ⟨t, ht, hlookup⟩ : ∃ t, Sample.plain.selectedTable ["g"] = .ok t
      ∧ t.lookup "physical" "b" = some 8 := ⟨_, rfl, by decide⟩
  exact ⟨t, htable.trans ht, hlookup⟩

end SimAnnotate.Catalog
