import SimAnnotate.Proofs.Catalog.Refinement
import SimAnnotate.Proofs.References
import SimAnnotate.Proofs.Wiring

/-!
# How a catalog changes while a run works on it

A run revises some documents of a catalog, one after the other. `Catalog.Evolves`
says what that comes to: the files stay, only annotations of the documents at the
given handles change, and the file of a document that changed is flagged. One
step does so (`Evolves.revise`), and steps follow each other (`Evolves.trans`).
-/

namespace SimAnnotate.Catalog

/-- Documents that agree handle by handle agree kind by kind. -/
theorem map_documents_congr {α : Type} {f : Document → α} {c c' : Catalog}
    (h : ∀ h, (c'.get? h).map f = (c.get? h).map f) (k : Kind) :
    (c'.documents k).map f = (c.documents k).map f := by
  ext1 i
  rw [List.getElem?_map, List.getElem?_map]
  exact h ⟨k, i⟩

theorem exists_stackDocument_congr {c c' : Catalog}
    (h : (c'.documents .stack).map Document.outline
      = (c.documents .stack).map Document.outline)
    (hc : ∃ d, c.stackDocument = .ok d) : ∃ d, c'.stackDocument = .ok d := by
  obtain ⟨d, hd⟩ := hc
  rw [stackDocument_eq_ok.mp hd, List.map_singleton, List.map_eq_singleton_iff] at h
  obtain ⟨d', hd', -⟩ := h
  exact ⟨d', stackDocument_eq_ok.mpr hd'⟩

/-! ## Selection -/

theorem mem_selected {c : Catalog} {names : List String} {h : Handle} :
    h ∈ c.selected names ↔ h.kind = .signalGroup
      ∧ ∃ d, c.get? h = some d ∧ isSelected names d = true := by
  rw [selected, List.mem_filter, handles, List.mem_map, Option.any_eq_true]
  constructor
  · rintro ⟨⟨n, -, rfl⟩, d, hd, hselected⟩
    exact ⟨rfl, d, hd, hselected⟩
  · rintro ⟨hkind, d, hd, hselected⟩
    have hlt := (List.getElem?_eq_some_iff.mp hd).1
    rw [hkind] at hlt
    refine ⟨⟨h.position, List.mem_range.mpr hlt, ?_⟩, d, hd, hselected⟩
    rw [← hkind]

/-- The Stack is no signal group. -/
theorem ne_stack_of_mem_selected {c : Catalog} {names : List String} {h : Handle}
    (hh : h ∈ c.selected names) : h ∉ [(⟨.stack, 0⟩ : Handle)] := by
  intro hmem
  have hkind := (mem_selected.mp hh).1
  rw [List.mem_singleton.mp hmem] at hkind
  cases hkind

theorem nodup_selected (c : Catalog) (names : List String) : (c.selected names).Nodup := by
  have hhandles : (c.handles .signalGroup).Nodup :=
    List.nodup_range.map fun _ _ h => (Handle.mk.inj h).2
  exact hhandles.filter _

/-- Groups that take no part do not matter to the selection. -/
theorem selected_of_append {c c' : Catalog} {names : List String} {more : List Document}
    (h : c'.documents .signalGroup = c.documents .signalGroup ++ more)
    (hmore : ∀ d ∈ more, isSelected names d = false) : c'.selected names = c.selected names := by
  rw [selected, selected, handles, handles, h, List.length_append, List.range_add,
    List.map_append, List.filter_append]
  -- the handles of before have their documents
  have hbefore : ∀ h' ∈ (List.range (c.documents .signalGroup).length).map
      (Handle.mk .signalGroup), c'.get? h' = c.get? h' := by
    intro h' hmem
    obtain ⟨n, hn, rfl⟩ := List.mem_map.mp hmem
    rw [get?, get?, h, List.getElem?_append_left (List.mem_range.mp hn)]
  -- and those behind them have documents that are not selected
  have hbehind : (((List.range more.length).map
      ((c.documents .signalGroup).length + ·)).map (Handle.mk .signalGroup)).filter
        (fun h => (c'.get? h).any (isSelected names)) = [] := by
    refine List.filter_eq_nil_iff.mpr fun h' hmem => ?_
    obtain ⟨n, hn, rfl⟩ := List.mem_map.mp hmem
    obtain ⟨i, -, rfl⟩ := List.mem_map.mp hn
    rw [get?, h, List.getElem?_append_right (Nat.le_add_right _ _), Nat.add_sub_cancel_left]
    cases hd : more[i]? with
    | none => exact Bool.false_ne_true
    | some d =>
        rw [Option.any_some, hmore d (List.mem_of_getElem? hd)]
        exact Bool.false_ne_true
  rw [hbehind, List.append_nil]
  exact List.filter_congr fun h' hmem => by rw [hbefore h' hmem]

/-- Annotations do not matter to the selection, and neither do the fields that are not
known. -/
theorem selected_congr {c c' : Catalog}
    (h : (c'.documents .signalGroup).map Document.core
      = (c.documents .signalGroup).map Document.core)
    (names : List String) : c'.selected names = c.selected names := by
  have hlength := congrArg List.length h
  rw [List.length_map, List.length_map] at hlength
  have hany : ∀ o : Option Document, o.any (isSelected names)
      = (o.map Document.core).any (isSelected names) := by
    intro o
    cases o with
    | none => rfl
    | some d => simp [isSelected]
  rw [selected, selected, handles, handles, hlength]
  refine List.filter_congr fun h' hmem => ?_
  obtain ⟨n, -, rfl⟩ := List.mem_map.mp hmem
  rw [hany, hany (c.get? _), get?, get?, ← List.getElem?_map, ← List.getElem?_map, h]

/-! ## Evolution -/

/-- All documents are sound. -/
def Sound (c : Catalog) : Prop := ∀ h d, c.get? h = some d → d.Sound

/-- `c'` comes from `c` by revising documents at `hs`. -/
structure Evolves (hs : List Handle) (c c' : Catalog) : Prop where
  records : c'.records = c.records
  excluded : c'.excluded = c.excluded
  outlines : ∀ h, (c'.get? h).map Document.outline = (c.get? h).map Document.outline
  kept : ∀ h, h ∉ hs → c'.get? h = c.get? h
  flags : ∀ q, c.isFlagged q = true → c'.isFlagged q = true
  changed : ∀ h d, c.get? h = some d → c'.get? h = some d
    ∨ ∀ p, d.file = some p → c.contains p = true → c'.isFlagged p = true
  flagged : ∀ q ∈ c'.flagged.values, q ∈ c.flagged.values
    ∨ ∃ h ∈ hs, ∃ d, c.get? h = some d ∧ d.file = some q
  sound : c.Sound → c'.Sound
  refined : ∀ l, c.Refines l → ∃ l', c'.Refines l'
    ∧ l'.files.map (·.path) = l.files.map (·.path)

namespace Evolves

variable {hs hs' : List Handle} {c c' c'' : Catalog}

theorem refl (c : Catalog) : Evolves [] c c where
  records := rfl
  excluded := rfl
  outlines _ := rfl
  kept _ _ := rfl
  flags _ hq := hq
  changed _ _ hd := .inl hd
  flagged _ hq := .inl hq
  sound h := h
  refined l r := ⟨l, r, rfl⟩

theorem mono (he : Evolves hs c c') (hsub : hs ⊆ hs') : Evolves hs' c c' :=
  { he with
    kept := fun h hh => he.kept h fun hmem => hh (hsub hmem)
    flagged := fun q hq => (he.flagged q hq).imp_right fun ⟨h, hh, hd⟩ =>
      ⟨h, hsub hh, hd⟩ }

/-- A document found later was there before, with the same outline. -/
theorem exists_outline (he : Evolves hs c c') {h : Handle} {d' : Document}
    (hd' : c'.get? h = some d') : ∃ d, c.get? h = some d ∧ d.outline = d'.outline := by
  have houtline := he.outlines h
  rw [hd', Option.map_some, eq_comm, Option.map_eq_some_iff] at houtline
  exact houtline

theorem trans (he : Evolves hs c c') (he' : Evolves hs' c' c'') :
    Evolves (hs ++ hs') c c'' where
  records := he'.records.trans he.records
  excluded := he'.excluded.trans he.excluded
  outlines h := (he'.outlines h).trans (he.outlines h)
  kept h hh := by
    rw [List.mem_append, not_or] at hh
    rw [he'.kept h hh.2, he.kept h hh.1]
  flags q hq := he'.flags q (he.flags q hq)
  changed h d hd := by
    -- a file that the first step flags stays flagged in the second
    rcases he.changed h d hd with hd' | hflag
    · rcases he'.changed h d hd' with hd'' | hflag
      · exact .inl hd''
      · refine .inr fun p hfile hp => hflag p hfile ?_
        rwa [contains, he.records]
    · exact .inr fun p hfile hp => he'.flags p (hflag p hfile hp)
  flagged q hq := by
    rcases he'.flagged q hq with hq | ⟨h, hh, d', hd', hfile⟩
    · rcases he.flagged q hq with hq | ⟨h, hh, d, hd, hfile⟩
      · exact .inl hq
      · exact .inr ⟨h, List.mem_append_left _ hh, d, hd, hfile⟩
    · -- in `c` the document had the same file
      obtain ⟨d, hd, houtline⟩ := he.exists_outline hd'
      refine .inr ⟨h, List.mem_append_right _ hh, d, hd, ?_⟩
      rw [← d.file_outline, houtline, d'.file_outline, hfile]
  sound h := he'.sound (he.sound h)
  refined l r := by
    obtain ⟨l', r', hpaths⟩ := he.refined l r
    obtain ⟨l'', r'', hpaths'⟩ := he'.refined l' r'
    exact ⟨l'', r'', hpaths'.trans hpaths⟩

/-- Revising a document is a step. -/
theorem revise {h : Handle} {d : Document} (hd : c.get? h = some d)
    {f : Document → Document} (houtline : (f d).outline = d.outline)
    (hsound : d.Sound → (f d).Sound) (hkind : ∀ d, (f d).kind = d.kind)
    (hfile : ∀ d, (f d).file = d.file) : Evolves [h] c (c.revise h d f) := by
  have hself : (c.revise h d f).get? h = some (f d) := by
    rw [get?_revise, get?_modify_self, hd, Option.map_some]
  have hother : ∀ h', h' ≠ h → (c.revise h d f).get? h' = c.get? h' := fun h' hne => by
    rw [get?_revise, get?_modify_ne c hne]
  -- only this document changes, so it and the others are looked at apart
  exact {
    records := c.records_revise h d f
    excluded := c.excluded_revise h d f
    outlines := fun h' => by
      by_cases heq : h' = h
      · rw [heq, hself, hd, Option.map_some, Option.map_some, houtline]
      · rw [hother h' heq]
    kept := fun h' hh => hother h' fun heq => hh (List.mem_singleton.mpr heq)
    flags := fun q hq => c.isFlagged_revise h d f hq
    changed := fun h' d' hd' => by
      by_cases heq : h' = h
      · subst heq
        rw [hd] at hd'
        cases hd'
        exact .inr fun p hp hknown => c.isFlagged_revise_self h' f hp hknown
      · exact .inl ((hother h' heq).trans hd')
    flagged := fun q hq => (c.mem_flagged_revise h d f hq).imp_right fun hp =>
      ⟨h, List.mem_singleton_self h, d, hd, hp⟩
    sound := fun hc h' d' hd' => by
      by_cases heq : h' = h
      · subst heq
        rw [hself] at hd'
        cases hd'
        exact hsound (hc h' d hd)
      · rw [hother h' heq] at hd'
        exact hc h' d' hd'
    refined := fun l r => by
      refine ⟨(l.edit h f).flagFile d, (r.modify h hkind hfile).flagFile d, ?_⟩
      rw [Listing.files_flagFile]
      exact Listing.paths_editFiles [] l.files }

/-- Giving references is a step. -/
theorem annotate {h : Handle} {rules : RuleSet} {policy : ReferencePolicy}
    {a : References.Annotated} (ha : References.annotate c h rules policy = .ok a) :
    Evolves [h] c a.catalog := by
  rw [References.annotate_eq] at ha
  obtain ⟨x, hx, rfl⟩ := Except.map_eq_ok.mp ha
  obtain ⟨hd, -, channel, g, -, hg, hreferred⟩ := References.of_referred hx
  refine .revise hd ?_ ?_ (fun d => d.kind_mapSignals _) (fun d => d.file_mapSignals _)
  · rw [hreferred]
    exact Document.outline_mapSignals hg
      (References.outline_referSignals rules channel g.signals policy)
  · rw [hreferred]
    exact fun hsound => hsound.mapSignals fun g' _ =>
      References.sound_referSignals rules channel (hsound.group hg).signals policy

/-! ## What follows -/

theorem documents_outline (he : Evolves hs c c') (k : Kind) :
    (c'.documents k).map Document.outline = (c.documents k).map Document.outline :=
  map_documents_congr he.outlines k

/-- Groups stay wired as they are. -/
theorem channel? (he : Evolves hs c c') {d d' : Document} (hd : d'.outline = d.outline) :
    Wiring.channel? c' d' = Wiring.channel? c d :=
  Wiring.channel?_congr (he.documents_outline .stack) (he.documents_outline .model) hd

/-- A file that is not flagged has the documents that it had. -/
theorem documentsOf (he : Evolves hs c c') {l : Listing} (r : c.Refines l) {p : Path}
    (hp : c'.isFlagged p = false) : c'.documentsOf p = c.documentsOf p := by
  have hfile := fun d => r.file_of_mem (p := p) (d := d)
  unfold Catalog.documentsOf at hfile ⊢
  rw [he.records]
  cases hrecord : c.records.get? p.parts with
  | none => rfl
  | some record =>
      rw [hrecord] at hfile
      change record.handles.filterMap c'.get? = record.handles.filterMap c.get?
      refine List.filterMap_congr fun h hh => ?_
      cases hd : c.get? h with
      | none =>
          have houtline := he.outlines h
          rwa [hd, Option.map_none, Option.map_eq_none_iff] at houtline
      | some d =>
          -- a document that had changed would have flagged its file
          refine (he.changed h d hd).resolve_right fun hflag => ?_
          obtain ⟨f, -, hf, hparts⟩ := hfile d (List.mem_filterMap.mpr ⟨h, hh, hd⟩)
          have hknown : c.contains f.path = true := by
            rw [contains, hparts, OrderedMap.contains, hrecord]
            rfl
          have hflagged := hflag f.path hf hknown
          rw [isFlagged, hparts, ← isFlagged, hp] at hflagged
          cases hflagged

end Evolves

end SimAnnotate.Catalog
