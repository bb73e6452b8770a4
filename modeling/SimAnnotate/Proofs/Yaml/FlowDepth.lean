import Mathlib.Data.List.Forall2
import SimAnnotate.Proofs.Yaml.Lexer

/-!
# Open flow collections

The lexer keeps one pending key for each flow collection that is open. How many are
open can be read from the tokens so far (`flowDepth`), and the lexer's list always has
this length (`Keeps`). So a text whose tokens close all their flow collections leaves
the lexer in the block context.
-/

namespace SimAnnotate.Yaml

open Text

/-- How many flow collections are open after a token, with `n` open before it. An end
without a start counts for nothing. -/
def Token.deepen (n : Nat) : Token → Nat
  | .flowSequenceStart | .flowMappingStart => n + 1
  | .flowSequenceEnd | .flowMappingEnd => n - 1
  | _ => n

/-- How many flow collections are open after tokens, with `n` open before them. -/
def flowDepth (n : Nat) (ts : List Token) : Nat := ts.foldl Token.deepen n

/-- A token that neither opens nor closes a flow collection. -/
def Token.IsLevel (t : Token) : Prop := ∀ n, t.deepen n = n

theorem flowDepth_append (n : Nat) (ts us : List Token) :
    flowDepth n (ts ++ us) = flowDepth (flowDepth n ts) us := List.foldl_append

theorem flowDepth_of_isLevel {ts : List Token} (h : ∀ t ∈ ts, t.IsLevel) (n : Nat) :
    flowDepth n ts = n := by
  induction ts with
  | nil => rfl
  | cons t rest ih =>
      rw [flowDepth, List.foldl_cons, h t List.mem_cons_self n]
      exact ih fun t ht => h t (List.mem_cons_of_mem _ ht)

/-- More collections are open behind tokens with more open before them. -/
theorem flowDepth_mono {n m : Nat} (h : n ≤ m) (ts : List Token) :
    flowDepth n ts ≤ flowDepth m ts := by
  induction ts generalizing n m with
  | nil => exact h
  | cons t rest ih =>
      refine ih ?_
      cases t <;> simp only [Token.deepen] <;> omega

namespace Lexer

/-- There is a pending key for each open flow collection. -/
def Balanced (l : Lexer) : Prop := l.outer.length = flowDepth 0 l.tokens.toList

/-- Where `key` tokens could still be put. -/
def positions (l : Lexer) : List Nat :=
  (l.pending :: l.outer).filterMap (·.map (·.position))

/-- The first token is `t`, and no key can go in front of it. -/
def Begins (t : Token) (l : Lexer) : Prop := l.tokens.toList.head? = some t ∧ 0 ∉ l.positions

/-- What every operation of the lexer leaves as it is. -/
structure Keeps (l l' : Lexer) : Prop where
  truncated : l'.truncated = l.truncated
  balanced : l.Balanced → l'.Balanced
  begins (t : Token) : l.Begins t → l'.Begins t

variable {l l' l₁ : Lexer}

theorem Keeps.refl (l : Lexer) : Keeps l l := ⟨rfl, id, fun _ => id⟩

theorem Keeps.trans (h : Keeps l l₁) (h' : Keeps l₁ l') : Keeps l l' :=
  ⟨h'.truncated.trans h.truncated, h'.balanced ∘ h.balanced, fun t => h'.begins t ∘ h.begins t⟩

/-- A key that becomes pending would go behind all tokens. -/
theorem Begins.of_append {t : Token} (h : l.Begins t) {ts : List Token}
    (htokens : l'.tokens.toList = l.tokens.toList ++ ts)
    (hpositions : l'.positions ⊆ l.tokens.size :: l.positions) : l'.Begins t := by
  obtain ⟨hhead, hzero⟩ := h
  obtain ⟨rest, hrest⟩ := List.head?_eq_some_iff.mp hhead
  refine ⟨?_, fun h => ?_⟩
  · rw [htokens, hrest]
    rfl
  · rcases List.mem_cons.mp (hpositions h) with hsize | h
    · rw [← Array.length_toList, hrest] at hsize
      cases hsize
    · exact hzero h

/-- An operation that adds tokens of no flow collection. -/
theorem Keeps.of_append {ts : List Token} (hts : ∀ t ∈ ts, t.IsLevel)
    (htruncated : l'.truncated = l.truncated) (houter : l'.outer.length = l.outer.length)
    (htokens : l'.tokens.toList = l.tokens.toList ++ ts)
    (hpositions : l'.positions ⊆ l.tokens.size :: l.positions) : Keeps l l' := by
  refine ⟨htruncated, fun h => ?_, fun t h => h.of_append htokens hpositions⟩
  rw [Balanced, houter, htokens, flowDepth_append, flowDepth_of_isLevel hts]
  exact h

/-- An operation on the pending keys. -/
theorem Keeps.of_positions (htruncated : l'.truncated = l.truncated)
    (houter : l'.outer.length = l.outer.length) (htokens : l'.tokens = l.tokens)
    (hpositions : l'.positions ⊆ l.tokens.size :: l.positions) : Keeps l l' := by
  have happend : l'.tokens.toList = l.tokens.toList ++ [] := by
    rw [htokens, List.append_nil]
  exact .of_append (List.forall_mem_nil _) htruncated houter happend hpositions

/-- An operation that changes neither tokens nor pending keys. -/
theorem Keeps.of_tokens (htruncated : l'.truncated = l.truncated)
    (hpending : l'.pending = l.pending) (houter : l'.outer = l.outer)
    (htokens : l'.tokens = l.tokens) : Keeps l l' := by
  refine .of_positions htruncated (congrArg _ houter) htokens ?_
  rw [positions, hpending, houter]
  exact List.subset_cons_self ..

/-- An operation that adds a token of no flow collection. -/
theorem Keeps.of_emit {t : Token} (ht : t.IsLevel) (htruncated : l'.truncated = l.truncated)
    (hpending : l'.pending = l.pending) (houter : l'.outer = l.outer)
    (htokens : l'.tokens = l.tokens.push t) : Keeps l l' := by
  have happend : l'.tokens.toList = l.tokens.toList ++ [t] := by
    rw [htokens, Array.toList_push]
  refine .of_append ?_ htruncated (congrArg _ houter) happend ?_
  · rintro t' ht'
    cases List.mem_singleton.mp ht'
    exact ht
  · rw [positions, hpending, houter]
    exact List.subset_cons_self ..

/-! ## Operations -/

theorem forall₂_of_mapM {α β : Type} {f : α → Option β} {xs : List α} {ys : List β}
    (h : xs.mapM f = some ys) : List.Forall₂ (fun x y => f x = some y) xs ys := by
  induction xs generalizing ys with
  | nil =>
      cases h
      exact .nil
  | cons x rest ih =>
      rw [List.mapM_cons] at h
      obtain ⟨y, hy, h⟩ := Option.bind_eq_some_iff.mp h
      obtain ⟨ys', hrest, h⟩ := Option.bind_eq_some_iff.mp h
      cases h
      exact .cons hy (ih hrest)

theorem refresh?_eq_some {m : Mark} {k k' : Option PendingKey} (h : refresh? m k = some k') :
    k' = none ∨ k' = k := by
  cases k with
  | none =>
      cases h
      exact .inl rfl
  | some k =>
      rw [refresh?] at h
      split at h
      · cases h
        exact .inr rfl
      · split at h <;> cases h
        exact .inl rfl

theorem positions_refresh {m : Mark} {ks ks' : List (Option PendingKey)}
    (h : List.Forall₂ (fun k k' => refresh? m k = some k') ks ks') :
    ks'.filterMap (·.map (·.position)) ⊆ ks.filterMap (·.map (·.position)) := by
  induction h with
  | nil => exact List.Subset.refl _
  | @cons k k' rest rest' hk _ ih =>
      rcases refresh?_eq_some hk with rfl | rfl
      · exact List.Subset.trans ih ((List.sublist_cons_self k rest).filterMap _).subset
      · cases k' with
        | none => exact ih
        | some k => exact List.cons_subset_cons _ ih

/-- Without the innermost pending key. -/
theorem positions_drop (l : Lexer) : l.outer.filterMap (·.map (·.position)) ⊆ l.positions :=
  ((List.sublist_cons_self l.pending l.outer).filterMap _).subset

theorem keeps_refreshAll? (h : l.refreshAll? = some l') : Keeps l l' := by
  unfold refreshAll? at h
  split at h
  · next pending outer hpending houter =>
      cases h
      have hall := forall₂_of_mapM houter
      exact .of_positions rfl hall.length_eq.symm rfl
        (List.subset_cons_of_subset _ (positions_refresh (.cons hpending hall)))
  · cases h

theorem keeps_dropKey? (h : l.dropKey? = some l') : Keeps l l' := by
  unfold dropKey? at h
  split at h
  · cases h
  · cases h
    exact .of_positions rfl rfl rfl
      (List.subset_cons_of_subset _ (positions_drop l))

theorem keeps_saveKey? (h : l.saveKey? = some l') : Keeps l l' := by
  unfold saveKey? at h
  split at h
  · obtain ⟨l₁, hdrop, heq⟩ := Option.map_eq_some_iff.mp h
    have hkeeps := keeps_dropKey? hdrop
    cases heq
    exact hkeeps.trans (.of_positions rfl rfl rfl
      (List.cons_subset_cons _ (positions_drop l₁)))
  · cases h
    exact .refl _

theorem toList_closeFrom (column : Option Nat) (columns : List Nat) (ts : Array Token) :
    ∃ us, (closeFrom column columns ts).2.toList = ts.toList ++ us ∧ ∀ t ∈ us, t.IsLevel := by
  induction columns generalizing ts with
  | nil => exact ⟨[], (List.append_nil _).symm, nofun⟩
  | cons c outer ih =>
      rw [closeFrom]
      split
      · obtain ⟨us, htokens, hus⟩ := ih (ts.push .blockEnd)
        refine ⟨.blockEnd :: us, ?_, ?_⟩
        · rw [htokens, Array.toList_push, List.append_assoc]
          rfl
        · exact List.forall_mem_cons.mpr ⟨fun _ => rfl, hus⟩
      · exact ⟨[], (List.append_nil _).symm, nofun⟩

theorem keeps_close (column : Option Nat) : Keeps l (l.close column) := by
  unfold close
  split
  · exact .refl l
  · obtain ⟨us, htokens, hus⟩ := toList_closeFrom column l.columns l.tokens
    exact .of_append hus rfl rfl htokens (List.subset_cons_self ..)

theorem keeps_openAt {t : Token} (ht : t.IsLevel) : Keeps l (l.openAt t) := by
  unfold openAt
  split
  · exact .of_emit ht rfl rfl rfl rfl
  · exact .refl l

theorem keeps_leaveDocument? (h : l.leaveDocument? = some l') : Keeps l l' := by
  obtain ⟨l₁, hdrop, rfl⟩ := Option.map_eq_some_iff.mp h
  exact (keeps_close none).trans ((keeps_dropKey? hdrop).trans (.of_tokens rfl rfl rfl rfl))

theorem keeps_skipGap (fuel : Nat) : Keeps l (l.skipGap fuel) := by
  induction fuel generalizing l with
  | zero => exact .refl l
  | succ fuel ih =>
      rw [skipGap_succ]
      split
      · have hline : Keeps l { l with
            cursor := l.gapLine.skip
            keyAllowed := l.keyAllowed || !l.inFlow } := .of_tokens rfl rfl rfl rfl
        exact hline.trans ih
      · exact .of_tokens rfl rfl rfl rfl

/-! ## Words -/

theorem keeps_flowStart? {t : Token} (ht : ∀ n, t.deepen n = n + 1)
    (h : l.flowStart? t = some l') : Keeps l l' := by
  obtain ⟨l₁, hsave, rfl⟩ := Option.map_eq_some_iff.mp h
  refine (keeps_saveKey? hsave).trans ⟨rfl, fun hbalanced => ?_, fun t' hbegins => ?_⟩
  · change l₁.outer.length + 1 = flowDepth 0 (l₁.tokens.push t).toList
    rw [Array.toList_push, flowDepth_append, hbalanced]
    exact (ht _).symm
  · exact hbegins.of_append Array.toList_push (List.subset_cons_self ..)

theorem keeps_flowEnd? {t : Token} (ht : ∀ n, t.deepen n = n - 1)
    (h : l.flowEnd? t = some l') : Keeps l l' := by
  obtain ⟨l₁, hdrop, rfl⟩ := Option.map_eq_some_iff.mp h
  refine (keeps_dropKey? hdrop).trans ?_
  obtain ⟨cursor, tokens, columns, pending, outer, keyAllowed, truncated⟩ := l₁
  have hdepth : flowDepth 0 (tokens.push t).toList = flowDepth 0 tokens.toList - 1 := by
    rw [Array.toList_push, flowDepth_append]
    exact ht _
  -- an end without a start leaves no flow, and the depth is zero before and after
  cases outer with
  | nil =>
      refine ⟨rfl, fun hbalanced => ?_, fun t' hbegins => ?_⟩
      · have hlength : 0 = flowDepth 0 tokens.toList := hbalanced
        change 0 = flowDepth 0 (tokens.push t).toList
        omega
      · exact hbegins.of_append Array.toList_push (List.subset_cons_self ..)
  | cons k outer =>
      refine ⟨rfl, fun hbalanced => ?_, fun t' hbegins => ?_⟩
      · have hlength : outer.length + 1 = flowDepth 0 tokens.toList := hbalanced
        change outer.length = flowDepth 0 (tokens.push t).toList
        omega
      · have hdrop := positions_drop
          ⟨cursor, tokens, columns, pending, k :: outer, keyAllowed, truncated⟩
        exact hbegins.of_append Array.toList_push (List.subset_cons_of_subset _ hdrop)

theorem keeps_openBlock? {t : Token} (ht : t.IsLevel) (h : l.openBlock? t = some l') :
    Keeps l l' := by
  unfold openBlock? at h
  split at h
  · cases h
    exact .refl l
  · split at h
    · cases h
      exact keeps_openAt ht
    · cases h

theorem flowDepth_insertAt (tokens : Array Token) (position : Nat) {ts : List Token}
    (h : ∀ t ∈ ts, t.IsLevel) (n : Nat) :
    flowDepth n (insertAt tokens position ts).toList = flowDepth n tokens.toList := by
  conv => rhs; rw [← List.take_append_drop position tokens.toList]
  rw [insertAt, flowDepth_append, flowDepth_append, flowDepth_append,
    flowDepth_of_isLevel h]

theorem head?_insertAt {tokens : Array Token} {position : Nat} (h : position ≠ 0) {t : Token}
    (ht : tokens.toList.head? = some t) (ts : List Token) :
    (insertAt tokens position ts).toList.head? = some t := by
  obtain ⟨rest, hrest⟩ := List.head?_eq_some_iff.mp ht
  obtain ⟨n, rfl⟩ := Nat.exists_eq_succ_of_ne_zero h
  rw [insertAt, hrest]
  rfl

theorem keeps_keyed {k : PendingKey} (hpending : l.pending = some k) :
    Keeps l (l.keyed k) := by
  refine ⟨rfl, fun h => ?_, fun t h => ⟨?_, fun hzero => ?_⟩⟩
  · refine h.trans (flowDepth_insertAt l.tokens k.position (fun t ht => ?_) 0).symm
    split at ht
    · rcases List.mem_cons.mp ht with rfl | ht
      · exact fun _ => rfl
      · cases List.mem_singleton.mp ht
        exact fun _ => rfl
    · cases List.mem_singleton.mp ht
      exact fun _ => rfl
  · refine head?_insertAt (fun hposition => h.2 ?_) h.1 _
    rw [positions, hpending, ← hposition]
    exact List.mem_cons_self
  · exact h.2 (positions_drop l hzero)

theorem keeps_value? (h : l.value? = some l') : Keeps l l' := by
  cases hpending : l.pending with
  | some k =>
      rw [value?_of_pending hpending] at h
      cases h
      exact (keeps_keyed hpending).trans (.of_emit (t := .value) (fun _ => rfl) rfl rfl rfl rfl)
  | none =>
      rw [value?_of_none hpending] at h
      obtain ⟨l₁, hopen, rfl⟩ := Option.map_eq_some_iff.mp h
      exact (keeps_openBlock? (fun _ => rfl) hopen).trans
        (.of_emit (t := .value) (fun _ => rfl) rfl rfl rfl rfl)

theorem keeps_blockMark? {start t : Token} {allows : Lexer → Bool} (hstart : start.IsLevel)
    (ht : t.IsLevel) (h : l.blockMark? start t allows = some l') : Keeps l l' := by
  obtain ⟨l₁, hopen, h⟩ := Option.bind_eq_some_iff.mp h
  obtain ⟨l₂, hdrop, rfl⟩ := Option.map_eq_some_iff.mp h
  exact (keeps_openBlock? hstart hopen).trans ((keeps_dropKey? hdrop).trans
    (.of_emit ht rfl rfl rfl rfl))

theorem keeps_keyWord? {read : Cursor → Option (Token × Cursor)}
    (hlevel : ∀ c t c', read c = some (t, c') → t.IsLevel) (h : l.keyWord? read = some l') :
    Keeps l l' := by
  rw [keyWord?_eq] at h
  obtain ⟨l₁, hsave, h⟩ := Option.bind_eq_some_iff.mp h
  obtain ⟨⟨t, c⟩, hread, rfl⟩ := Option.map_eq_some_iff.mp h
  exact (keeps_saveKey? hsave).trans (.of_emit (hlevel _ _ _ hread) rfl rfl rfl rfl)

theorem keeps_blockScalar? {literal : Bool} (h : l.blockScalar? literal = some l') :
    Keeps l l' := by
  rw [ blockScalar?_eq] at h
  obtain ⟨l₁, hdrop, h⟩ := Option.bind_eq_some_iff.mp h
  obtain ⟨⟨text, c⟩, -, rfl⟩ := Option.map_eq_some_iff.mp h
  exact (keeps_dropKey? hdrop).trans
    (.of_emit (t := .scalar text false) (fun _ => rfl) rfl rfl rfl rfl)

theorem keeps_plainScalar? (h : l.plainScalar? = some l') : Keeps l l' := by
  rw [plainScalar?_eq] at h
  obtain ⟨l₁, hsave, h⟩ := Option.bind_eq_some_iff.mp h
  obtain ⟨⟨text, broken, c⟩, -, rfl⟩ := Option.map_eq_some_iff.mp h
  exact (keeps_saveKey? hsave).trans
    (.of_emit (t := .scalar text true) (fun _ => rfl) rfl rfl rfl rfl)

theorem isLevel_of_tag? {c c' : Cursor} {t : Token} (h : tag? c = some (t, c')) :
    t.IsLevel := by
  have htag : ∀ handle suffix, (Token.tag handle suffix).IsLevel := fun _ _ _ => rfl
  unfold tag? at h
  split at h
  · split at h
    · split at h <;> cases h
      exact htag _ _
    · cases h
  · simp only at h
    split at h
    · split at h
      · split at h <;> cases h
        exact htag _ _
      · split at h <;> cases h <;> exact htag _ _
    · cases h

theorem isLevel_of_version? {c c' : Cursor} {t : Token} (h : version? c = some (t, c')) :
    t.IsLevel := by
  unfold version? at h
  split at h
  · obtain ⟨-, h⟩ := Option.ite_none_right_eq_some.mp h
    obtain ⟨⟨minor, c₁⟩, -, heq⟩ := Option.map_eq_some_iff.mp h
    cases heq
    exact fun _ => rfl
  · cases h

theorem isLevel_of_tagDirective? {c c' : Cursor} {t : Token}
    (h : tagDirective? c = some (t, c')) : t.IsLevel := by
  unfold tagDirective? at h
  simp only at h
  split at h
  · cases h
  · split at h
    · cases h
    · obtain ⟨-, h⟩ := Option.ite_none_right_eq_some.mp h
      split at h
      · split at h <;> cases h
        exact fun _ => rfl
      · cases h

theorem isLevel_of_directive? {c c' : Cursor} {t : Token} (h : directive? c = some (t, c')) :
    t.IsLevel := by
  unfold directive? at h
  simp only at h
  split at h
  · cases h
  · obtain ⟨⟨t, c₁⟩, hfound, h⟩ := Option.bind_eq_some_iff.mp h
    obtain ⟨c₂, -, heq⟩ := Option.map_eq_some_iff.mp h
    cases heq
    split at hfound
    · exact isLevel_of_version? hfound
    · split at hfound
      · exact isLevel_of_tagDirective? hfound
      · cases hfound

theorem isLevel_of_name? {make : String → Token} (hmake : ∀ name, (make name).IsLevel)
    {c c' : Cursor} {t : Token} (h : name? make c = some (t, c')) : t.IsLevel := by
  unfold name? at h
  simp only at h
  split at h
  · cases h
  · cases h
    exact hmake _

/-- Every lexer that is given keeps what `l` has. -/
def Yields (l : Lexer) (r : Option Lexer) : Prop := ∀ l', r = some l' → Keeps l l'

theorem yields_ite {p : Prop} [Decidable p] {r s : Option Lexer} (hr : Yields l r)
    (hs : Yields l s) : Yields l (if p then r else s) := by
  split
  · exact hr
  · exact hs

theorem yields_comma :
    Yields l (l.dropKey?.map fun l => (l.emitAlong 1 .flowEntry).allowKey true) := by
  intro l' h
  obtain ⟨l₁, hdrop, rfl⟩ := Option.map_eq_some_iff.mp h
  exact (keeps_dropKey? hdrop).trans (.of_emit (t := .flowEntry) (fun _ => rfl) rfl rfl rfl rfl)

theorem yields_name {make : String → Token} (hmake : ∀ name, (make name).IsLevel) :
    Yields l (l.keyWord? (name? make)) := fun _ =>
  keeps_keyWord? fun _ _ _ => isLevel_of_name? hmake

theorem yields_tag : Yields l (l.keyWord? (tagWord? l.inFlow)) := fun _ =>
  keeps_keyWord? fun _ _ _ hread => isLevel_of_tag? (Option.filter_eq_some_iff.mp hread).1

theorem yields_quoted : Yields l (l.keyWord? quotedWord?) := by
  refine fun _ => keeps_keyWord? fun c t c' hread => ?_
  obtain ⟨⟨text, c₁⟩, -, heq⟩ := Option.map_eq_some_iff.mp hread
  cases heq
  exact fun _ => rfl

theorem yields_wordAt? (x : Char) (rest : List Char) : Yields l (l.wordAt? x rest) := by
  unfold wordAt?
  refine yields_ite (fun _ => keeps_flowStart? fun _ => rfl) ?_
  refine yields_ite (fun _ => keeps_flowStart? fun _ => rfl) ?_
  refine yields_ite (fun _ => keeps_flowEnd? fun _ => rfl) ?_
  refine yields_ite (fun _ => keeps_flowEnd? fun _ => rfl) ?_
  refine yields_ite yields_comma ?_
  refine yields_ite (yields_name fun _ _ => rfl) ?_
  refine yields_ite (yields_name fun _ _ => rfl) ?_
  refine yields_ite yields_tag ?_
  refine yields_ite yields_quoted ?_
  refine yields_ite ?_ ?_
  · rw [ blockEntry?_eq]
    exact fun _ => keeps_blockMark? (fun _ => rfl) fun _ => rfl
  refine yields_ite ?_ ?_
  · rw [key?_eq]
    exact fun _ => keeps_blockMark? (fun _ => rfl) fun _ => rfl
  refine yields_ite (fun _ => keeps_value?) ?_
  refine yields_ite (fun _ => keeps_blockScalar?) ?_
  refine yields_ite (fun _ => keeps_blockScalar?) ?_
  refine yields_ite (fun _ => keeps_plainScalar?) ?_
  rintro l' ⟨⟩

theorem keeps_fetch? {x : Char} {rest : List Char} (hrest : l.rest = x :: rest)
    (h : l.fetch? = some l') : Keeps l l' := by
  rw [fetch?_eq hrest] at h
  split at h
  · obtain ⟨l₁, hleave, h⟩ := Option.bind_eq_some_iff.mp h
    obtain ⟨⟨t, c⟩, hread, rfl⟩ := Option.map_eq_some_iff.mp h
    exact (keeps_leaveDocument? hleave).trans
      (.of_emit (isLevel_of_directive? hread) rfl rfl rfl rfl)
  · split at h
    · obtain ⟨l₁, hleave, rfl⟩ := Option.map_eq_some_iff.mp h
      refine (keeps_leaveDocument? hleave).trans (.of_emit ?_ rfl rfl rfl rfl)
      intro n
      split <;> rfl
    · exact yields_wordAt? x rest l' h

end Lexer

end SimAnnotate.Yaml
