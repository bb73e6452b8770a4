import SimAnnotate.Proofs.Yaml.Tag

/-!
# The lexer in a part of a text

`Lexer.inside` puts a lexer that works on a part of a text into the whole text. What
it does with a token is the same there (`follows_fetch?`): its own text decides, up to
the end of the part.
-/

namespace SimAnnotate.Yaml

open Text Surroundings

variable {e : Surroundings}

/-! ## States -/

def PendingKey.inside (e : Surroundings) (k : PendingKey) : PendingKey :=
  { k with position := e.before.size + k.position, mark := k.mark.inside e }

theorem PendingKey.reaches_inside (k : PendingKey) (m : Mark) :
    (k.inside e).reaches (m.inside e) = k.reaches m := by
  have hline : (e.line + k.mark.line == e.line + m.line) = (k.mark.line == m.line) := by
    rw [Bool.eq_iff_iff, beq_iff_eq, beq_iff_eq]
    omega
  have hoffset : decide (e.offset + m.offset ≤ e.offset + k.mark.offset + 1024)
      = decide (m.offset ≤ k.mark.offset + 1024) :=
    decide_eq_decide.mpr (by omega)
  unfold reaches
  rw [← hline, ← hoffset]
  rfl

namespace Lexer

def inside (e : Surroundings) (l : Lexer) : Lexer :=
  { l with
    cursor := l.cursor.inside e
    tokens := e.before ++ l.tokens
    pending := l.pending.map (·.inside e)
    outer := l.outer.map (·.map (·.inside e)) }

variable {l : Lexer}

@[simp] theorem cursor_inside : (l.inside e).cursor = l.cursor.inside e := rfl

@[simp] theorem rest_inside : (l.inside e).rest = l.rest ++ e.after := rfl

@[simp] theorem column_inside : (l.inside e).column = l.column := rfl

@[simp] theorem inFlow_inside : (l.inside e).inFlow = l.inFlow := by
  unfold inFlow inside
  cases l.outer <;> rfl

theorem emit_inside (t : Token) : (l.inside e).emit t = (l.emit t).inside e := by
  unfold emit inside
  simp

theorem emit_at_inside (t : Token) (c : Cursor) (allowed : Bool) :
    { (l.inside e).emit t with cursor := c.inside e, keyAllowed := allowed }
      = { l.emit t with cursor := c, keyAllowed := allowed }.inside e := by
  rw [emit_inside]
  rfl

theorem emitAlong_inside {n : Nat} (h : n ≤ l.rest.length) (t : Token) :
    (l.inside e).emitAlong n t = (l.emitAlong n t).inside e := by
  unfold emitAlong
  rw [emit_inside]
  change { (l.emit t).inside e with cursor := (l.cursor.inside e).along n } = _
  rw [Cursor.along_inside h]
  rfl

/-! ## Pending keys -/

theorem refresh?_inside (m : Mark) (k : Option PendingKey) :
    refresh? (m.inside e) (k.map (·.inside e)) = (refresh? m k).map (·.map (·.inside e)) := by
  cases k with
  | none => rfl
  | some k =>
      change (if (k.inside e).reaches (m.inside e) then _ else _) = _
      rw [PendingKey.reaches_inside, refresh?]
      split
      · rfl
      · change (if k.required then _ else _) = _
        split <;> rfl

theorem refreshAll?_eq (l : Lexer) : l.refreshAll? = (refresh? l.cursor.mark l.pending).bind
    fun pending => (l.outer.mapM (refresh? l.cursor.mark)).map
      fun outer => { l with pending, outer } := by
  unfold refreshAll?
  cases refresh? l.cursor.mark l.pending with
  | none => rfl
  | some pending => cases l.outer.mapM (refresh? l.cursor.mark) <;> rfl

theorem refreshAll?_inside : (l.inside e).refreshAll? = l.refreshAll?.map (·.inside e) := by
  -- the keys of the outer flows are refreshed one by one, until one fails
  have houter : ∀ ks : List (Option PendingKey),
      (ks.map (·.map (·.inside e))).mapM (refresh? (l.cursor.mark.inside e))
        = (ks.mapM (refresh? l.cursor.mark)).map (·.map (·.map (·.inside e))) := by
    intro ks
    induction ks with
    | nil => rfl
    | cons k rest ih =>
        rw [List.map_cons, List.mapM_cons, List.mapM_cons, refresh?_inside, ih]
        cases refresh? l.cursor.mark k with
        | none => rfl
        | some k' => cases rest.mapM (refresh? l.cursor.mark) <;> rfl
  rw [refreshAll?_eq, refreshAll?_eq]
  change (refresh? (l.cursor.mark.inside e) (l.pending.map (·.inside e))).bind
    (fun _ => Option.map _
      ((l.outer.map (·.map (·.inside e))).mapM (refresh? (l.cursor.mark.inside e)))) = _
  rw [refresh?_inside, houter]
  cases refresh? l.cursor.mark l.pending with
  | none => rfl
  | some pending => cases l.outer.mapM (refresh? l.cursor.mark) <;> rfl

theorem dropKey?_inside : (l.inside e).dropKey? = l.dropKey?.map (·.inside e) := by
  unfold dropKey?
  have hrequired : (l.inside e).pending.any (·.required) = l.pending.any (·.required) := by
    unfold inside
    cases l.pending <;> rfl
  rw [hrequired]
  split <;> rfl

theorem saveKey?_inside : (l.inside e).saveKey? = l.saveKey?.map (·.inside e) := by
  unfold saveKey?
  rw [dropKey?_inside, inFlow_inside]
  change (if l.keyAllowed then _ else _) = _
  split
  · change Option.map _ (Option.map _ l.dropKey?) = Option.map _ (Option.map _ l.dropKey?)
    rw [Option.map_map, Option.map_map]
    congr 1
    funext l'
    simp only [Function.comp, inside, PendingKey.inside, Array.size_append, Option.map_some]
    rfl
  · rfl

/-! ## Indentation -/

theorem closeFrom_append (column : Option Nat) (columns : List Nat) (before ts : Array Token) :
    closeFrom column columns (before ++ ts)
      = ((closeFrom column columns ts).1, before ++ (closeFrom column columns ts).2) := by
  induction columns generalizing ts with
  | nil => rfl
  | cons c outer ih =>
      rw [closeFrom, closeFrom]
      split
      · rw [← Array.append_push]
        exact ih _
      · rfl

theorem close_eq (l : Lexer) (column : Option Nat) : l.close column =
    if l.inFlow then l
    else { l with
      columns := (closeFrom column l.columns l.tokens).1,
      tokens := (closeFrom column l.columns l.tokens).2 } := rfl

theorem close_inside (column : Option Nat) :
    (l.inside e).close column = (l.close column).inside e := by
  rw [close_eq, close_eq, inFlow_inside]
  split
  · rfl
  · have hclose := closeFrom_append column l.columns e.before l.tokens
    change { l.inside e with
      columns := (closeFrom column l.columns (e.before ++ l.tokens)).1,
      tokens := (closeFrom column l.columns (e.before ++ l.tokens)).2 } = _
    rw [hclose]
    rfl

theorem isInside_inside (column : Nat) : (l.inside e).isInside column = l.isInside column := by
  unfold isInside
  rw [inFlow_inside]
  rfl

theorem openAt_inside (t : Token) : (l.inside e).openAt t = (l.openAt t).inside e := by
  unfold openAt
  rw [column_inside, isInside_inside, emit_inside]
  split <;> rfl

theorem leaveDocument?_inside :
    (l.inside e).leaveDocument? = l.leaveDocument?.map (·.inside e) := by
  unfold leaveDocument?
  rw [close_inside, dropKey?_inside, Option.map_map, Option.map_map]
  rfl

/-! ## Between tokens -/

/-- The lexer is at a place where it does the same in the whole text. -/
def Fits (e : Surroundings) (l : Lexer) : Prop := e.Fits l.cursor

/-- After the byte order mark that stands at the start of a line, if one does. -/
def afterOrderMark (l : Lexer) : Cursor :=
  if l.column = 0 && l.rest.head? = some '\ufeff' then l.cursor.along 1 else l.cursor

/-- A blank, with the tabs among them where tabs count. -/
def isGapBlank (tabs : Bool) (c : Char) : Bool := c = ' ' || (tabs && c = '\t')

/-- One round of a gap up to its line end. -/
def gapLine (l : Lexer) : Cursor :=
  (l.afterOrderMark.skipWhile (isGapBlank (l.inFlow || !l.keyAllowed))).skipComment

theorem skipGap_succ (fuel : Nat) (l : Lexer) :
    l.skipGap (fuel + 1) =
      if l.gapLine.rest.head?.any isBreak then
        skipGap fuel
          { l with cursor := l.gapLine.skip, keyAllowed := l.keyAllowed || !l.inFlow }
      else { l with cursor := l.gapLine } := by
  rw [skipGap]
  split
  · next c rest h =>
      have hline : l.gapLine.rest = c :: rest := h
      rw [hline]
      rfl
  · next h =>
      have hline : l.gapLine.rest = [] := h
      rw [hline]
      rfl

theorem afterOrderMark_inside (h : e.Fits l.cursor) :
    (l.inside e).afterOrderMark = l.afterOrderMark.inside e ∧ e.Fits l.afterOrderMark := by
  have hmark : decide ((l.rest ++ e.after).head? = some '\ufeff')
      = decide (l.rest.head? = some '\ufeff') :=
    decide_eq_decide.mpr (h.head?_eq_some (by decide))
  unfold afterOrderMark
  rw [column_inside, rest_inside, hmark]
  split
  · next hmark =>
      rw [Bool.and_eq_true, decide_eq_true_eq, decide_eq_true_eq] at hmark
      obtain ⟨rest, hrest⟩ := List.head?_eq_some_iff.mp hmark.2
      have hrest : l.cursor.rest = '\ufeff' :: rest := hrest
      have hclosed : e.Closed l.cursor.rest := h.resolve_right (by simp [hrest])
      exact ⟨Cursor.along_one_inside hrest, .inl (Cursor.closed_along_one hrest rfl hclosed)⟩
  · exact ⟨rfl, h⟩

theorem gapLine_inside (h : e.Fits l.cursor) :
    (l.inside e).gapLine = l.gapLine.inside e ∧ e.Fits l.gapLine := by
  obtain ⟨hstart, hfits⟩ := afterOrderMark_inside h
  have hblank : ∀ tabs c, isGapBlank tabs c = true → isBreak c = false := fun tabs _ =>
    isBreak_of_class (p := isGapBlank tabs) (by cases tabs <;> decide)
  obtain ⟨hskip, hfits⟩ := Cursor.skipWhile_inside_of_fits hfits
    (hblank (l.inFlow || !l.keyAllowed)) (by cases (l.inFlow || !l.keyAllowed) <;> decide)
  unfold gapLine
  rw [inFlow_inside, hstart]
  change ((l.afterOrderMark.inside e).skipWhile
    (isGapBlank (l.inFlow || !l.keyAllowed))).skipComment = _ ∧ _
  rw [hskip]
  exact Cursor.skipComment_inside hfits

theorem length_gapLine_le (l : Lexer) : l.gapLine.rest.length ≤ l.rest.length := by
  refine (Cursor.length_skipComment_le _).trans ((Cursor.length_skipWhile_le _ _).trans ?_)
  unfold afterOrderMark
  split
  · exact (List.drop_sublist 1 l.rest).length_le
  · exact Nat.le_refl _

theorem skipGap_inside {fuel : Nat} (h : l.Fits e) (hfuel : l.rest.length < fuel) (k : Nat) :
    (l.inside e).skipGap (fuel + k) = (l.skipGap fuel).inside e
      ∧ (l.skipGap fuel).Fits e := by
  induction fuel generalizing l with
  | zero => omega
  | succ fuel ih =>
      obtain ⟨hline, hfits⟩ := gapLine_inside h
      have hbreak := hfits.head?_any (p := isBreak) rfl
      rw [Nat.add_right_comm, skipGap_succ, skipGap_succ, hline, Cursor.rest_inside, hbreak]
      split
      · next hnext =>
          obtain ⟨b, hb, -⟩ := (Option.any_eq_true ..).mp hnext
          obtain ⟨rest, hrest⟩ := List.head?_eq_some_iff.mp hb
          have hlength := length_gapLine_le l
          rw [Cursor.skip_inside hrest, inFlow_inside]
          -- a line end was passed, so less fuel will do
          refine ih (l := { l with cursor := _, keyAllowed := _ })
            (Cursor.fits_skip hrest hfits) ?_
          change l.gapLine.skip.rest.length < fuel
          rw [hrest, List.length_cons] at hlength
          rw [Cursor.rest_skip hrest]
          omega
      · exact ⟨rfl, hfits⟩

/-! ## The cursor of a lexer -/

theorem cursor_refreshAll? {l' : Lexer} (h : l.refreshAll? = some l') :
    l'.cursor = l.cursor := by
  unfold refreshAll? at h
  split at h
  · cases h
    rfl
  · cases h

theorem cursor_dropKey? {l' : Lexer} (h : l.dropKey? = some l') : l'.cursor = l.cursor := by
  unfold dropKey? at h
  split at h
  · cases h
  · cases h
    rfl

theorem cursor_saveKey? {l' : Lexer} (h : l.saveKey? = some l') : l'.cursor = l.cursor := by
  unfold saveKey? at h
  split at h
  · obtain ⟨l₁, hdrop, heq⟩ := Option.map_eq_some_iff.mp h
    have hcursor := cursor_dropKey? hdrop
    cases heq
    exact hcursor
  · cases h
    rfl

theorem cursor_close (column : Option Nat) : (l.close column).cursor = l.cursor := by
  unfold close
  split <;> rfl

theorem cursor_openAt (t : Token) : (l.openAt t).cursor = l.cursor := by
  unfold openAt
  split <;> rfl

theorem cursor_leaveDocument? {l' : Lexer} (h : l.leaveDocument? = some l') :
    l'.cursor = l.cursor := by
  obtain ⟨l₁, hdrop, rfl⟩ := Option.map_eq_some_iff.mp h
  exact (cursor_dropKey? hdrop).trans (cursor_close none)

theorem Fits.of_cursor {l' : Lexer} (h : l.Fits e) (hcursor : l'.cursor = l.cursor) :
    l'.Fits e := by
  rw [Fits, hcursor]
  exact h

theorem rest_of_cursor {l' : Lexer} (hcursor : l'.cursor = l.cursor) : l'.rest = l.rest :=
  congrArg Cursor.rest hcursor

/-- The lexer is at a character of a line. -/
structure AtWord (e : Surroundings) (l : Lexer) : Prop where
  fits : l.Fits e
  head : ∃ x rest, l.rest = x :: rest ∧ isBreak x = false

theorem AtWord.of_cursor {l' : Lexer} (h : l.AtWord e) (hcursor : l'.cursor = l.cursor) :
    l'.AtWord e := by
  obtain ⟨x, rest, hrest, hx⟩ := h.head
  exact ⟨h.fits.of_cursor hcursor, x, rest, (rest_of_cursor hcursor).trans hrest, hx⟩

theorem AtWord.closed (h : l.AtWord e) : e.Closed l.rest := by
  obtain ⟨x, rest, hrest, -⟩ := h.head
  have hrest : l.cursor.rest = x :: rest := hrest
  exact h.fits.resolve_right (by simp [hrest])

theorem emitAlong_one (h : l.AtWord e) (t : Token) :
    (l.inside e).emitAlong 1 t = (l.emitAlong 1 t).inside e ∧ (l.emitAlong 1 t).Fits e := by
  obtain ⟨x, rest, hrest, hx⟩ := h.head
  exact ⟨emitAlong_inside (by simp [hrest]) t,
    .inl (Cursor.closed_along_one hrest hx h.closed)⟩

/-! ## Fetching a token -/

/-- Where the part gives a lexer, the whole text gives the same. -/
def Follows (e : Surroundings) (r r' : Option Lexer) : Prop :=
  ∀ l', r = some l' → r' = some (l'.inside e) ∧ l'.Fits e

theorem follows_map {r : Option Lexer} {f f' : Lexer → Lexer}
    (hf : ∀ l, r = some l → f' (l.inside e) = (f l).inside e ∧ (f l).Fits e) :
    Follows e (r.map f) ((r.map (·.inside e)).map f') := by
  intro l' h
  obtain ⟨l, rfl, rfl⟩ := Option.map_eq_some_iff.mp h
  obtain ⟨hsame, hfits⟩ := hf l rfl
  exact ⟨congrArg some hsame, hfits⟩

theorem follows_bind {r : Option Lexer} {f f' : Lexer → Option Lexer}
    (hf : ∀ l, r = some l → Follows e (f l) (f' (l.inside e))) :
    Follows e (r.bind f) ((r.map (·.inside e)).bind f') := by
  intro l' h
  obtain ⟨l, rfl, hl⟩ := Option.bind_eq_some_iff.mp h
  exact hf l rfl l' hl

theorem follows_ite {p : Prop} [Decidable p] {r r' s s' : Option Lexer}
    (hr : p → Follows e r r') (hs : ¬ p → Follows e s s') :
    Follows e (if p then r else s) (if p then r' else s') := by
  split
  · next hp => exact hr hp
  · next hp => exact hs hp

theorem follows_flowStart? (h : l.AtWord e) (t : Token) :
    Follows e (l.flowStart? t) ((l.inside e).flowStart? t) := by
  unfold flowStart?
  rw [saveKey?_inside]
  refine follows_map fun l₁ hsave => ?_
  obtain ⟨hsame, hfits⟩ := emitAlong_one (h.of_cursor (cursor_saveKey? hsave)) t
  rw [hsame]
  exact ⟨rfl, hfits⟩

theorem follows_flowEnd? (h : l.AtWord e) (t : Token) :
    Follows e (l.flowEnd? t) ((l.inside e).flowEnd? t) := by
  unfold flowEnd?
  rw [dropKey?_inside]
  refine follows_map fun l₁ hdrop => ?_
  obtain ⟨hsame, hfits⟩ := emitAlong_one (h.of_cursor (cursor_dropKey? hdrop)) t
  rw [hsame]
  generalize l₁.emitAlong 1 t = l₂ at hfits ⊢
  obtain ⟨cursor, tokens, columns, pending, outer, keyAllowed, truncated⟩ := l₂
  cases outer <;> exact ⟨rfl, hfits⟩

theorem openBlock?_inside (t : Token) :
    (l.inside e).openBlock? t = (l.openBlock? t).map (·.inside e) := by
  unfold openBlock?
  rw [inFlow_inside, openAt_inside]
  change (if l.inFlow then _ else if l.keyAllowed then _ else _) = _
  split
  · rfl
  · split <;> rfl

theorem cursor_openBlock? {t : Token} {l' : Lexer} (h : l.openBlock? t = some l') :
    l'.cursor = l.cursor := by
  unfold openBlock? at h
  split at h
  · cases h
    rfl
  · split at h
    · cases h
      exact cursor_openAt t
    · cases h

/-- A mark of a block collection, which is opened first where it has to be. -/
def blockMark? (l : Lexer) (start t : Token) (allows : Lexer → Bool) : Option Lexer :=
  (l.openBlock? start).bind fun l =>
    l.dropKey?.map fun l => (l.emitAlong 1 t).allowKey (allows l)

theorem blockEntry?_eq (l : Lexer) :
    l.blockEntry? = l.blockMark? .blockSequenceStart .blockEntry fun _ => true := by
  unfold blockEntry? blockMark?
  cases l.openBlock? .blockSequenceStart <;> rfl

theorem key?_eq (l : Lexer) :
    l.key? = l.blockMark? .blockMappingStart .key (!·.inFlow) := by
  unfold key? blockMark?
  cases l.openBlock? .blockMappingStart <;> rfl

theorem follows_blockMark? (h : l.AtWord e) (start t : Token) {allows : Lexer → Bool}
    (hallows : ∀ l : Lexer, allows (l.inside e) = allows l) :
    Follows e (l.blockMark? start t allows) ((l.inside e).blockMark? start t allows) := by
  unfold blockMark?
  rw [openBlock?_inside]
  refine follows_bind fun l₁ hopen => ?_
  rw [dropKey?_inside]
  refine follows_map fun l₂ hdrop => ?_
  have hword := (h.of_cursor (cursor_openBlock? hopen)).of_cursor (cursor_dropKey? hdrop)
  obtain ⟨hsame, hfits⟩ := emitAlong_one hword t
  rw [hsame, hallows]
  exact ⟨rfl, hfits⟩

theorem insertAt_append (before tokens : Array Token) (n : Nat) (ts : List Token) :
    insertAt (before ++ tokens) (before.size + n) ts = before ++ insertAt tokens n ts := by
  apply Array.toList_inj.mp
  have hsize : before.size = before.toList.length := rfl
  simp only [insertAt, Array.toList_append]
  rw [hsize, List.take_length_add_append, List.drop_length_add_append]
  simp

/-- After the pending word has been made a key. -/
def keyed (l : Lexer) (k : PendingKey) : Lexer :=
  let opened := l.isInside k.mark.column
  { l with
    tokens := insertAt l.tokens k.position
      (if opened then [.blockMappingStart, .key] else [.key])
    columns := if opened then k.mark.column :: l.columns else l.columns
    pending := none
    keyAllowed := false }

theorem value?_of_pending {k : PendingKey} (h : l.pending = some k) :
    l.value? = some ((l.keyed k).emitAlong 1 .value) := by
  unfold value?
  rw [h]
  rfl

theorem value?_of_none (h : l.pending = none) : l.value? =
    (l.openBlock? .blockMappingStart).map fun l =>
      (l.emitAlong 1 .value).allowKey (!l.inFlow) := by
  unfold value?
  rw [h]

theorem keyed_inside (k : PendingKey) :
    (l.inside e).keyed (k.inside e) = (l.keyed k).inside e := by
  unfold keyed
  simp only [PendingKey.inside, Mark.column_inside, isInside_inside]
  simp only [inside, insertAt_append]
  rfl

theorem follows_value? (h : l.AtWord e) : Follows e l.value? (l.inside e).value? := by
  cases hpending : l.pending with
  | none =>
      have hpending' : (l.inside e).pending = none := by rw [inside, hpending]; rfl
      rw [value?_of_none hpending, value?_of_none hpending', openBlock?_inside]
      refine follows_map fun l₁ hopen => ?_
      obtain ⟨hsame, hfits⟩ := emitAlong_one (h.of_cursor (cursor_openBlock? hopen)) .value
      rw [hsame, inFlow_inside]
      exact ⟨rfl, hfits⟩
  | some k =>
      have hpending' : (l.inside e).pending = some (k.inside e) := by rw [inside, hpending]; rfl
      have hplace : (l.keyed k).cursor = l.cursor := rfl
      obtain ⟨hsame, hfits⟩ := emitAlong_one (h.of_cursor hplace) .value
      rw [value?_of_pending hpending, value?_of_pending hpending', keyed_inside, hsame]
      rintro l' hl
      cases hl
      exact ⟨rfl, hfits⟩

/-- What is read in the part and in the whole text, and put into the lexer. -/
theorem follows_read {α : Type} {r r' : Option α} {put put' : α → Lexer}
    (h : ∀ a, r = some a → ∃ a', r' = some a' ∧ put' a' = (put a).inside e ∧ (put a).Fits e) :
    Follows e (r.map put) (r'.map put') := by
  intro l' hl
  obtain ⟨a, hread, rfl⟩ := Option.map_eq_some_iff.mp hl
  obtain ⟨a', hread', hput, hfits⟩ := h a hread
  exact ⟨by rw [hread', Option.map_some, hput], hfits⟩

theorem keyWord?_eq (l : Lexer) (read : Cursor → Option (Token × Cursor)) :
    l.keyWord? read = l.saveKey?.bind fun l =>
      (read l.cursor).map fun (t, cursor) => { l.emit t with cursor, keyAllowed := false } := by
  unfold keyWord?
  cases l.saveKey? <;> rfl

theorem blockScalar?_eq (l : Lexer) (literal : Bool) :
    l.blockScalar? literal = l.dropKey?.bind fun l =>
      (BlockScalar.read? literal l.columns.head? l.cursor).map fun (text, cursor) =>
        { l.emit (.scalar text false) with cursor, keyAllowed := true } := by
  unfold blockScalar?
  cases l.dropKey? <;> rfl

theorem plainScalar?_eq (l : Lexer) :
    l.plainScalar? = l.saveKey?.bind fun l =>
      (PlainScalar.read? l.inFlow ((l.columns.head?.map (· + 1)).getD 0) l.cursor).map
        fun (text, broken, cursor) =>
          { l.emit (.scalar text true) with cursor, keyAllowed := broken } := by
  unfold plainScalar?
  cases l.saveKey? <;> rfl

/-- A word that is read the same in the whole text. -/
theorem follows_keyWord? {read read' : Cursor → Option (Token × Cursor)}
    (hread : ∀ {t : Token} {c : Cursor}, read l.cursor = some (t, c) →
      read' (l.cursor.inside e) = some (t, c.inside e) ∧ e.Fits c) :
    Follows e (l.keyWord? read) ((l.inside e).keyWord? read') := by
  rw [keyWord?_eq, keyWord?_eq, saveKey?_inside]
  refine follows_bind fun l₁ hsave => follows_read fun ⟨t, c⟩ hword => ?_
  rw [cursor_saveKey? hsave] at hword
  obtain ⟨hword', hfits⟩ := hread hword
  rw [cursor_inside, cursor_saveKey? hsave]
  exact ⟨_, hword', emit_at_inside t c false, hfits⟩

theorem follows_blockScalar? (h : l.AtWord e) (literal : Bool) :
    Follows e (l.blockScalar? literal) ((l.inside e).blockScalar? literal) := by
  obtain ⟨x, rest, hrest, hx⟩ := h.head
  rw [blockScalar?_eq, blockScalar?_eq, dropKey?_inside]
  refine follows_bind fun l₁ hdrop => follows_read fun ⟨text, c⟩ hscalar => ?_
  rw [cursor_dropKey? hdrop] at hscalar
  obtain ⟨hscalar', hfits⟩ := BlockScalar.read?_inside hrest hx h.fits hscalar
  rw [cursor_inside, cursor_dropKey? hdrop]
  exact ⟨_, hscalar', emit_at_inside _ c true, hfits⟩

theorem follows_plainScalar? (h : l.Fits e) :
    Follows e l.plainScalar? (l.inside e).plainScalar? := by
  rw [plainScalar?_eq, plainScalar?_eq, saveKey?_inside]
  refine follows_bind fun l₁ hsave => follows_read fun ⟨text, broken, c⟩ hscalar => ?_
  rw [cursor_saveKey? hsave] at hscalar
  obtain ⟨hscalar', hfits⟩ := PlainScalar.read?_inside h hscalar
  rw [cursor_inside, cursor_saveKey? hsave, inFlow_inside]
  exact ⟨_, hscalar', emit_at_inside _ c broken, hfits⟩

def tagWord? (inFlow : Bool) (c : Cursor) : Option (Token × Cursor) :=
  (tag? c).filter fun (_, c') => isTagEnd inFlow c'.rest

def quotedWord? (c : Cursor) : Option (Token × Cursor) :=
  (QuotedScalar.read? c).map fun (text, c') => (.scalar text false, c')

/-- The token that begins with the character `x` before `rest`. -/
def wordAt? (l : Lexer) (x : Char) (rest : List Char) : Option Lexer :=
  if x = '[' then l.flowStart? .flowSequenceStart
  else if x = '{' then l.flowStart? .flowMappingStart
  else if x = ']' then l.flowEnd? .flowSequenceEnd
  else if x = '}' then l.flowEnd? .flowMappingEnd
  else if x = ',' then
    l.dropKey?.map fun l => (l.emitAlong 1 .flowEntry).allowKey true
  else if x = '*' then l.keyWord? (name? .reference)
  else if x = '&' then l.keyWord? (name? .anchor)
  else if x = '!' then l.keyWord? (tagWord? l.inFlow)
  else if x = '\'' || x = '"' then l.keyWord? quotedWord?
  else if x = '-' && atGap rest then l.blockEntry?
  else if x = '?' && (l.inFlow || atGap rest) then l.key?
  else if x = ':' && (l.inFlow || atGap rest) then l.value?
  else if x = '|' && !l.inFlow then l.blockScalar? true
  else if x = '>' && !l.inFlow then l.blockScalar? false
  else if startsPlain l.inFlow (x :: rest) then l.plainScalar?
  else none

theorem fetch?_eq {x : Char} {rest : List Char} (hrest : l.rest = x :: rest) :
    l.fetch? =
      if l.column = 0 && l.rest.head? = some '%' then
        l.leaveDocument?.bind fun l =>
          (directive? l.cursor).map fun (t, cursor) => { l.emit t with cursor }
      else if l.column = 0 && atDocumentMark l.rest then
        l.leaveDocument?.map
          (·.emitAlong 3 (if l.rest.head? = some '-' then .documentStart else .documentEnd))
      else l.wordAt? x rest := by
  unfold fetch?
  split
  · rfl
  · split
    · rfl
    · rw [hrest]
      -- the first character decides, and ten of them alone
      by_cases h₁ : x = '['
      · subst h₁; rfl
      by_cases h₂ : x = '{'
      · subst h₂; rfl
      by_cases h₃ : x = ']'
      · subst h₃; rfl
      by_cases h₄ : x = '}'
      · subst h₄; rfl
      by_cases h₅ : x = ','
      · subst h₅; rfl
      by_cases h₆ : x = '*'
      · subst h₆; rfl
      by_cases h₇ : x = '&'
      · subst h₇; rfl
      by_cases h₈ : x = '!'
      · subst h₈; rfl
      by_cases h₉ : x = '\''
      · subst h₉; rfl
      by_cases h₁₀ : x = '"'
      · subst h₁₀; rfl
      simp [wordAt?, h₁, h₂, h₃, h₄, h₅, h₆, h₇, h₈, h₉, h₁₀]

theorem follows_comma (h : l.AtWord e) :
    Follows e (l.dropKey?.map fun l => (l.emitAlong 1 .flowEntry).allowKey true)
      ((l.inside e).dropKey?.map fun l => (l.emitAlong 1 .flowEntry).allowKey true) := by
  rw [dropKey?_inside]
  refine follows_map fun l₁ hdrop => ?_
  obtain ⟨hsame, hfits⟩ := emitAlong_one (h.of_cursor (cursor_dropKey? hdrop)) .flowEntry
  rw [hsame]
  exact ⟨rfl, hfits⟩

theorem follows_name (h : l.AtWord e) (make : String → Token) :
    Follows e (l.keyWord? (name? make)) ((l.inside e).keyWord? (name? make)) := by
  obtain ⟨x, rest, hrest, hx⟩ := h.head
  refine follows_keyWord? fun hread => ?_
  obtain ⟨hsame, hclosed⟩ := name?_inside hrest hx h.closed hread
  exact ⟨hsame, .inl hclosed⟩

theorem follows_tag {rest : List Char} (hrest : l.rest = '!' :: rest) (h : l.Fits e) :
    Follows e (l.keyWord? (tagWord? l.inFlow)) ((l.inside e).keyWord? (tagWord? l.inFlow)) := by
  have hword : l.AtWord e := ⟨h, _, _, hrest, rfl⟩
  refine follows_keyWord? fun hread => ?_
  obtain ⟨htag, hend⟩ := Option.filter_eq_some_iff.mp hread
  obtain ⟨hsame, hclosed⟩ := tag?_inside hrest hword.closed htag
  refine ⟨?_, .inl hclosed⟩
  rw [tagWord?, hsame, Option.filter_eq_some_iff]
  refine ⟨rfl, ?_⟩
  simp only [isTagEnd, Cursor.rest_inside, hclosed.atGap, hclosed.head?] at hend ⊢
  exact hend

theorem follows_quoted (h : l.Fits e) :
    Follows e (l.keyWord? quotedWord?) ((l.inside e).keyWord? quotedWord?) := by
  refine follows_keyWord? fun hread => ?_
  obtain ⟨⟨text, c⟩, hscalar, heq⟩ := Option.map_eq_some_iff.mp hread
  cases heq
  obtain ⟨hsame, hfits⟩ := QuotedScalar.read?_inside h hscalar
  rw [quotedWord?, hsame]
  exact ⟨rfl, hfits⟩

theorem startsPlain_inside {inFlow : Bool} {x : Char} {rest : List Char}
    (h : e.Closed rest) :
    startsPlain inFlow (x :: (rest ++ e.after)) = startsPlain inFlow (x :: rest) := by
  have hgap : atGap (x :: (rest ++ e.after)) = atGap (x :: rest) := rfl
  rw [startsPlain, startsPlain, hgap, h.head?, h.atGap]

/-- Before a line end no token begins. -/
theorem wordAt?_of_isBreak {x : Char} {rest : List Char} (hx : isBreak x = true) :
    l.wordAt? x rest = none := by
  simp only [isBreak, Bool.or_eq_true, decide_eq_true_eq] at hx
  rcases hx with (rfl | rfl) | rfl <;> simp [wordAt?, startsPlain, atGap, isBreak]

theorem follows_wordAt? {x : Char} {rest : List Char} (hrest : l.rest = x :: rest)
    (h : l.Fits e) : Follows e (l.wordAt? x rest) ((l.inside e).wordAt? x (rest ++ e.after)) := by
  by_cases hbreak : isBreak x = true
  · rw [wordAt?_of_isBreak hbreak]
    rintro l' ⟨⟩
  have hx : isBreak x = false := by simpa using hbreak
  have hword : l.AtWord e := ⟨h, x, rest, hrest, hx⟩
  have hclosed : e.Closed rest := by
    have hclosed := hword.closed
    rw [hrest] at hclosed
    exact hclosed.tail hx
  -- the tests of the two texts agree, one after the other
  unfold wordAt?
  rw [hclosed.atGap, startsPlain_inside hclosed, inFlow_inside]
  refine follows_ite (fun _ => follows_flowStart? hword _) fun _ => ?_
  refine follows_ite (fun _ => follows_flowStart? hword _) fun _ => ?_
  refine follows_ite (fun _ => follows_flowEnd? hword _) fun _ => ?_
  refine follows_ite (fun _ => follows_flowEnd? hword _) fun _ => ?_
  refine follows_ite (fun _ => follows_comma hword) fun _ => ?_
  refine follows_ite (fun _ => follows_name hword _) fun _ => ?_
  refine follows_ite (fun _ => follows_name hword _) fun _ => ?_
  refine follows_ite (fun hmark => follows_tag (hmark ▸ hrest) h) fun _ => ?_
  refine follows_ite (fun _ => follows_quoted h) fun _ => ?_
  refine follows_ite (fun _ => ?_) fun _ => ?_
  · rw [ blockEntry?_eq, blockEntry?_eq]
    exact follows_blockMark? hword _ _ fun _ => rfl
  refine follows_ite (fun _ => ?_) fun _ => ?_
  · rw [key?_eq, key?_eq]
    exact follows_blockMark? hword _ _ fun l => congrArg not inFlow_inside
  refine follows_ite (fun _ => follows_value? hword) fun _ => ?_
  refine follows_ite (fun _ => follows_blockScalar? hword _) fun _ => ?_
  refine follows_ite (fun _ => follows_blockScalar? hword _) fun _ => ?_
  refine follows_ite (fun _ => follows_plainScalar? h) fun _ => ?_
  rintro l' ⟨⟩

theorem passes_of_atDocumentMark {cs : List Char} (h : atDocumentMark cs = true) :
    3 ≤ cs.length ∧ Passes cs (cs.drop 3) := by
  unfold atDocumentMark at h
  split at h
  · exact ⟨by simp, (((Passes.refl _).cons rfl).cons rfl).cons rfl⟩
  · exact ⟨by simp, (((Passes.refl _).cons rfl).cons rfl).cons rfl⟩
  · cases h

/-- A token of the part is fetched in the whole text as well. -/
theorem follows_fetch? {x : Char} {rest : List Char} (hrest : l.rest = x :: rest)
    (h : l.Fits e) : Follows e l.fetch? (l.inside e).fetch? := by
  have hrest' : (l.inside e).rest = x :: (rest ++ e.after) := by
    rw [rest_inside, hrest, List.cons_append]
  have hcursor : l.cursor.rest = x :: rest := hrest
  have hclosed : e.Closed l.rest := h.resolve_right (by simp [hcursor])
  rw [fetch?_eq hrest, fetch?_eq hrest', column_inside, rest_inside, hclosed.head?,
    hclosed.atDocumentMark, leaveDocument?_inside]
  refine follows_ite (fun hdirective => ?_) fun _ =>
    follows_ite (fun hmark => ?_) fun _ => follows_wordAt? hrest h
  · -- a directive starts where the blocks have been left
    rw [Bool.and_eq_true, decide_eq_true_eq, decide_eq_true_eq] at hdirective
    obtain ⟨rest', hrest'⟩ := List.head?_eq_some_iff.mp hdirective.2
    refine follows_bind fun l₁ hleave => follows_read fun ⟨t, c⟩ hread => ?_
    rw [cursor_leaveDocument? hleave] at hread
    obtain ⟨hread', hfits⟩ := directive?_inside hrest' hclosed hread
    rw [cursor_inside, cursor_leaveDocument? hleave]
    exact ⟨_, hread', emit_at_inside t c l₁.keyAllowed, hfits⟩
  · -- a document mark has no line break, so it is in the part
    rw [Bool.and_eq_true] at hmark
    obtain ⟨hlength, hpasses⟩ := passes_of_atDocumentMark hmark.2
    refine follows_map fun l₁ hleave => ?_
    have hrest₁ := rest_of_cursor (cursor_leaveDocument? hleave)
    refine ⟨emitAlong_inside (hrest₁ ▸ hlength) _, .inl ?_⟩
    change e.Closed (l₁.rest.drop 3)
    rw [hrest₁]
    exact hclosed.passes hpasses

end Lexer

end SimAnnotate.Yaml
