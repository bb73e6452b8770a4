import SimAnnotate.Proofs.Yaml.FlowDepth

/-!
# Tokens of a text with a new document at its end

Where a text can be cut into tokens, a new document behind its last line end adds its
own tokens to them (`Token.scan_append`).
-/

namespace SimAnnotate.Yaml

open Text Surroundings

variable {e : Surroundings}

namespace Lexer

variable {l l' : Lexer}

/-! ## Steps -/

/-- The lexer in front of its next token, if no pending key is lost on the way. -/
def advance? (l : Lexer) : Option Lexer :=
  l.refreshAll?.bind fun l => (l.skipGap (l.rest.length + 1)).refreshAll?

theorem fault_mem_failed (l : Lexer) : Token.fault ∈ l.failed :=
  List.mem_append_right _ List.mem_cons_self

theorem step_of_advance?_eq_none (h : l.advance? = none) :
    ∃ l₁ : Lexer, l.step = .inr l₁.failed := by
  unfold step
  unfold advance? at h
  cases hrefresh : l.refreshAll? with
  | none => exact ⟨l, rfl⟩
  | some l₁ =>
      rw [hrefresh, Option.bind_some] at h
      exact ⟨l₁, by simp only [h]⟩

theorem step_of_advance? {l₁ : Lexer} (h : l.advance? = some l₁) :
    ∃ l₀ : Lexer, l.step =
      if l₁.isStarved then .inr l₀.failed
      else if l₁.rest.isEmpty then
        match l₁.leaveDocument? with
        | some l₂ => .inr l₂.tokens.toList
        | none => .inr l₀.failed
      else
        match (l₁.close (some l₁.column)).fetch? with
        | some l₂ => .inl l₂
        | none => .inr l₀.failed := by
  obtain ⟨l₀, hrefresh, hskip⟩ := Option.bind_eq_some_iff.mp h
  refine ⟨l₀, ?_⟩
  unfold step
  split
  · next hnone => cases hrefresh.symm.trans hnone
  · next l' hl' =>
      obtain rfl : l₀ = l' := Option.some.inj (hrefresh.symm.trans hl')
      split
      · next hnone => cases hskip.symm.trans hnone
      · next l'' hl'' =>
          obtain rfl : l₁ = l'' := Option.some.inj (hskip.symm.trans hl'')
          rfl

/-- The lexer has a token. -/
structure Fetches (l l₁ l' : Lexer) : Prop where
  advance : l.advance? = some l₁
  going : l₁.isStarved = false
  rest : l₁.rest ≠ []
  fetch : (l₁.close (some l₁.column)).fetch? = some l'

/-- The lexer is at the end of its text, where it leaves the document. -/
structure Finishes (l l₁ l' : Lexer) : Prop where
  advance : l.advance? = some l₁
  going : l₁.isStarved = false
  rest : l₁.rest = []
  leave : l₁.leaveDocument? = some l'

theorem Fetches.step {l₁ : Lexer} (h : Fetches l l₁ l') : l.step = .inl l' := by
  obtain ⟨l₀, hstep⟩ := step_of_advance? h.advance
  rw [hstep, h.going, if_neg Bool.false_ne_true,
    if_neg (by simpa using h.rest), h.fetch]

theorem Finishes.step {l₁ : Lexer} (h : Finishes l l₁ l') :
    l.step = .inr l'.tokens.toList := by
  obtain ⟨l₀, hstep⟩ := step_of_advance? h.advance
  rw [hstep, h.going, if_neg Bool.false_ne_true, h.rest, if_pos List.isEmpty_nil, h.leave]

theorem exists_fetches (h : l.step = .inl l') : ∃ l₁, Fetches l l₁ l' := by
  -- a step goes on only when it has fetched a token
  cases hadvance : l.advance? with
  | none =>
      obtain ⟨l₁, hstep⟩ := step_of_advance?_eq_none hadvance
      rw [hstep] at h
      cases h
  | some l₁ =>
      obtain ⟨l₀, hstep⟩ := step_of_advance? hadvance
      rw [hstep] at h
      split at h
      · cases h
      · next hstarved =>
          split at h
          · split at h <;> cases h
          · next hrest =>
              split at h
              · next l₂ hfetch =>
                  cases h
                  exact ⟨l₁, hadvance, by simpa using hstarved, by simpa using hrest, hfetch⟩
              · cases h

theorem exists_finishes {ts : List Token} (h : l.step = .inr ts) (hfault : .fault ∉ ts) :
    ∃ l₁ l₂, Finishes l l₁ l₂ ∧ ts = l₂.tokens.toList := by
  -- all other ways to stop leave a fault
  have hfailed : ∀ l₀ : Lexer, ts ≠ l₀.failed := fun l₀ heq =>
    hfault (heq ▸ fault_mem_failed l₀)
  cases hadvance : l.advance? with
  | none =>
      obtain ⟨l₁, hstep⟩ := step_of_advance?_eq_none hadvance
      rw [hstep] at h
      exact (hfailed l₁ (Sum.inr.inj h).symm).elim
  | some l₁ =>
      obtain ⟨l₀, hstep⟩ := step_of_advance? hadvance
      rw [hstep] at h
      split at h
      · exact (hfailed l₀ (Sum.inr.inj h).symm).elim
      · next hstarved =>
          split at h
          · next hrest =>
              split at h
              · next l₂ hleave =>
                  exact ⟨l₁, l₂, ⟨hadvance, by simpa using hstarved, by simpa using hrest,
                    hleave⟩, (Sum.inr.inj h).symm⟩
              · exact (hfailed l₀ (Sum.inr.inj h).symm).elim
          · split at h
            · cases h
            · exact (hfailed l₀ (Sum.inr.inj h).symm).elim

/-! ## Steps in the whole text -/

theorem follows_advance? (h : l.Fits e) : Follows e l.advance? (l.inside e).advance? := by
  unfold advance?
  rw [refreshAll?_inside]
  refine follows_bind fun l₁ hrefresh l₂ hskip => ?_
  have hfits := h.of_cursor (cursor_refreshAll? hrefresh)
  obtain ⟨hsame, hfits'⟩ := skipGap_inside hfits (Nat.lt_succ_self _) e.after.length
  rw [rest_inside, List.length_append, Nat.add_right_comm, hsame, refreshAll?_inside, hskip]
  exact ⟨rfl, hfits'.of_cursor (cursor_refreshAll? hskip)⟩

theorem isStarved_inside (h : l.isStarved = false) : (l.inside e).isStarved = false := by
  unfold isStarved at h ⊢
  rw [Bool.and_eq_false_iff] at h ⊢
  refine h.imp_right fun h => ?_
  rw [List.isEmpty_eq_false_iff] at h ⊢
  rw [rest_inside, List.drop_append]
  exact fun hnil => h (List.append_eq_nil_iff.mp hnil).1

theorem Fetches.inside {l₁ : Lexer} (h : Fetches l l₁ l') (hfits : l.Fits e) :
    Fetches (l.inside e) (l₁.inside e) (l'.inside e) ∧ l'.Fits e := by
  obtain ⟨hadvance, hfits₁⟩ := follows_advance? hfits l₁ h.advance
  obtain ⟨x, rest, hrest⟩ := List.exists_cons_of_ne_nil h.rest
  have hcursor := cursor_close (l := l₁) (some l₁.column)
  obtain ⟨hfetch, hfits'⟩ := follows_fetch? ((rest_of_cursor hcursor).trans hrest)
    (hfits₁.of_cursor hcursor) l' h.fetch
  refine ⟨⟨hadvance, isStarved_inside h.going, ?_, ?_⟩, hfits'⟩
  · rw [rest_inside, hrest]
    exact List.cons_ne_nil _ _
  · rw [column_inside, close_inside]
    exact hfetch

/-- A text with nothing behind it ends where it ends. -/
theorem Finishes.inside {l₁ : Lexer} (h : Finishes l l₁ l') (hfits : l.Fits e)
    (hafter : e.after = []) : Finishes (l.inside e) (l₁.inside e) (l'.inside e) := by
  obtain ⟨hadvance, -⟩ := follows_advance? hfits l₁ h.advance
  refine ⟨hadvance, isStarved_inside h.going, ?_, ?_⟩
  · rw [rest_inside, h.rest, hafter]
    rfl
  · rw [leaveDocument?_inside, h.leave]
    rfl

theorem Finishes.fits {l₁ : Lexer} (h : Finishes l l₁ l') (hfits : l.Fits e) : l'.Fits e := by
  obtain ⟨-, hfits₁⟩ := follows_advance? hfits l₁ h.advance
  exact hfits₁.of_cursor (cursor_leaveDocument? h.leave)

/-! ## What steps keep -/

theorem keeps_advance? (h : l.advance? = some l') : Keeps l l' := by
  obtain ⟨l₁, hrefresh, hskip⟩ := Option.bind_eq_some_iff.mp h
  exact (keeps_refreshAll? hrefresh).trans
    ((keeps_skipGap _).trans (keeps_refreshAll? hskip))

theorem Fetches.keeps {l₁ : Lexer} (h : Fetches l l₁ l') : Keeps l l' := by
  obtain ⟨x, rest, hrest⟩ := List.exists_cons_of_ne_nil h.rest
  have hrest' := (rest_of_cursor (cursor_close (some l₁.column))).trans hrest
  exact (keeps_advance? h.advance).trans
    ((keeps_close _).trans (keeps_fetch? hrest' h.fetch))

theorem Finishes.keeps {l₁ : Lexer} (h : Finishes l l₁ l') : Keeps l l' :=
  (keeps_advance? h.advance).trans (keeps_leaveDocument? h.leave)

/-! ## The start of a document behind the part -/

theorem closeFrom_closeFrom (column : Option Nat) (columns : List Nat) (ts : Array Token) :
    closeFrom none (closeFrom column columns ts).1 (closeFrom column columns ts).2
      = closeFrom none columns ts := by
  induction columns generalizing ts with
  | nil => rfl
  | cons c outer ih =>
      rw [closeFrom]
      split
      · rw [ih]
        rfl
      · rfl

theorem close_of_inFlow (column : Option Nat) (h : l.inFlow = true) : l.close column = l := by
  rw [close, h, if_pos rfl]

theorem close_of_block (column : Option Nat) (h : l.inFlow = false) :
    l.close column = { l with
      columns := (closeFrom column l.columns l.tokens).1
      tokens := (closeFrom column l.columns l.tokens).2 } := by
  rw [close, h, if_neg Bool.false_ne_true]

theorem close_close (column : Option Nat) : (l.close column).close none = l.close none := by
  cases hflow : l.inFlow with
  | true => rw [close_of_inFlow column hflow]
  | false =>
      have hflow' : (l.close column).inFlow = false := by
        rw [close_of_block column hflow]
        exact hflow
      rw [close_of_block none hflow', close_of_block none hflow, close_of_block column hflow]
      simp only [closeFrom_closeFrom]

theorem closeFrom_none (columns : List Nat) (ts : Array Token) :
    (closeFrom none columns ts).1 = [] := by
  induction columns generalizing ts with
  | nil => rfl
  | cons c outer ih => exact ih _

/-- In the block context nothing is left open. -/
theorem left_of_leaveDocument? (h : l.leaveDocument? = some l') (houter : l'.outer = []) :
    l'.columns = [] ∧ l'.pending = none ∧ l'.keyAllowed = false := by
  obtain ⟨l₁, hdrop, rfl⟩ := Option.map_eq_some_iff.mp h
  unfold dropKey? at hdrop
  split at hdrop
  · cases hdrop
  · cases hdrop
    refine ⟨?_, rfl, rfl⟩
    have houter : (l.close none).outer = [] := houter
    have hflow : l.inFlow = false := by
      unfold close at houter
      rw [inFlow]
      split at houter
      · rw [houter]; rfl
      · have houter : l.outer = [] := houter
        rw [houter]; rfl
    change (l.close none).columns = []
    rw [close_of_block none hflow]
    exact closeFrom_none l.columns l.tokens

/-- A part that the text goes on behind ends at the start of a line. -/
theorem column_of_fits (h : l.Fits e) (hrest : l.rest = []) (hafter : e.after ≠ []) :
    l.column = 0 := by
  have hrest : l.cursor.rest = [] := hrest
  rcases h with hclosed | ⟨-, hcolumn⟩
  · rw [hrest] at hclosed
    exact (hafter (after_eq_nil hclosed)).elim
  · exact hcolumn

/-- Where the part ends a document begins in the whole text. -/
theorem Finishes.opens {l₁ : Lexer} (h : Finishes l l₁ l') (hfits : l.Fits e)
    (hafter : e.after ≠ []) :
    (l.inside e).step = .inl ((l'.inside e).emitAlong 3 .documentStart) := by
  obtain ⟨hadvance, hfits₁⟩ := follows_advance? hfits l₁ h.advance
  obtain ⟨rest, hdashes, hgap⟩ := e.after_cases.resolve_left hafter
  have hcolumn := column_of_fits hfits₁ h.rest hafter
  -- behind the part the whole text has three dashes at the start of a line
  have hcursor := cursor_close (l := l₁.inside e) (some (l₁.inside e).column)
  have hrest' : ((l₁.inside e).close (some (l₁.inside e).column)).rest
      = '-' :: '-' :: '-' :: rest := by
    rw [rest_of_cursor hcursor, rest_inside, h.rest, hdashes, List.nil_append]
  have hcolumn' : ((l₁.inside e).close (some (l₁.inside e).column)).column = 0 := by
    rw [Lexer.column, hcursor]
    exact hcolumn
  have hmark : atDocumentMark ('-' :: '-' :: '-' :: rest) = true := hgap
  -- to close the blocks before them is to close them twice
  have hleave : ((l₁.inside e).close (some (l₁.inside e).column)).leaveDocument?
      = some (l'.inside e) := by
    rw [leaveDocument?, close_close, ← leaveDocument?, leaveDocument?_inside, h.leave]
    rfl
  refine Fetches.step ⟨hadvance, isStarved_inside h.going, ?_, ?_⟩
  · rw [rest_inside, h.rest, List.nil_append]
    exact hafter
  · rw [fetch?_eq hrest', hrest', hcolumn', hleave, hmark]
    rfl

/-! ## Runs -/

/-- `n` tokens lead from one lexer to another. -/
inductive Leads : Nat → Lexer → Lexer → Prop where
  | done (l : Lexer) : Leads 0 l l
  | step {n : Nat} {l l₁ l₂ l' : Lexer} : Fetches l l₁ l₂ → Leads n l₂ l' →
      Leads (n + 1) l l'

theorem Leads.run {n : Nat} (h : Leads n l l') (k : Nat) :
    Lexer.run (n + k) l = Lexer.run k l' := by
  induction h with
  | done l => rw [Nat.zero_add]
  | step hfetch _ ih =>
      rw [Nat.add_right_comm, Lexer.run, hfetch.step]
      exact ih

theorem Leads.inside {n : Nat} (h : Leads n l l') (hfits : l.Fits e) :
    Leads n (l.inside e) (l'.inside e) ∧ l'.Fits e := by
  induction h with
  | done l => exact ⟨.done _, hfits⟩
  | step hfetch _ ih =>
      obtain ⟨hfetch', hfits'⟩ := hfetch.inside hfits
      obtain ⟨hleads, hfits''⟩ := ih hfits'
      exact ⟨.step hfetch' hleads, hfits''⟩

/-- A run without a fault comes to the end of its text. -/
theorem exists_leads {fuel : Nat} (hfault : .fault ∉ run fuel l) :
    ∃ n l₀ l₁ l', n < fuel ∧ Leads n l l₀ ∧ Finishes l₀ l₁ l'
      ∧ run fuel l = l'.tokens.toList := by
  induction fuel generalizing l with
  | zero => exact (hfault (fault_mem_failed l)).elim
  | succ fuel ih =>
      rw [run] at hfault ⊢
      cases hstep : l.step with
      | inl l₂ =>
          rw [hstep] at hfault
          obtain ⟨n, l₀, l₁, l', hn, hleads, hfinish, htokens⟩ := ih hfault
          obtain ⟨l₃, hfetch⟩ := exists_fetches hstep
          exact ⟨n + 1, l₀, l₁, l', by omega, .step hfetch hleads, hfinish, htokens⟩
      | inr ts =>
          rw [hstep] at hfault
          obtain ⟨l₁, l', hfinish, htokens⟩ := exists_finishes hstep hfault
          exact ⟨0, l, l₁, l', by omega, .done l, hfinish, htokens⟩

/-- Behind other text the lexer finds the same tokens. -/
theorem run_inside {fuel : Nat} (hfits : l.Fits e) (hafter : e.after = [])
    (hfault : .fault ∉ run fuel l) (k : Nat) :
    run (fuel + k) (l.inside e) = e.before.toList ++ run fuel l := by
  obtain ⟨n, l₀, l₁, l', hn, hleads, hfinish, htokens⟩ := exists_leads hfault
  obtain ⟨hleads', hfits'⟩ := hleads.inside hfits
  obtain ⟨m, rfl⟩ := Nat.exists_eq_add_of_lt hn
  have hfuel : n + m + 1 + k = n + (m + k + 1) := by omega
  rw [hfuel, hleads'.run, run, (hfinish.inside hfits' hafter).step, htokens]
  exact Array.toList_append

/-! ## A text in two parts -/

/-- A text that goes on with the document `b`. -/
def before (b : List Char) (hb : startsDocument b = true) : Surroundings :=
  ⟨0, 0, #[], b, .inr hb⟩

/-- A document behind a text that ends where the lexer `l` is. -/
def behind (l : Lexer) : Surroundings :=
  ⟨l.cursor.mark.offset, l.cursor.mark.line, l.tokens, [], .inl rfl⟩

/-- The lexer behind the first mark of the document `b`. -/
def opened (b : List Char) : Lexer :=
  ⟨⟨Mark.start.along ['-', '-', '-'], b.drop 3⟩, #[.documentStart], [], none, [], false, false⟩

variable {b : List Char} (hb : startsDocument b = true)

theorem start_inside (a : List Char) :
    (start a false).inside (before b hb) = start (a ++ b) false := rfl

theorem after_before_ne : (before b hb).after ≠ [] := by
  rintro hnil
  have hnil : b = [] := hnil
  subst hnil
  cases hb

include hb

theorem take_of_startsDocument : b.take 3 = ['-', '-', '-'] := by
  unfold startsDocument at hb
  split at hb
  · rfl
  · cases hb

/-- Behind the end of a text in the block context a document begins as it begins
alone. -/
theorem emitAlong_behind (hrest : l.rest = []) (hcolumn : l.column = 0)
    (hcolumns : l.columns = []) (hpending : l.pending = none) (houter : l.outer = [])
    (hkey : l.keyAllowed = false) (htruncated : l.truncated = false) :
    (l.inside (before b hb)).emitAlong 3 .documentStart = (opened b).inside (behind l) := by
  obtain ⟨⟨⟨offset, line, column⟩, rest⟩, tokens, columns, pending, outer, keyAllowed,
    truncated⟩ := l
  cases hrest
  cases hcolumn
  cases hcolumns
  cases hpending
  cases houter
  cases hkey
  cases htruncated
  simp only [emitAlong, emit, inside, Cursor.inside, Mark.inside, before, behind, opened,
    Cursor.along, Mark.along, List.nil_append, take_of_startsDocument hb]
  simp [Mark.start, Nat.add_assoc]

theorem step_start : (start b false).step = .inl (opened b) := by
  have hempty : Finishes (start [] false) (start [] false) ((start [] false).allowKey false) :=
    ⟨rfl, rfl, rfl, rfl⟩
  have hstep := hempty.opens (.inr ⟨rfl, rfl⟩) (after_before_ne hb)
  rw [start_inside] at hstep
  rw [List.nil_append] at hstep
  rw [hstep, emitAlong_behind hb rfl rfl rfl rfl rfl rfl rfl]
  simp [behind, opened, inside, Cursor.inside, Mark.inside, start, allowKey, Mark.start]

omit hb

theorem Leads.keeps {n : Nat} (h : Leads n l l') : Keeps l l' := by
  induction h with
  | done l => exact .refl l
  | step hfetch _ ih => exact hfetch.keeps.trans ih

/-- The tokens of a text that goes on with a document behind its last line. -/
theorem run_append (hb : startsDocument b = true) {a : List Char} {fuel fuel' : Nat}
    (hline : a = [] ∨ endsLine a = true) (ha : .fault ∉ run fuel (start a false))
    (hdepth : flowDepth 0 (run fuel (start a false)) = 0)
    (hfault : .fault ∉ run (fuel' + 1) (start b false)) :
    run (fuel + fuel') (start (a ++ b) false)
      = run fuel (start a false) ++ run (fuel' + 1) (start b false) := by
  have hfits : (start a false).Fits (before b hb) := by
    rcases hline with rfl | hline
    · exact .inr ⟨rfl, rfl⟩
    · exact .inl (.inr hline)
  obtain ⟨n, l₀, l₁, l', hn, hleads, hfinish, htokens⟩ := exists_leads ha
  obtain ⟨hleads', hfits'⟩ := hleads.inside hfits
  -- at the end of the first text the lexer is in the block context
  have hkeeps := hleads.keeps.trans hfinish.keeps
  have houter : l'.outer = [] := by
    have hbalanced : l'.outer.length = flowDepth 0 l'.tokens.toList := hkeeps.balanced rfl
    rw [← htokens, hdepth] at hbalanced
    exact List.length_eq_zero_iff.mp hbalanced
  obtain ⟨hcolumns, hpending, hkey⟩ := left_of_leaveDocument? hfinish.leave houter
  have hrest := (rest_of_cursor (cursor_leaveDocument? hfinish.leave)).trans hfinish.rest
  have hafter := after_before_ne hb
  have hcolumn := column_of_fits (hfinish.fits hfits') hrest hafter
  have hopened := hfinish.opens hfits' hafter
  rw [emitAlong_behind hb hrest hcolumn hcolumns hpending houter hkey hkeeps.truncated]
    at hopened
  -- from there on it finds the tokens of the second text
  rw [run, step_start hb] at hfault ⊢
  obtain ⟨m, rfl⟩ := Nat.exists_eq_add_of_lt hn
  have hfuel : n + m + 1 + fuel' = n + (fuel' + m + 1) := by omega
  rw [← start_inside hb, hfuel, hleads'.run, run, hopened, htokens]
  exact run_inside (l := opened b) (.inl (.inl rfl)) rfl hfault m

/-- A document that begins with its mark has the mark as its first token. -/
theorem head?_run (hb : startsDocument b = true) {fuel : Nat}
    (hfault : .fault ∉ run (fuel + 1) (start b false)) :
    (run (fuel + 1) (start b false)).head? = some .documentStart := by
  rw [run, step_start hb] at hfault ⊢
  obtain ⟨n, l₀, l₁, l', -, hleads, hfinish, htokens⟩ := exists_leads hfault
  have hbegins : (opened b).Begins .documentStart := ⟨rfl, List.not_mem_nil⟩
  have hkeeps := hleads.keeps.trans hfinish.keeps
  exact (congrArg List.head? htokens).trans (hkeeps.begins _ hbegins).1

/-- A text that is cut into tokens is read to its end. -/
theorem truncated_of_run {fuel : Nat} (hfault : .fault ∉ run fuel l) : l.truncated = false := by
  obtain ⟨n, l₀, l₁, l', -, hleads, hfinish, -⟩ := exists_leads hfault
  have hgoing := hfinish.going
  rw [isStarved, hfinish.rest] at hgoing
  have hkeeps := hleads.keeps.trans (keeps_advance? hfinish.advance)
  rw [← hkeeps.truncated]
  simpa using hgoing

end Lexer

/-! ## Characters -/

namespace Text

theorem flatten_piecesFrom (size : Nat) (piece cs : List Char) :
    (piecesFrom size piece cs).flatten = piece.reverse ++ cs := by
  induction cs generalizing size piece with
  | nil => simp [piecesFrom]
  | cons c rest ih =>
      rw [piecesFrom]
      split
      · rw [ih]
        simp
      · rw [List.flatten_cons, ih]
        simp

/-- A text is read as a whole when all its characters are allowed. -/
theorem readable_of_all {cs : List Char} (h : cs.all isAllowed = true) : readable cs = cs := by
  have hpieces : ∀ p ∈ piecesFrom 0 [] cs, p.all isAllowed = true := by
    intro p hp
    rw [List.all_eq_true] at h ⊢
    intro c hc
    have hmem := List.mem_flatten_of_mem hp hc
    rw [flatten_piecesFrom] at hmem
    exact h c hmem
  rw [readable, List.takeWhile_eq_self_iff.mpr hpieces, flatten_piecesFrom]
  rfl

theorem all_of_readable {cs : List Char} (h : ¬ (readable cs).length < cs.length) :
    cs.all isAllowed = true := by
  have hsplit := List.takeWhile_append_dropWhile (p := fun p : List Char => p.all isAllowed)
    (l := piecesFrom 0 [] cs)
  have hflat := flatten_piecesFrom 0 [] cs
  rw [← hsplit, List.flatten_append, List.reverse_nil, List.nil_append] at hflat
  have hlength := congrArg List.length hflat
  rw [List.length_append] at hlength
  -- the pieces behind the readable ones have no characters, so there are none
  have hnone : (piecesFrom 0 [] cs).dropWhile (fun p => p.all isAllowed) = [] := by
    cases hdrop : (piecesFrom 0 [] cs).dropWhile (fun p => p.all isAllowed) with
    | nil => rfl
    | cons p rest =>
        have hp : p.all isAllowed = false := by
          have hhead := List.head_dropWhile_not (fun p : List Char => p.all isAllowed)
            (l := piecesFrom 0 [] cs) (by simp [hdrop])
          simpa only [hdrop, List.head_cons] using hhead
        rw [hdrop, List.flatten_cons, List.length_append] at hlength
        have hlength : (readable cs).length + (p.length + rest.flatten.length) = cs.length :=
          hlength
        have hnil : p = [] := List.length_eq_zero_iff.mp (by omega)
        subst hnil
        cases hp
  rw [hnone, List.flatten_nil, List.append_nil] at hflat
  rw [List.all_eq_true]
  intro c hc
  rw [← hflat] at hc
  obtain ⟨p, hp, hc⟩ := List.mem_flatten.mp hc
  have hp : p.all isAllowed = true :=
    List.mem_takeWhile_imp (p := fun p : List Char => p.all isAllowed) hp
  exact List.all_eq_true.mp hp c hc

theorem unifyBreaks_append {a b : List Char} (hb : b.head? ≠ some '\n') :
    unifyBreaks (a ++ b) = unifyBreaks a ++ unifyBreaks b := by
  fun_induction unifyBreaks a with
  | case1 rest ih => exact congrArg ('\n' :: ·) ih
  | case2 rest hnext ih =>
      rw [List.cons_append, unifyBreaks, ih, List.cons_append]
      intro rest' hrest
      cases rest with
      | nil => exact hb (by rw [← List.nil_append b, hrest]; rfl)
      | cons d rest =>
          cases hrest
          exact hnext _ rfl
  | case3 rest ih => exact congrArg ('\n' :: ·) ih
  | case4 c rest _ hreturn hnext ih =>
      rw [List.cons_append, unifyBreaks, ih, List.cons_append]
      · exact fun _ hc _ => hreturn hc
      · exact hreturn
      · exact hnext
  | case5 => rfl

theorem unifyBreaks_cons {c : Char} (rest : List Char) (hreturn : c ≠ '\r')
    (hnext : c ≠ '\u0085') : unifyBreaks (c :: rest) = c :: unifyBreaks rest := by
  rw [unifyBreaks]
  · exact fun _ hc _ => hreturn hc
  · exact hreturn
  · exact hnext

theorem startsDocument_unifyBreaks {b : List Char} (hb : startsDocument b = true) :
    startsDocument (unifyBreaks b) = true := by
  unfold startsDocument at hb
  split at hb
  · next rest =>
      have hdash := fun rest => unifyBreaks_cons (c := '-') rest (by decide) (by decide)
      rw [hdash, hdash, hdash]
      change atGap (unifyBreaks rest) = true
      cases rest with
      | nil => rfl
      | cons c rest =>
          rw [unifyBreaks_cons]
          · exact hb
          · rintro rfl
            cases hb
          · rintro rfl
            cases hb
  · cases hb

/-- Whether a text ends at the start of a line. -/
def isLined (cs : List Char) : Bool :=
  cs.getLast?.all fun c => c ∈ ['\n', '\r', '\u0085', '\u2028', '\u2029']

theorem eq_nil_of_unifyBreaks {cs : List Char} (h : unifyBreaks cs = []) : cs = [] := by
  unfold unifyBreaks at h
  split at h
  · cases h
  · cases h
  · cases h
  · cases h
  · rfl

theorem isLined_tail {c : Char} {rest : List Char} (h : isLined (c :: rest) = true) :
    isLined rest = true := by
  cases rest with
  | nil => rfl
  | cons d rest => rwa [isLined, List.getLast?_cons_cons, ← isLined] at h

theorem isLined_append {a b : List Char} (ha : isLined a = true) (hb : isLined b = true) :
    isLined (a ++ b) = true := by
  rw [isLined, List.getLast?_append]
  cases hlast : b.getLast? with
  | none => exact ha
  | some c =>
      rw [isLined, hlast] at hb
      exact hb

theorem endsLine_of_tail {c : Char} {rest : List Char} (h : endsLine rest = true) :
    endsLine (c :: rest) = true := by
  cases rest with
  | nil => cases h
  | cons d rest => rwa [endsLine_cons]

theorem endsLine_unifyBreaks {a : List Char} (h : isLined a = true) :
    unifyBreaks a = [] ∨ endsLine (unifyBreaks a) = true := by
  have hfeed : ∀ {cs : List Char}, cs = [] ∨ endsLine cs = true →
      endsLine ('\n' :: cs) = true := by
    rintro cs (rfl | h)
    · rfl
    · exact endsLine_of_tail h
  fun_induction unifyBreaks a with
  | case1 rest ih => exact .inr (hfeed (ih (isLined_tail (isLined_tail h))))
  | case2 rest hnext ih => exact .inr (hfeed (ih (isLined_tail h)))
  | case3 rest ih => exact .inr (hfeed (ih (isLined_tail h)))
  | case4 c rest _ hreturn hnext ih =>
      refine .inr ?_
      rcases ih (isLined_tail h) with hnil | hline
      · -- the last character ends a line as it is
        cases eq_nil_of_unifyBreaks hnil
        have hc : c ∈ ['\n', '\r', '\u0085', '\u2028', '\u2029'] := by
          simpa [isLined] using h
        simp only [List.mem_cons, List.not_mem_nil, or_false] at hc
        rcases hc with rfl | rfl | rfl | rfl | rfl
        · rfl
        · exact (hreturn rfl).elim
        · exact (hnext rfl).elim
        · rfl
        · rfl
      · exact endsLine_of_tail hline
  | case5 => exact .inl rfl

end Text

namespace Token

/-- A text of allowed characters is scanned as a whole. -/
theorem scan_of_all {cs : List Char} (h : cs.all isAllowed = true) :
    scan cs = Lexer.run ((unifyBreaks cs).length + 1) (Lexer.start (unifyBreaks cs) false) := by
  simp only [scan, readable_of_all h, Nat.lt_irrefl, decide_false]

theorem all_of_scan {cs : List Char} (h : .fault ∉ scan cs) : cs.all isAllowed = true := by
  have htruncated := Lexer.truncated_of_run h
  exact all_of_readable (by simpa [Lexer.start] using htruncated)

theorem head?_scan {b : List Char} (hb : startsDocument b = true) (hfault : .fault ∉ scan b) :
    (scan b).head? = some .documentStart := by
  have hscan := scan_of_all (all_of_scan hfault)
  rw [hscan] at hfault
  have hhead := Lexer.head?_run (startsDocument_unifyBreaks hb) hfault
  rwa [← hscan] at hhead

/-- A document behind the last line of a text adds its tokens to those of the text. -/
theorem scan_append {a b : List Char} (hb : startsDocument b = true)
    (hline : isLined a = true) (ha : .fault ∉ scan a) (hdepth : flowDepth 0 (scan a) = 0)
    (hfault : .fault ∉ scan b) : scan (a ++ b) = scan a ++ scan b := by
  have hall := all_of_scan ha
  have hall' := all_of_scan hfault
  have hfeed : b.head? ≠ some '\n' := by
    intro h
    obtain ⟨rest, rfl⟩ := List.head?_eq_some_iff.mp h
    cases hb
  rw [scan_of_all hall] at ha hdepth ⊢
  rw [scan_of_all hall'] at hfault ⊢
  rw [scan_of_all (by rw [List.all_append, hall, hall']; rfl), unifyBreaks_append hfeed,
    List.length_append, Nat.add_right_comm]
  exact Lexer.run_append (startsDocument_unifyBreaks hb) (endsLine_unifyBreaks hline) ha
    hdepth hfault

end Token

end SimAnnotate.Yaml
