import SimAnnotate.Proofs.Yaml.Surroundings
import SimAnnotate.Yaml.Token.Scalar

/-!
# Scalars of a part

A scalar that is read in a part of a text is read in the whole text as well, and
ends at the same place. The readers of one line need the line end (`Closed`); those
that go on over line ends may come to the end of the part, where they stop in the
whole text since a document begins there (`Fits`).
-/

namespace SimAnnotate.Yaml

open Text Surroundings

variable {e : Surroundings}

/-! ## Document marks -/

/-- Whether the text begins with `n` times the character `x` before a gap. -/
def Text.repeats (x : Char) : Nat → List Char → Bool
  | 0, cs => atGap cs
  | n + 1, c :: rest => c = x && repeats x n rest
  | _ + 1, [] => false

theorem Text.atDocumentMark_eq (cs : List Char) :
    atDocumentMark cs = (repeats '-' 3 cs || repeats '.' 3 cs) := by
  unfold atDocumentMark
  split
  · simp [repeats]
  · simp [repeats]
  · next hdashes hdots =>
      rcases cs with _ | ⟨a, _ | ⟨b, _ | ⟨c, rest⟩⟩⟩
      · rfl
      · simp [repeats]
      · simp [repeats]
      · have hdash := hdashes rest
        have hdot := hdots rest
        simp only [List.cons.injEq, and_true] at hdash hdot
        grind [repeats]

theorem Surroundings.Closed.repeats {x : Char} (hx : isBreak x = false) {n : Nat}
    {cs : List Char} (h : e.Closed cs) : repeats x n (cs ++ e.after) = repeats x n cs := by
  induction n generalizing cs with
  | zero => exact h.atGap
  | succ n ih =>
      cases cs with
      | nil => rw [after_eq_nil h, List.append_nil]
      | cons c rest =>
          by_cases hc : c = x
          · subst hc
            exact congrArg (decide (c = c) && ·) (ih (h.tail hx))
          · simp [Text.repeats, hc]

/-- What a document mark looks at is in the line. -/
theorem Surroundings.Closed.atDocumentMark {cs : List Char} (h : e.Closed cs) :
    atDocumentMark (cs ++ e.after) = atDocumentMark cs := by
  rw [atDocumentMark_eq, atDocumentMark_eq, h.repeats rfl, h.repeats rfl]

/-! ## Plain scalars -/

namespace PlainScalar

theorem atValueMark_inside {c : Char} {rest : List Char} (h : e.Closed rest) :
    atValueMark (c :: (rest ++ e.after)) = atValueMark (c :: rest) := by
  by_cases hc : c = ':'
  · subst hc
    exact h.atGap
  · simp [atValueMark, hc]

theorem atBadColon_inside {c : Char} {rest : List Char} (h : e.Closed rest) :
    atBadColon (c :: (rest ++ e.after)) = atBadColon (c :: rest) := by
  cases rest with
  | nil => rw [after_eq_nil h, List.append_nil]
  | cons d rest => by_cases hc : c = ':' <;> simp [atBadColon, hc]

theorem word?_inside {flow : Bool} {acc w : List Char} {m : Mark} {cs : List Char}
    {c' : Cursor} (h : e.Closed cs) (hw : word? flow acc m cs = some (w, c')) :
    word? flow acc (m.inside e) (cs ++ e.after) = some (w, c'.inside e)
      ∧ e.Closed c'.rest := by
  induction cs generalizing acc m with
  | nil =>
      cases hw
      refine ⟨?_, h⟩
      simp [word?, Cursor.inside, after_eq_nil h]
  | cons c rest ih =>
      rw [List.cons_append, word?]
      rw [word?] at hw
      -- what ends the word in the part is there in the whole text, and nothing else ends it
      by_cases hgap : (isBlank c || isBreak c) = true
      · rw [if_pos hgap] at hw ⊢
        cases hw
        exact ⟨rfl, h⟩
      · have hrest : e.Closed rest := h.tail (by simp at hgap; exact hgap.2)
        rw [if_neg hgap] at hw ⊢
        rw [atBadColon_inside hrest, atValueMark_inside hrest, Mark.next_inside]
        split at hw
        · cases hw
        · next hbad =>
            rw [if_neg hbad]
            split at hw
            · next hend =>
                rw [if_pos hend]
                cases hw
                exact ⟨rfl, h⟩
            · next hend =>
                rw [if_neg hend]
                exact ih hrest hw

theorem length_word? {flow : Bool} {acc w : List Char} {m : Mark} {cs : List Char}
    {c' : Cursor} (hw : word? flow acc m cs = some (w, c')) :
    w.length + c'.rest.length = acc.length + cs.length := by
  induction cs generalizing acc m with
  | nil => cases hw; rfl
  | cons c rest ih =>
      rw [word?] at hw
      split at hw
      · cases hw; rfl
      · split at hw
        · cases hw
        · split at hw
          · cases hw; rfl
          · rw [ih hw, List.length_cons, List.length_cons]
            omega

/-- What stands behind a word: a gap and whatever `more` reads, or nothing. -/
def afterWord? (flow : Bool) (indent : Nat)
    (more : List Char → Bool → Cursor → Option (List Char × Bool × Cursor))
    (acc : List Char) (c : Cursor) : Option (List Char × Bool × Cursor) :=
  if atGap c.rest && !c.rest.isEmpty then
    let (g, c') := Gap.read indent c
    if g.tabbed then none
    else if !flow && c'.mark.column < indent then some (acc, !g.breaks.isEmpty, c')
    else more g.folded (!g.breaks.isEmpty) c'
  else some (acc, false, c)

theorem readFrom?_succ (flow : Bool) (indent fuel : Nat) (acc joint : List Char)
    (broken : Bool) (c : Cursor) :
    readFrom? flow indent (fuel + 1) acc joint broken c =
      if c.rest.head? = some '#' || (c.mark.column = 0 && atDocumentMark c.rest) then
        some (acc, broken, c)
      else
        match word? flow [] c.mark c.rest with
        | none => none
        | some ([], c') => some (acc, broken, c')
        | some (x :: w, c') =>
            let acc := x :: w ++ (joint.reverse ++ acc)
            afterWord? flow indent (readFrom? flow indent fuel acc) acc c' := by
  rw [readFrom?]
  split
  · rfl
  · match word? flow [] c.mark c.rest with
    | none => rfl
    | some ([], c') => rfl
    | some (x :: w, c') => rfl

theorem afterWord?_inside {flow : Bool} {indent : Nat}
    {more more' : List Char → Bool → Cursor → Option (List Char × Bool × Cursor)}
    {acc acc' : List Char} {broken' : Bool} {c c' : Cursor} (h : e.Closed c.rest)
    (hmore : ∀ {joint : List Char} {broken : Bool} {c₁ : Cursor}, e.Fits c₁ →
      c₁.rest.length ≤ c.rest.length → more joint broken c₁ = some (acc', broken', c') →
      more' joint broken (c₁.inside e) = some (acc', broken', c'.inside e) ∧ e.Fits c')
    (hread : afterWord? flow indent more acc c = some (acc', broken', c')) :
    afterWord? flow indent more' acc (c.inside e) = some (acc', broken', c'.inside e)
      ∧ e.Fits c' := by
  -- the gap behind the word ends in the part, if only where the part does
  obtain ⟨hgap, hfits⟩ := Gap.read_inside indent (.inl h)
  unfold afterWord? at hread ⊢
  simp only [Cursor.rest_inside, h.atGap, h.isEmpty, hgap] at hread ⊢
  split at hread
  · next hblank =>
      rw [if_pos hblank]
      split at hread
      · cases hread
      · next htab =>
          rw [if_neg htab, Cursor.mark_inside, Mark.column_inside]
          split at hread
          · next hleft =>
              rw [if_pos hleft]
              cases hread
              exact ⟨rfl, hfits⟩
          · next hleft =>
              rw [if_neg hleft]
              exact hmore hfits Gap.length_readFrom hread
  · next hblank =>
      rw [if_neg hblank]
      cases hread
      exact ⟨rfl, .inl h⟩

theorem readFrom?_of_nil (flow : Bool) (indent fuel : Nat) (acc joint : List Char)
    (broken : Bool) {c : Cursor} (hrest : c.rest = []) :
    readFrom? flow indent (fuel + 1) acc joint broken c = some (acc, broken, c) := by
  obtain ⟨m, cs⟩ := c
  obtain rfl : cs = [] := hrest
  rw [readFrom?_succ]
  simp [atDocumentMark, word?]

/-- At the end of the part no word stands in the whole text either: a document begins
there. -/
theorem readFrom?_of_end (flow : Bool) (indent fuel : Nat) (acc joint : List Char)
    (broken : Bool) {c : Cursor} (hrest : c.rest = []) (hcolumn : c.mark.column = 0) :
    readFrom? flow indent (fuel + 1) acc joint broken (c.inside e)
      = some (acc, broken, c.inside e) := by
  rcases e.after_cases with hafter | ⟨rest, hafter, hgap⟩
  · exact readFrom?_of_nil flow indent fuel acc joint broken
      (by rw [Cursor.rest_inside, hrest, hafter, List.append_nil])
  · rw [readFrom?_succ]
    simp [hrest, hafter, hcolumn, atDocumentMark, hgap]

/-- The scalar goes on to the same place. -/
theorem readFrom?_inside {flow : Bool} {indent fuel : Nat} {acc joint acc' : List Char}
    {broken broken' : Bool} {c c' : Cursor} (h : e.Fits c) (hfuel : c.rest.length < fuel)
    (hread : readFrom? flow indent fuel acc joint broken c = some (acc', broken', c'))
    (k : Nat) :
    readFrom? flow indent (fuel + k) acc joint broken (c.inside e)
        = some (acc', broken', c'.inside e)
      ∧ e.Fits c' := by
  induction fuel generalizing acc joint broken c with
  | zero => omega
  | succ fuel ih =>
      rw [Nat.add_right_comm]
      rcases h with h | ⟨hrest, hcolumn⟩
      · rw [readFrom?_succ] at hread ⊢
        rw [Cursor.rest_inside, Cursor.mark_inside, Mark.column_inside, h.head?,
          h.atDocumentMark]
        split at hread
        · next hstop =>
            rw [if_pos hstop]
            cases hread
            exact ⟨rfl, .inl h⟩
        · next hstop =>
            rw [if_neg hstop]
            split at hread
            · cases hread
            · next hw =>
                obtain ⟨hw', hclosed⟩ := word?_inside h hw
                rw [hw']
                cases hread
                exact ⟨rfl, .inl hclosed⟩
            · next hw =>
                obtain ⟨hw', hclosed⟩ := word?_inside h hw
                have hlength := length_word? hw
                rw [hw']
                refine afterWord?_inside hclosed (fun hfits hle hread => ?_) hread
                refine ih hfits ?_ hread
                rw [List.length_cons, List.length_nil] at hlength
                omega
      · -- where the part ends a document begins in the whole text, which ends the scalar
        rw [readFrom?_of_nil _ _ _ _ _ _ hrest] at hread
        cases hread
        exact ⟨readFrom?_of_end _ _ _ _ _ _ hrest hcolumn, .inr ⟨hrest, hcolumn⟩⟩

theorem read?_inside {flow : Bool} {indent : Nat} {c c' : Cursor} {text : String}
    {broken : Bool} (h : e.Fits c) (hread : read? flow indent c = some (text, broken, c')) :
    read? flow indent (c.inside e) = some (text, broken, c'.inside e) ∧ e.Fits c' := by
  obtain ⟨⟨acc, broken, c'⟩, hfrom, heq⟩ := Option.map_eq_some_iff.mp hread
  cases heq
  obtain ⟨hfrom', hfits⟩ := readFrom?_inside h (Nat.lt_succ_self _) hfrom e.after.length
  refine ⟨?_, hfits⟩
  rw [read?, Cursor.rest_inside, List.length_append, Nat.add_right_comm, hfrom']
  rfl

end PlainScalar

/-! ## Quoted scalars -/

namespace QuotedScalar

theorem isBreak_of_hexDigit? {c : Char} {n : Nat} (h : hexDigit? c = some n) :
    isBreak c = false :=
  isBreak_of_class (p := fun c => (hexDigit? c).isSome) (by decide) (by rw [h]; rfl)

theorem hexFrom?_append {n value value' : Nat} {cs rest : List Char} (more : List Char)
    (h : hexFrom? n value cs = some (value', rest)) :
    hexFrom? n value (cs ++ more) = some (value', rest ++ more) ∧ Passes cs rest := by
  induction n generalizing value cs with
  | zero =>
      cases h
      exact ⟨by rw [hexFrom?], .refl _⟩
  | succ n ih =>
      cases cs with
      | nil => cases h
      | cons c cs =>
          rw [List.cons_append, hexFrom?]
          rw [hexFrom?] at h
          split at h
          · next d hd =>
              obtain ⟨hmore, hpasses⟩ := ih h
              exact ⟨hmore, hpasses.cons (isBreak_of_hexDigit? hd)⟩
          · cases h

theorem hexChar?_append {n : Nat} {cs rest : List Char} {c : Char} (more : List Char)
    (h : hexChar? n cs = some (c, rest)) :
    hexChar? n (cs ++ more) = some (c, rest ++ more) ∧ Passes cs rest := by
  unfold hexChar? at h ⊢
  split at h
  · next value rest' hfrom =>
      obtain ⟨hmore, hpasses⟩ := hexFrom?_append more hfrom
      obtain ⟨hvalid, h⟩ := Option.ite_none_right_eq_some.mp h
      cases h
      rw [hmore]
      exact ⟨if_pos hvalid, hpasses⟩
  · cases h

theorem escape?_append {cs rest : List Char} {c : Char} (more : List Char)
    (h : escape? cs = some (c, rest)) :
    escape? (cs ++ more) = some (c, rest ++ more) ∧ Passes cs rest := by
  have hhex : ∀ {x : Char} {n : Nat} {cs : List Char}, isBreak x = false →
      hexChar? n cs = some (c, rest) →
      hexChar? n (cs ++ more) = some (c, rest ++ more) ∧ Passes (x :: cs) rest := by
    intro x n cs hx h
    obtain ⟨hmore, hpasses⟩ := hexChar?_append more h
    exact ⟨hmore, hpasses.cons hx⟩
  unfold escape? at h
  split at h
  case h_19 => exact hhex rfl h
  case h_20 => exact hhex rfl h
  case h_21 => exact hhex rfl h
  case h_22 => cases h
  all_goals
    cases h
    exact ⟨rfl, (Passes.refl _).cons rfl⟩

/-- What a step finds, seen in the whole text. -/
def Step.inside (e : Surroundings) : Step → Step
  | .stop c => .stop (c.inside e)
  | .more text c => .more text (c.inside e)

/-- Where a step ends. -/
def Step.cursor : Step → Cursor
  | .stop c | .more _ c => c

/-- A step of a reader that finds the same in the whole text. -/
def Steady (e : Surroundings) (step : Cursor → Option Step) : Prop :=
  ∀ {c : Cursor} {s : Step}, e.Fits c → step c = some s →
    e.Closed c.rest ∧ step (c.inside e) = some (s.inside e) ∧ e.Fits s.cursor

/-- The step at a character that is neither a quote nor a backslash. -/
def charStep (x : Char) (c : Cursor) : Step :=
  if atGap c.rest then .more (Gap.read 0 c).1.folded (Gap.read 0 c).2
  else .more [x] (c.along 1)

theorem single?_cons (m : Mark) (x : Char) (rest : List Char) :
    single? ⟨m, x :: rest⟩ =
      let c : Cursor := ⟨m, x :: rest⟩
      if x = '\'' then
        if rest.head? = some '\'' then some (.more ['\''] (c.along 2))
        else some (.stop (c.along 1))
      else some (charStep x c) := by
  by_cases hx : x = '\''
  · subst hx
    cases rest with
    | nil => rfl
    | cons y rest => by_cases hy : y = '\'' <;> simp [single?, hy]
  · by_cases hgap : atGap (x :: rest) = true <;> simp [single?, charStep, hx, hgap]

theorem double?_cons (m : Mark) (x : Char) (rest : List Char) :
    double? ⟨m, x :: rest⟩ =
      let c : Cursor := ⟨m, x :: rest⟩
      if x = '"' then some (.stop (c.along 1))
      else if x = '\\' then
        if rest.head?.any isBreak then
          some (.more (Gap.readAfterBreak (c.along 1).skip).1
            (Gap.readAfterBreak (c.along 1).skip).2)
        else (escape? rest).map fun (y, rest') =>
          .more [y] (c.along ((x :: rest).length - rest'.length))
      else some (charStep x c) := by
  by_cases hx : x = '"'
  · subst hx
    rfl
  · by_cases hslash : x = '\\'
    · subst hslash
      cases rest with
      | nil => rfl
      | cons y rest =>
          by_cases hy : isBreak y = true
          · simp [double?, hy]
          · simp only [double?, hy, List.head?_cons, Option.any_some]
            cases escape? (y :: rest) <;> rfl
    · by_cases hgap : atGap (x :: rest) = true <;> simp [double?, charStep, hx, hslash, hgap]

theorem charStep_inside {x : Char} {c : Cursor} {rest : List Char} (hrest : c.rest = x :: rest)
    (h : e.Closed c.rest) :
    charStep x (c.inside e) = (charStep x c).inside e ∧ e.Fits (charStep x c).cursor := by
  obtain ⟨hgap, hfits⟩ := Gap.read_inside 0 (.inl h)
  unfold charStep
  rw [Cursor.rest_inside, h.atGap]
  split
  · rw [hgap]
    exact ⟨rfl, hfits⟩
  · next hnone =>
      have hx : isBreak x = false := by
        rw [hrest, Text.atGap, Bool.or_eq_true, not_or] at hnone
        simpa using hnone.2
      rw [Cursor.along_one_inside hrest]
      exact ⟨rfl, .inl (Cursor.closed_along_one hrest hx h)⟩

theorem steady_single? : Steady e single? := by
  rintro ⟨m, cs⟩ s h hs
  cases cs with
  | nil => cases hs
  | cons x rest =>
      have hclosed := h.closed
      refine ⟨hclosed, ?_⟩
      rw [single?_cons] at hs
      change single? ⟨m.inside e, x :: (rest ++ e.after)⟩ = _ ∧ _
      rw [single?_cons]
      by_cases hx : x = '\''
      · subst hx
        have hrest : e.Closed rest := hclosed.tail rfl
        simp only [if_true, hrest.head?] at hs ⊢
        split at hs
        · next hquote =>
            -- two quotes are one character of the text
            obtain ⟨rest', rfl⟩ := List.head?_eq_some_iff.mp hquote
            cases hs
            rw [if_pos hquote]
            have htwo := Cursor.along_inside (e := e) (c := ⟨m, '\'' :: '\'' :: rest'⟩) (n := 2)
              (by simp)
            exact ⟨congrArg (fun c => some (Step.more ['\''] c)) htwo, .inl (hrest.tail rfl)⟩
        · next hquote =>
            cases hs
            rw [if_neg hquote]
            have hone := Cursor.along_one_inside (e := e) (c := ⟨m, '\'' :: rest⟩) rfl
            exact ⟨congrArg (fun c => some (Step.stop c)) hone, .inl hrest⟩
      · simp only [hx, if_false] at hs ⊢
        cases hs
        obtain ⟨hsame, hfits⟩ := charStep_inside (c := ⟨m, x :: rest⟩) rfl hclosed
        exact ⟨congrArg some hsame, hfits⟩

/-- A line end behind a character, and the gap after it. -/
theorem escapedBreak_inside {c : Cursor} {x b : Char} {rest : List Char}
    (hrest : c.rest = x :: b :: rest) (hx : isBreak x = false) (h : e.Closed c.rest) :
    Gap.readAfterBreak ((c.inside e).along 1).skip
        = ((Gap.readAfterBreak (c.along 1).skip).1,
          (Gap.readAfterBreak (c.along 1).skip).2.inside e)
      ∧ e.Fits (Gap.readAfterBreak (c.along 1).skip).2 := by
  have hclosed := Cursor.closed_along_one hrest hx h
  have hnext : (c.along 1).rest = b :: rest := Cursor.rest_along_one hrest
  rw [Cursor.along_one_inside hrest, Cursor.skip_inside hnext]
  exact Gap.readAfterBreak_inside (Cursor.fits_skip hnext (.inl hclosed))

theorem steady_double? : Steady e double? := by
  rintro ⟨m, cs⟩ s h hs
  cases cs with
  | nil => cases hs
  | cons x rest =>
      have hclosed := h.closed
      refine ⟨hclosed, ?_⟩
      have hone := Cursor.along_one_inside (e := e) (c := ⟨m, x :: rest⟩) rfl
      rw [double?_cons] at hs
      change double? ⟨m.inside e, x :: (rest ++ e.after)⟩ = _ ∧ _
      rw [double?_cons]
      by_cases hx : x = '"'
      · subst hx
        cases hs
        exact ⟨congrArg (fun c => some (Step.stop c)) hone, .inl (hclosed.tail rfl)⟩
      · by_cases hslash : x = '\\'
        · subst hslash
          have hrest : e.Closed rest := hclosed.tail rfl
          simp only [hx, if_false, if_true, hrest.head?] at hs ⊢
          split at hs
          · next hbreak =>
              -- an escaped line end passes the gap at the start of the next line
              rw [if_pos hbreak]
              cases rest with
              | nil => cases hbreak
              | cons b rest =>
                  cases hs
                  obtain ⟨hread, hfits⟩ :=
                    escapedBreak_inside (c := ⟨m, '\\' :: b :: rest⟩) rfl rfl hclosed
                  exact ⟨congrArg (fun p => some (Step.more p.1 p.2)) hread, hfits⟩
          · next hbreak =>
              rw [if_neg hbreak]
              -- any other escape ends on its line
              obtain ⟨⟨y, rest'⟩, hescape, heq⟩ := Option.map_eq_some_iff.mp hs
              cases heq
              obtain ⟨hmore, hpasses⟩ := escape?_append e.after hescape
              have hsub := Cursor.along_sub_inside (e := e) (c := ⟨m, '\\' :: rest⟩) rest'
              rw [hmore]
              exact ⟨congrArg (fun c => some (Step.more [y] c)) hsub,
                .inl (Cursor.closed_along_sub (c := ⟨m, '\\' :: rest⟩) (hpasses.cons rfl)
                  hclosed)⟩
        · simp only [hx, hslash, if_false] at hs ⊢
          cases hs
          obtain ⟨hsame, hfits⟩ := charStep_inside (c := ⟨m, x :: rest⟩) rfl hclosed
          exact ⟨congrArg some hsame, hfits⟩

theorem readFrom?_inside {step : Cursor → Option Step} (hstep : Steady e step) {fuel : Nat}
    {acc : List Char} {c c' : Cursor} {text : String} (h : e.Fits c)
    (hread : readFrom? step fuel acc c = some (text, c')) (k : Nat) :
    readFrom? step (fuel + k) acc (c.inside e) = some (text, c'.inside e) ∧ e.Fits c' := by
  -- a document mark at the start of a line is seen in both texts or in none
  induction fuel generalizing acc c with
  | zero => cases hread
  | succ fuel ih =>
      rw [readFrom?] at hread
      rw [Nat.add_right_comm, readFrom?]
      split at hread
      · cases hread
      · next hmark =>
          split at hread
          · cases hread
          · next c₁ hs =>
              obtain ⟨hclosed, hs', hfits⟩ := hstep h hs
              rw [Cursor.rest_inside, hclosed.atDocumentMark, Cursor.mark_inside,
                Mark.column_inside, if_neg hmark, hs']
              cases hread
              exact ⟨rfl, hfits⟩
          · next more c₁ hs =>
              obtain ⟨hclosed, hs', hfits⟩ := hstep h hs
              rw [Cursor.rest_inside, hclosed.atDocumentMark, Cursor.mark_inside,
                Mark.column_inside, if_neg hmark, hs']
              exact ih hfits hread

theorem read?_inside {c c' : Cursor} {text : String} (h : e.Fits c)
    (hread : read? c = some (text, c')) :
    read? (c.inside e) = some (text, c'.inside e) ∧ e.Fits c' := by
  obtain ⟨m, cs⟩ := c
  -- the two kinds of quotes differ only in what a step reads
  have hquote : ∀ {step : Cursor → Option Step} {q : Char} {rest : List Char},
      Steady e step → isBreak q = false → e.Closed (q :: rest) →
      readFrom? step (rest.length + 1) [] (Cursor.along ⟨m, q :: rest⟩ 1) = some (text, c') →
      readFrom? step ((rest ++ e.after).length + 1) []
          (Cursor.along ((Cursor.mk m (q :: rest)).inside e) 1)
        = some (text, c'.inside e) ∧ e.Fits c' := by
    intro step q rest hstep hq hclosed hfrom
    rw [Cursor.along_one_inside (c := ⟨m, q :: rest⟩) rfl, List.length_append,
      Nat.add_right_comm]
    exact readFrom?_inside hstep (.inl (hclosed.tail hq)) hfrom e.after.length
  unfold read? at hread
  split at hread
  · next rest hrest =>
      cases hrest
      exact hquote steady_single? rfl h.closed hread
  · next rest hrest =>
      cases hrest
      exact hquote steady_double? rfl h.closed hread
  · cases hread

end QuotedScalar

/-! ## Block scalars -/

namespace BlockScalar

theorem chomp?_inside {cs : List Char} (h : e.Closed cs) :
    chomp? (cs ++ e.after) = (chomp? cs).map fun (ch, rest) => (ch, rest ++ e.after) := by
  cases cs with
  | nil => rw [after_eq_nil h]; rfl
  | cons c rest =>
      rw [List.cons_append]
      unfold chomp?
      by_cases hplus : c = '+'
      · subst hplus; rfl
      · by_cases hminus : c = '-'
        · subst hminus; rfl
        · simp [hplus, hminus]

theorem passes_chomp? {cs rest : List Char} {ch : Chomp} (h : chomp? cs = some (ch, rest)) :
    Passes cs rest := by
  unfold chomp? at h
  split at h
  · cases h; exact (Passes.refl _).cons rfl
  · cases h; exact (Passes.refl _).cons rfl
  · cases h

theorem increment?_inside {cs : List Char} (h : e.Closed cs) :
    increment? (cs ++ e.after)
      = (increment? cs).map fun (n, rest) => (n, rest ++ e.after) := by
  cases cs with
  | nil => rw [after_eq_nil h]; rfl
  | cons c rest =>
      rw [List.cons_append, increment?, increment?]
      split <;> rfl

theorem passes_increment? {cs rest : List Char} {n : Nat} (h : increment? cs = some (n, rest)) :
    Passes cs rest := by
  cases cs with
  | nil => cases h
  | cons c cs =>
      obtain ⟨⟨hdigit, -⟩, h⟩ := Option.ite_none_right_eq_some.mp h
      cases h
      exact (Passes.refl _).cons (isBreak_of_isDigit hdigit)

theorem header_inside {cs rest : List Char} {ch : Chomp} {n : Nat} (h : e.Closed cs)
    (hheader : header cs = (ch, n, rest)) :
    header (cs ++ e.after) = (ch, n, rest ++ e.after) ∧ Passes cs rest := by
  unfold header at hheader ⊢
  rw [chomp?_inside h]
  -- the two indicators come in either order, and each can be missing
  cases hchomp : chomp? cs with
  | some p =>
      have hpasses := passes_chomp? hchomp
      rw [hchomp] at hheader
      simp only [Option.map_some, increment?_inside (h.passes hpasses)] at hheader ⊢
      cases hinc : increment? p.2 with
      | some q =>
          rw [hinc] at hheader
          cases hheader
          exact ⟨rfl, hpasses.trans (passes_increment? hinc)⟩
      | none =>
          rw [hinc] at hheader
          cases hheader
          exact ⟨rfl, hpasses⟩
  | none =>
      rw [hchomp] at hheader
      simp only [Option.map_none, increment?_inside h] at hheader ⊢
      cases hinc : increment? cs with
      | some p =>
          have hpasses := passes_increment? hinc
          rw [hinc] at hheader
          simp only [Option.map_some, chomp?_inside (h.passes hpasses)] at hheader ⊢
          cases hchomp' : chomp? p.2 with
          | some q =>
              rw [hchomp'] at hheader
              cases hheader
              exact ⟨rfl, hpasses.trans (passes_chomp? hchomp')⟩
          | none =>
              rw [hchomp'] at hheader
              cases hheader
              exact ⟨rfl, hpasses⟩
      | none =>
          rw [hinc] at hheader
          cases hheader
          exact ⟨rfl, .refl cs⟩

theorem breaksFrom?_inside {indent widest widest' : Nat} {breaks breaks' : List Char}
    {c c' : Cursor} (h : e.Fits c)
    (hbreaks : breaksFrom? indent breaks widest c.mark c.rest = some (breaks', widest', c')) :
    breaksFrom? indent breaks widest (c.mark.inside e) (c.rest ++ e.after)
        = some (breaks', widest', c'.inside e)
      ∧ e.Fits c' ∧ c'.rest.length ≤ c.rest.length := by
  obtain ⟨m, cs⟩ := c
  simp only at hbreaks ⊢
  induction cs generalizing breaks widest m with
  | nil =>
      cases hbreaks
      refine ⟨?_, h, Nat.le_refl _⟩
      -- what is behind the part, if anything, is a dash and no further blank line
      rcases e.after_cases with hafter | ⟨rest, hafter, -⟩ <;>
        simp [hafter, breaksFrom?, Cursor.inside, isSpace, isBreak]
  | cons c rest ih =>
      rw [List.cons_append, breaksFrom?, Mark.next_inside, Mark.column_inside]
      rw [breaksFrom?] at hbreaks
      have hle : c'.rest.length ≤ rest.length → c'.rest.length ≤ (c :: rest).length :=
        fun h => h.trans (Nat.le_succ _)
      split at hbreaks
      · next hspace =>
          rw [if_pos hspace]
          obtain ⟨hsame, hfits, hlength⟩ := ih _ h.next hbreaks
          exact ⟨hsame, hfits, hle hlength⟩
      · next hspace =>
          rw [if_neg hspace]
          split at hbreaks
          · cases hbreaks
          · next htab =>
              rw [if_neg htab]
              split at hbreaks
              · next hbreak =>
                  rw [if_pos hbreak]
                  obtain ⟨hsame, hfits, hlength⟩ := ih _ h.next hbreaks
                  exact ⟨hsame, hfits, hle hlength⟩
              · next hbreak =>
                  rw [if_neg hbreak]
                  cases hbreaks
                  exact ⟨rfl, h, Nat.le_refl _⟩

theorem linesFrom?_cons (literal : Bool) (indent fuel : Nat) (acc lead breaks : List Char)
    (blank : Bool) {c : Cursor} {x : Char} {rest : List Char} (hrest : c.rest = x :: rest) :
    linesFrom? literal indent (fuel + 1) acc lead breaks blank c =
      if c.mark.column = indent then
        let line := c.takeWhile (!isBreak ·)
        let acc := line.1.reverse
          ++ ((joint literal lead breaks blank (isBlank x)).reverse ++ acc)
        match breaksFrom? indent [] 0 line.2.skipBreak.mark line.2.skipBreak.rest with
        | none => none
        | some (breaks', _, c') =>
            linesFrom? literal indent fuel acc (line.2.rest.take 1) breaks' (isBlank x) c'
      else some (acc, lead, breaks, c) := by
  obtain ⟨mark, chars⟩ := c
  obtain rfl : chars = x :: rest := hrest
  rfl

/-- At the end of the part the block ends: behind it stands a line at column zero, which
is left of every block. -/
theorem linesFrom?_of_end (literal : Bool) {indent : Nat} (hindent : indent ≠ 0)
    (fuel : Nat) (acc lead breaks : List Char) (blank : Bool) {c : Cursor} (h : e.Fits c)
    (hrest : c.rest = []) :
    linesFrom? literal indent (fuel + 1) acc lead breaks blank (c.inside e)
      = some (acc, lead, breaks, c.inside e) := by
  rcases h with h | ⟨-, hcolumn⟩
  · rw [hrest] at h
    rw [linesFrom?, Cursor.rest_inside, hrest, after_eq_nil h, List.append_nil]
  · have hleft : c.mark.column ≠ indent := fun heq => hindent (heq ▸ hcolumn)
    rcases e.after_cases with hafter | ⟨rest, hafter, -⟩ <;>
      simp [linesFrom?, hrest, hafter, hleft]

/-- The lines of the block are all in the part. -/
theorem linesFrom?_inside {literal : Bool} {indent fuel : Nat} (hindent : indent ≠ 0)
    {acc lead breaks acc' lead' breaks' : List Char} {blank : Bool} {c c' : Cursor}
    (h : e.Fits c) (hfuel : c.rest.length < fuel)
    (hread : linesFrom? literal indent fuel acc lead breaks blank c
      = some (acc', lead', breaks', c')) (k : Nat) :
    linesFrom? literal indent (fuel + k) acc lead breaks blank (c.inside e)
        = some (acc', lead', breaks', c'.inside e)
      ∧ e.Fits c' := by
  induction fuel generalizing acc lead breaks blank c with
  | zero => omega
  | succ fuel ih =>
      rw [Nat.add_right_comm]
      cases hrest : c.rest with
      | nil =>
          -- the whole text goes on at column zero, left of the block
          have hsame := linesFrom?_of_end literal hindent (fuel + k) acc lead breaks
            blank h hrest
          rw [linesFrom?, hrest] at hread
          cases hread
          exact ⟨hsame, h⟩
      | cons x rest =>
          have hclosed : e.Closed c.rest := h.resolve_right (by simp [hrest])
          have hline' := Cursor.closed_takeWhile (p := (!isBreak ·)) (by simp) hclosed
          -- a line is passed with its end, so the fuel suffices for what is left
          have hshorter := Cursor.length_skipLine (c := c) (by simp [hrest])
          obtain ⟨hskip, hskip'⟩ := Cursor.skipBreak_inside (.inl hline')
          rw [linesFrom?_cons literal indent fuel _ _ _ _ hrest] at hread
          rw [linesFrom?_cons literal indent (fuel + k) _ _ _ _
              (c := c.inside e) (by rw [Cursor.rest_inside, hrest, List.cons_append]),
            Cursor.mark_inside, Mark.column_inside,
            Cursor.takeWhile_inside (by simp) hclosed]
          split at hread
          · next hcolumn =>
              rw [if_pos hcolumn]
              simp only [hskip, Cursor.rest_inside, hline'.take_one, Cursor.mark_inside]
                at hread ⊢
              split at hread
              · cases hread
              · next breaks₁ widest c₁ hbreaks =>
                  obtain ⟨hbreaks', hfits, hlength⟩ := breaksFrom?_inside hskip' hbreaks
                  rw [hbreaks']
                  exact ih hfits (by omega) hread
          · next hcolumn =>
              rw [if_neg hcolumn]
              cases hread
              exact ⟨rfl, .inl hclosed⟩

/-- No block lies at column zero. -/
theorem indent_ne_zero (given widest least : Nat) :
    (if given = 0 then max (max widest least) 1 else given) ≠ 0 := by
  split <;> omega

theorem read?_inside {literal : Bool} {parent : Option Nat} {c c' : Cursor} {x : Char}
    {rest : List Char} {text : String} (hrest : c.rest = x :: rest) (hx : isBreak x = false)
    (h : e.Fits c) (hread : read? literal parent c = some (text, c')) :
    read? literal parent (c.inside e) = some (text, c'.inside e) ∧ e.Fits c' := by
  have hclosed : e.Closed (c.along 1).rest :=
    Cursor.closed_along_one hrest hx (h.resolve_right (by simp [hrest]))
  unfold read? at hread ⊢
  rw [Cursor.along_one_inside hrest]
  obtain ⟨ch, n, rest', hheader⟩ : ∃ ch n rest', header (c.along 1).rest = (ch, n, rest') :=
    ⟨_, _, _, rfl⟩
  -- each part of the scalar is read from where the one before it has come to
  obtain ⟨hheader', hpasses⟩ := header_inside hclosed hheader
  simp only [hheader, Cursor.rest_inside, hheader', Cursor.along_sub_inside] at hread ⊢
  split at hread
  · cases hread
  · next c₁ htail =>
      obtain ⟨htail', hclosed₁⟩ := Cursor.skipLineTail?_inside
        (Cursor.closed_along_sub hpasses hclosed) htail
      obtain ⟨hskip, hfits₁⟩ := Cursor.skipBreak_inside (.inl hclosed₁)
      rw [htail']
      simp only [hskip, Cursor.mark_inside, Cursor.rest_inside] at hread ⊢
      split at hread
      · cases hread
      · next breaks widest c₂ hbreaks =>
          obtain ⟨hbreaks', hfits₂, -⟩ := breaksFrom?_inside hfits₁ hbreaks
          rw [hbreaks']
          simp only
          split at hread
          · cases hread
          · next acc lead breaks' c₃ hlines =>
              obtain ⟨hlines', hfits₃⟩ := linesFrom?_inside (indent_ne_zero _ _ _) hfits₂
                (Nat.lt_succ_self _) hlines e.after.length
              rw [Cursor.rest_inside, List.length_append, Nat.add_right_comm, hlines']
              cases hread
              exact ⟨rfl, hfits₃⟩

end BlockScalar

end SimAnnotate.Yaml
