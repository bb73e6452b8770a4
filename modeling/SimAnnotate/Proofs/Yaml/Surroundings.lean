import Mathlib.Data.List.TakeWhile
import SimAnnotate.Yaml.Print.Scalar
import SimAnnotate.Yaml.Token.Mark

/-!
# Part of a text

A reader that has only a part of a text before it finds there what it finds in the
whole text, as long as the part ends with a line end and a new document begins
behind it. `Surroundings` are what the part is missing, and `inside` puts a place
of the part into the whole text. Here are the places; `Fits` says where a reader may
stand.
-/

namespace SimAnnotate.Yaml

namespace Text

/-- Whether the text begins with `---` before a gap. -/
def startsDocument : List Char → Bool
  | '-' :: '-' :: '-' :: rest => atGap rest
  | _ => false

theorem endsLine_cons {c d : Char} {rest : List Char} :
    endsLine (c :: d :: rest) = endsLine (d :: rest) := by
  rw [endsLine, List.getLast?_cons_cons, ← endsLine]

/-- `rest` is what is left of a text after some characters of its line. -/
def Passes (cs rest : List Char) : Prop :=
  ∃ used, cs = used ++ rest ∧ ∀ c ∈ used, isBreak c = false

namespace Passes

variable {cs rest : List Char}

theorem refl (cs : List Char) : Passes cs cs := ⟨[], rfl, nofun⟩

theorem cons {c : Char} (hc : isBreak c = false) (h : Passes cs rest) :
    Passes (c :: cs) rest := by
  obtain ⟨used, rfl, hused⟩ := h
  refine ⟨c :: used, rfl, fun d hd => ?_⟩
  rcases List.mem_cons.mp hd with rfl | hd
  · exact hc
  · exact hused d hd

theorem trans {ds : List Char} (h : Passes cs ds) (h' : Passes ds rest) :
    Passes cs rest := by
  obtain ⟨used, rfl, hused⟩ := h
  obtain ⟨used', rfl, hused'⟩ := h'
  refine ⟨used ++ used', (List.append_assoc ..).symm, fun c hc => ?_⟩
  exact (List.mem_append.mp hc).elim (hused c) (hused' c)

theorem length_le (h : Passes cs rest) : rest.length ≤ cs.length := by
  obtain ⟨used, rfl, -⟩ := h
  simp

theorem drop_eq (h : Passes cs rest) : cs.drop (cs.length - rest.length) = rest := by
  obtain ⟨used, rfl, -⟩ := h
  rw [List.length_append, Nat.add_sub_cancel, List.drop_left]

end Passes

/-- A class of characters without the three line ends. -/
theorem isBreak_of_class {p : Char → Bool}
    (hp : p '\n' = false ∧ p '\u2028' = false ∧ p '\u2029' = false) {c : Char}
    (hc : p c = true) : isBreak c = false := by
  obtain ⟨hfeed, hline, hparagraph⟩ := hp
  rw [← Bool.not_eq_true]
  intro hbreak
  simp only [isBreak, Bool.or_eq_true, decide_eq_true_eq] at hbreak
  rcases hbreak with (rfl | rfl) | rfl <;> simp_all

theorem isBreak_of_isBlank {c : Char} (h : isBlank c = true) : isBreak c = false :=
  isBreak_of_class (p := isBlank) (by decide) h

theorem isBreak_of_isDigit {c : Char} (h : c.isDigit = true) : isBreak c = false :=
  isBreak_of_class (p := Char.isDigit) (by decide) h

end Text

open Text

/-- What stands around a part of a text: how far the part is from the start, the
tokens before it, and the text behind it, which is a new document or nothing. -/
structure Surroundings where
  offset : Nat
  line : Nat
  before : Array Token
  after : List Char
  opens : after = [] ∨ startsDocument after = true

def Mark.inside (e : Surroundings) (m : Mark) : Mark :=
  ⟨e.offset + m.offset, e.line + m.line, m.column⟩

def Cursor.inside (e : Surroundings) (c : Cursor) : Cursor :=
  ⟨c.mark.inside e, c.rest ++ e.after⟩

variable {e : Surroundings}

namespace Surroundings

/-- What is left of the part tells where the line ends. -/
def Closed (e : Surroundings) (cs : List Char) : Prop :=
  e.after = [] ∨ endsLine cs = true

/-- The part is at its end, in front of a line, or goes on up to a line end. -/
def Fits (e : Surroundings) (c : Cursor) : Prop :=
  e.Closed c.rest ∨ c.rest = [] ∧ c.mark.column = 0

/-! ## Up to the end of a line -/

variable {c : Char} {cs rest : List Char}

theorem after_eq_nil (h : e.Closed []) : e.after = [] := by
  rcases h with h | h
  · exact h
  · cases h

theorem Closed.tail (h : e.Closed (c :: rest)) (hc : isBreak c = false) :
    e.Closed rest := by
  rcases h with h | h
  · exact .inl h
  · cases rest with
    | nil =>
        have hbreak : isBreak c = true := h
        rw [hc] at hbreak
        cases hbreak
    | cons d rest => exact .inr (endsLine_cons ▸ h)

theorem Closed.passes (h : e.Closed cs) (hcs : Passes cs rest) : e.Closed rest := by
  obtain ⟨used, rfl, hused⟩ := hcs
  induction used with
  | nil => exact h
  | cons c used ih =>
      exact ih (fun c hc => hused c (List.mem_cons_of_mem _ hc))
        (h.tail (hused c List.mem_cons_self))

theorem Closed.head? (h : e.Closed cs) : (cs ++ e.after).head? = cs.head? := by
  cases cs with
  | nil => rw [after_eq_nil h]; rfl
  | cons c rest => rfl

theorem Closed.atGap (h : e.Closed cs) : atGap (cs ++ e.after) = atGap cs := by
  cases cs with
  | nil => rw [after_eq_nil h]; rfl
  | cons c rest => rfl

theorem Closed.atLineEnd (h : e.Closed cs) :
    atLineEnd (cs ++ e.after) = atLineEnd cs := by
  cases cs with
  | nil => rw [after_eq_nil h]; rfl
  | cons c rest => rfl

theorem Closed.isEmpty (h : e.Closed cs) : (cs ++ e.after).isEmpty = cs.isEmpty := by
  cases cs with
  | nil => rw [after_eq_nil h]; rfl
  | cons c rest => rfl

theorem Closed.take_one (h : e.Closed cs) : (cs ++ e.after).take 1 = cs.take 1 := by
  cases cs with
  | nil => rw [after_eq_nil h]; rfl
  | cons c rest => rfl

theorem Closed.takeWhile {p : Char → Bool} (h : e.Closed cs)
    (hp : ∀ c, p c = true → isBreak c = false) :
    (cs ++ e.after).takeWhile p = cs.takeWhile p := by
  induction cs with
  | nil => rw [after_eq_nil h]; rfl
  | cons c rest ih =>
      rw [List.cons_append, List.takeWhile_cons, List.takeWhile_cons]
      split
      · next hc => rw [ih (h.tail (hp c hc))]
      · rfl

/-! ## Over the end of a line -/

variable {m : Mark}

/-- What follows the part begins with dashes. -/
theorem after_cases (e : Surroundings) :
    e.after = [] ∨ ∃ rest, e.after = '-' :: '-' :: '-' :: rest ∧ Text.atGap rest = true := by
  refine e.opens.imp_right fun h => ?_
  unfold startsDocument at h
  split at h
  · next rest hafter => exact ⟨rest, hafter, h⟩
  · cases h

theorem Fits.closed (h : e.Fits ⟨m, c :: rest⟩) : e.Closed (c :: rest) :=
  h.resolve_right nofun

/-- Only a dash can be seen from the end of the part. -/
theorem Fits.head?_any {c : Cursor} (h : e.Fits c) {p : Char → Bool} (hp : p '-' = false) :
    (c.rest ++ e.after).head?.any p = c.rest.head?.any p := by
  rcases h with h | ⟨hrest, -⟩
  · rw [h.head?]
  · rcases e.after_cases with hafter | ⟨rest, hafter, -⟩ <;> simp [hrest, hafter, hp]

theorem Fits.head?_eq_some {c : Cursor} (h : e.Fits c) {x : Char} (hx : x ≠ '-') :
    (c.rest ++ e.after).head? = some x ↔ c.rest.head? = some x := by
  rcases h with h | ⟨hrest, -⟩
  · rw [h.head?]
  · rcases e.after_cases with hafter | ⟨rest, hafter, -⟩ <;> simp [hrest, hafter, hx.symm]

/-- A reader may go on past any character. -/
theorem Fits.next (h : e.Fits ⟨m, c :: rest⟩) : e.Fits ⟨m.next c, rest⟩ := by
  by_cases hc : isBreak c = true
  · cases rest with
    | nil => exact .inr ⟨rfl, by rw [Mark.next, if_pos hc]⟩
    | cons d rest => exact .inl (h.closed.imp_right fun h => endsLine_cons ▸ h)
  · exact .inl (h.closed.tail (by simpa using hc))

end Surroundings

open Surroundings

/-! ## Places -/

namespace Mark

variable (e) (m : Mark)

@[simp] theorem column_inside : (m.inside e).column = m.column := rfl

theorem next_inside (c : Char) : (m.inside e).next c = (m.next c).inside e := by
  unfold next inside
  split <;> simp [Nat.add_assoc]

theorem foldl_utf8Size (cs : List Char) (n k : Nat) :
    cs.foldl (fun n c => n + c.utf8Size) (n + k)
      = n + cs.foldl (fun n c => n + c.utf8Size) k := by
  induction cs generalizing k with
  | nil => rfl
  | cons c rest ih => rw [List.foldl_cons, List.foldl_cons, Nat.add_assoc, ih]

theorem along_inside (cs : List Char) : (m.inside e).along cs = (m.along cs).inside e := by
  unfold along inside
  rw [foldl_utf8Size]

end Mark

namespace Cursor

variable {c : Cursor} {p : Char → Bool}

@[simp] theorem rest_inside : (c.inside e).rest = c.rest ++ e.after := rfl

@[simp] theorem mark_inside : (c.inside e).mark = c.mark.inside e := rfl

theorem along_inside {n : Nat} (h : n ≤ c.rest.length) :
    (c.inside e).along n = (c.along n).inside e := by
  unfold along inside
  rw [List.take_append_of_le_length h, List.drop_append_of_le_length h, Mark.along_inside]

theorem along_one_inside {x : Char} {rest : List Char} (h : c.rest = x :: rest) :
    (c.inside e).along 1 = (c.along 1).inside e :=
  along_inside (by simp [h])

theorem rest_along_one {x : Char} {rest : List Char} (h : c.rest = x :: rest) :
    (c.along 1).rest = rest := by
  rw [along, h]
  rfl

theorem closed_along_one {x : Char} {rest : List Char} (hrest : c.rest = x :: rest)
    (hx : isBreak x = false) (h : e.Closed c.rest) : e.Closed (c.along 1).rest := by
  rw [rest_along_one hrest]
  rw [hrest] at h
  exact h.tail hx

theorem closed_along_sub {rest : List Char} (hpasses : Passes c.rest rest)
    (h : e.Closed c.rest) : e.Closed (c.along (c.rest.length - rest.length)).rest := by
  change e.Closed (c.rest.drop _)
  rw [hpasses.drop_eq]
  exact h.passes hpasses

theorem along_sub_inside (rest : List Char) :
    (c.inside e).along ((c.rest ++ e.after).length - (rest ++ e.after).length)
      = (c.along (c.rest.length - rest.length)).inside e := by
  rw [List.length_append, List.length_append, Nat.add_sub_add_right]
  exact along_inside (Nat.sub_le _ _)

theorem rest_takeWhile : (c.takeWhile p).2.rest = c.rest.dropWhile p := by
  change c.rest.drop (c.rest.takeWhile p).length = c.rest.dropWhile p
  calc c.rest.drop (c.rest.takeWhile p).length
    _ = (c.rest.takeWhile p ++ c.rest.dropWhile p).drop (c.rest.takeWhile p).length := by
        rw [List.takeWhile_append_dropWhile]
    _ = c.rest.dropWhile p := List.drop_left

theorem takeWhile_inside_of_eq (h : (c.rest ++ e.after).takeWhile p = c.rest.takeWhile p) :
    (c.inside e).takeWhile p = ((c.takeWhile p).1, (c.takeWhile p).2.inside e) := by
  unfold takeWhile
  rw [rest_inside, h]
  exact congrArg (Prod.mk _) (along_inside (List.takeWhile_prefix p).length_le)

variable (hp : ∀ x, p x = true → isBreak x = false)

include hp

theorem takeWhile_inside (h : e.Closed c.rest) :
    (c.inside e).takeWhile p = ((c.takeWhile p).1, (c.takeWhile p).2.inside e) :=
  takeWhile_inside_of_eq (h.takeWhile hp)

theorem skipWhile_inside (h : e.Closed c.rest) :
    (c.inside e).skipWhile p = (c.skipWhile p).inside e :=
  congrArg Prod.snd (takeWhile_inside hp h)

theorem closed_takeWhile (h : e.Closed c.rest) : e.Closed (c.takeWhile p).2.rest := by
  rw [rest_takeWhile]
  exact h.passes ⟨_, List.takeWhile_append_dropWhile.symm,
    fun x hx => hp x (List.mem_takeWhile_imp hx)⟩

theorem closed_skipWhile (h : e.Closed c.rest) : e.Closed (c.skipWhile p).rest :=
  closed_takeWhile hp h

omit hp

/-- Whatever a reader passes over, a dash ends it. -/
theorem skipWhile_inside_of_fits (h : e.Fits c) (hp : ∀ x, p x = true → isBreak x = false)
    (hdash : p '-' = false) :
    (c.inside e).skipWhile p = (c.skipWhile p).inside e ∧ e.Fits (c.skipWhile p) := by
  rcases h with h | ⟨hrest, hcolumn⟩
  · exact ⟨skipWhile_inside hp h, .inl (closed_takeWhile hp h)⟩
  · -- at the end of the part a dash is next, if anything is
    have hsame : (c.inside e).takeWhile p = ((c.takeWhile p).1, (c.takeWhile p).2.inside e) := by
      refine takeWhile_inside_of_eq ?_
      rw [hrest, List.nil_append]
      rcases e.after_cases with hafter | ⟨rest, hafter, -⟩
      · rw [hafter]
      · rw [hafter, List.takeWhile_cons, hdash]
        rfl
    refine ⟨congrArg Prod.snd hsame, .inr ?_⟩
    obtain ⟨m, cs⟩ := c
    subst hrest
    exact ⟨rfl, hcolumn⟩

theorem skip_inside {x : Char} {rest : List Char} (h : c.rest = x :: rest) :
    (c.inside e).skip = c.skip.inside e := by
  obtain ⟨m, cs⟩ := c
  subst h
  exact congrArg (Cursor.mk · _) (Mark.next_inside e m x)

theorem rest_skip {x : Char} {rest : List Char} (h : c.rest = x :: rest) :
    c.skip.rest = rest := by
  obtain ⟨m, cs⟩ := c
  subst h
  rfl

theorem fits_skip {x : Char} {rest : List Char} (hrest : c.rest = x :: rest)
    (h : e.Fits c) : e.Fits c.skip := by
  obtain ⟨m, cs⟩ := c
  subst hrest
  exact h.next

theorem skipBreak_inside (h : e.Fits c) :
    (c.inside e).skipBreak = c.skipBreak.inside e ∧ e.Fits c.skipBreak := by
  obtain ⟨m, cs⟩ := c
  cases cs with
  | cons x rest =>
      unfold skipBreak
      simp only [rest_inside, List.cons_append]
      split
      · exact ⟨skip_inside rfl, fits_skip rfl h⟩
      · exact ⟨rfl, h⟩
  | nil =>
      refine ⟨?_, h⟩
      unfold skipBreak
      -- a dash is no line end, so nothing is passed in either text
      rcases e.after_cases with hafter | ⟨rest, hafter, -⟩ <;> simp [hafter, isBreak]

/-- After the comment that stands here, if one does. -/
def skipComment (c : Cursor) : Cursor :=
  if c.rest.head? = some '#' then c.skipWhile (!isBreak ·) else c

theorem length_skipWhile_le (c : Cursor) (p : Char → Bool) :
    (c.skipWhile p).rest.length ≤ c.rest.length := by
  change (c.takeWhile p).2.rest.length ≤ _
  rw [rest_takeWhile]
  exact (List.dropWhile_suffix p).length_le

theorem length_skipComment_le (c : Cursor) : c.skipComment.rest.length ≤ c.rest.length := by
  unfold skipComment
  split
  · exact length_skipWhile_le c _
  · exact Nat.le_refl _

theorem length_skipBreak_le (c : Cursor) : c.skipBreak.rest.length ≤ c.rest.length := by
  obtain ⟨m, cs⟩ := c
  cases cs with
  | nil => rfl
  | cons x rest =>
      unfold skipBreak
      simp only
      split
      · exact Nat.le_succ _
      · rfl

/-- Passing a line leaves less. -/
theorem length_skipLine (h : c.rest ≠ []) :
    (c.takeWhile (!isBreak ·)).2.skipBreak.rest.length < c.rest.length := by
  have hle := length_skipBreak_le (c.takeWhile (!isBreak ·)).2
  obtain ⟨m, cs⟩ := c
  obtain ⟨x, rest, rfl⟩ := List.exists_cons_of_ne_nil h
  rw [rest_takeWhile] at hle
  by_cases hx : isBreak x = true
  · simp [takeWhile, hx, along, skipBreak, skip]
  · have hdrop := (List.dropWhile_suffix (l := rest) (!isBreak ·)).length_le
    simp only [List.dropWhile_cons, hx, Bool.not_false, if_true] at hle
    exact Nat.lt_of_le_of_lt (hle.trans hdrop) (Nat.lt_succ_self _)

theorem skipLineTail?_eq : c.skipLineTail? =
    let c' := (c.skipWhile isBlank).skipComment
    if atLineEnd c'.rest then some c' else none := rfl

theorem closed_skipComment (h : e.Closed c.rest) : e.Closed c.skipComment.rest := by
  unfold skipComment
  split
  · exact closed_takeWhile (by simp) h
  · exact h

theorem skipComment_inside (h : e.Fits c) :
    (c.inside e).skipComment = c.skipComment.inside e ∧ e.Fits c.skipComment := by
  unfold skipComment
  simp only [rest_inside, h.head?_eq_some (x := '#') (by decide)]
  split
  · next hmark =>
      have hclosed : e.Closed c.rest :=
        h.resolve_right fun hrest => by simp [hrest.1] at hmark
      exact ⟨skipWhile_inside (by simp) hclosed, .inl (closed_skipWhile (by simp) hclosed)⟩
  · exact ⟨rfl, h⟩

theorem skipLineTail?_inside (h : e.Closed c.rest) {c' : Cursor}
    (hc : c.skipLineTail? = some c') :
    (c.inside e).skipLineTail? = some (c'.inside e) ∧ e.Closed c'.rest := by
  have hblank := fun x => isBreak_of_isBlank (c := x)
  have hskipped := closed_skipWhile hblank h
  have hclosed := closed_skipComment hskipped
  rw [skipLineTail?_eq] at hc ⊢
  rw [skipWhile_inside hblank h]
  simp only [(skipComment_inside (.inl hskipped)).1, rest_inside, hclosed.atLineEnd]
  obtain ⟨hend, hc⟩ := Option.ite_none_right_eq_some.mp hc
  cases hc
  exact ⟨if_pos hend, hclosed⟩

end Cursor

/-! ## Gaps -/

namespace Gap

theorem readFrom_inside (indent : Nat) (g : Gap) {m : Mark} {cs : List Char}
    (h : e.Fits ⟨m, cs⟩) :
    readFrom indent g (m.inside e) (cs ++ e.after)
        = ((readFrom indent g m cs).1, (readFrom indent g m cs).2.inside e)
      ∧ e.Fits (readFrom indent g m cs).2 := by
  induction cs generalizing g m with
  | nil =>
      refine ⟨?_, h⟩
      -- a dash is in no gap
      rcases e.after_cases with hafter | ⟨rest, hafter, -⟩ <;>
        simp [hafter, readFrom, Cursor.inside, isBlank, isBreak]
  | cons c rest ih =>
      rw [List.cons_append, readFrom, readFrom, Mark.next_inside]
      split
      · exact ih _ h.next
      · split
        · exact ih _ h.next
        · exact ⟨rfl, h⟩

theorem read_inside (indent : Nat) {c : Cursor} (h : e.Fits c) :
    read indent (c.inside e) = ((read indent c).1, (read indent c).2.inside e)
      ∧ e.Fits (read indent c).2 :=
  readFrom_inside indent _ h

theorem readAfterBreak_inside {c : Cursor} (h : e.Fits c) :
    readAfterBreak (c.inside e) = ((readAfterBreak c).1, (readAfterBreak c).2.inside e)
      ∧ e.Fits (readAfterBreak c).2 := by
  obtain ⟨hread, hfits⟩ := readFrom_inside 0 ⟨[], ['\n'], false⟩ h
  unfold readAfterBreak
  rw [Cursor.mark_inside, Cursor.rest_inside, hread]
  exact ⟨rfl, hfits⟩

theorem length_readFrom {indent : Nat} {g : Gap} {m : Mark} {cs : List Char} :
    (readFrom indent g m cs).2.rest.length ≤ cs.length := by
  induction cs generalizing g m with
  | nil => rfl
  | cons c rest ih =>
      rw [readFrom]
      split
      · exact ih.trans (Nat.le_succ _)
      · split
        · exact ih.trans (Nat.le_succ _)
        · rfl

end Gap

end SimAnnotate.Yaml
