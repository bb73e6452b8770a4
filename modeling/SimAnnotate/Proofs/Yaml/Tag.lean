import SimAnnotate.Proofs.Yaml.Scalar
import SimAnnotate.Yaml.Token.Lexer

/-!
# Directives, tags and names in a part of a text

The words of the format that have characters of their own are read in a part of a text
as in the whole text (`directive?_inside`, `tag?_inside`, `name?_inside`): each of them
ends in the line in which it starts.
-/

namespace SimAnnotate.Yaml

open Text Surroundings

variable {e : Surroundings}

namespace Lexer

/-! ## Directives -/

/-- A reader finds the same in the whole text and stays in its line. -/
def Local {α : Type} (e : Surroundings) (read : Cursor → Option (α × Cursor)) : Prop :=
  ∀ {c c' : Cursor} {a : α}, e.Closed c.rest → read c = some (a, c') →
    read (c.inside e) = some (a, c'.inside e) ∧ e.Closed c'.rest

theorem isBreak_of_isWord {c : Char} (h : isWord c = true) : isBreak c = false :=
  isBreak_of_class (p := isWord) (by decide) h

theorem local_versionPart? : Local e versionPart? := by
  intro c c' n h hread
  have hdigit := fun x => isBreak_of_isDigit (c := x)
  unfold versionPart? at hread ⊢
  rw [Cursor.takeWhile_inside hdigit h]
  simp only at hread ⊢
  split at hread
  · cases hread
  · next hsize =>
      rw [if_neg hsize]
      cases hread
      exact ⟨rfl, Cursor.closed_takeWhile hdigit h⟩

theorem local_version? : Local e version? := by
  intro c c' t h hread
  have hblank := fun x => isBreak_of_isBlank (c := x)
  -- both numbers and the dot between them are on one line
  unfold version? at hread ⊢
  rw [Cursor.skipWhile_inside hblank h]
  cases hmajor : versionPart? (c.skipWhile isBlank) with
  | none =>
      rw [hmajor] at hread
      cases hread
  | some p =>
      obtain ⟨major, c₁⟩ := p
      obtain ⟨hmajor', hclosed⟩ := local_versionPart? (Cursor.closed_skipWhile hblank h) hmajor
      rw [hmajor] at hread
      rw [hmajor']
      simp only [Cursor.rest_inside, hclosed.head?] at hread ⊢
      obtain ⟨hdot, hread⟩ := Option.ite_none_right_eq_some.mp hread
      obtain ⟨⟨minor, c₂⟩, hminor, heq⟩ := Option.map_eq_some_iff.mp hread
      cases heq
      obtain ⟨rest, hrest⟩ := List.head?_eq_some_iff.mp hdot
      obtain ⟨hminor', hclosed'⟩ := local_versionPart?
        (Cursor.closed_along_one hrest rfl hclosed) hminor
      rw [if_pos hdot, Cursor.along_one_inside hrest, hminor']
      exact ⟨rfl, hclosed'⟩

/-! ## Tags -/

theorem octet?_append {cs rest : List Char} {o : UInt8} (more : List Char)
    (h : octet? cs = some (o, rest)) :
    octet? (cs ++ more) = some (o, rest ++ more) ∧ Passes cs rest
      ∧ rest.length < cs.length := by
  unfold octet? at h
  split at h
  · next a b rest' =>
      split at h
      · next x y hx hy =>
          cases h
          refine ⟨?_, ?_, by simp; omega⟩
          · simp [octet?, hx, hy]
          · exact (((Passes.refl _).cons (QuotedScalar.isBreak_of_hexDigit? hy)).cons
              (QuotedScalar.isBreak_of_hexDigit? hx)).cons rfl
      · cases h
  · cases h

theorem following?_append {n : Nat} {cs rest : List Char} {os : Octets} (more : List Char)
    (h : following? n cs = some (os, rest)) :
    following? n (cs ++ more) = some (os, rest ++ more) ∧ Passes cs rest := by
  induction n generalizing cs os with
  | zero =>
      cases h
      exact ⟨rfl, .refl _⟩
  | succ n ih =>
      rw [following?] at h ⊢
      cases hoctet : octet? cs with
      | none =>
          rw [hoctet] at h
          cases h
      | some p =>
          obtain ⟨o, rest'⟩ := p
          obtain ⟨hmore, hpasses, -⟩ := octet?_append more hoctet
          rw [hoctet] at h
          rw [hmore]
          obtain ⟨hrange, h⟩ := Option.ite_none_right_eq_some.mp h
          obtain ⟨⟨os', rest''⟩, hrest, heq⟩ := Option.map_eq_some_iff.mp h
          cases heq
          obtain ⟨hmore', hpasses'⟩ := ih hrest
          refine ⟨?_, hpasses.trans hpasses'⟩
          simp only [hmore', Option.map_some]
          exact if_pos hrange

theorem escaped?_append {cs rest : List Char} {os : Octets} (more : List Char)
    (h : escaped? cs = some (os, rest)) :
    escaped? (cs ++ more) = some (os, rest ++ more) ∧ Passes cs rest
      ∧ rest.length < cs.length := by
  unfold escaped? at h ⊢
  cases hoctet : octet? cs with
  | none =>
      rw [hoctet] at h
      cases h
  | some p =>
      obtain ⟨first, rest'⟩ := p
      obtain ⟨hmore, hpasses, hlength⟩ := octet?_append more hoctet
      rw [hoctet] at h
      rw [hmore]
      simp only at h ⊢
      -- the first octet says how many more belong to the character
      cases hn : followers? first with
      | none =>
          rw [hn] at h
          cases h
      | some n =>
          rw [hn] at h
          obtain ⟨⟨os', rest''⟩, hrest, heq⟩ := Option.map_eq_some_iff.mp h
          cases heq
          obtain ⟨hmore', hpasses'⟩ := following?_append more hrest
          refine ⟨?_, hpasses.trans hpasses', hpasses'.length_le.trans_lt hlength⟩
          simp only [hmore', Option.map_some]

theorem uriFrom?_nil (verbatim : Bool) (fuel : Nat) (acc : Octets) :
    uriFrom? verbatim fuel acc [] = some (acc, []) := by
  cases fuel <;> rfl

theorem uriFrom?_cons (verbatim : Bool) (fuel : Nat) (acc : Octets) (c : Char)
    (rest : List Char) : uriFrom? verbatim (fuel + 1) acc (c :: rest) =
      if c = '%' then
        (escaped? (c :: rest)).bind fun (os, rest') =>
          uriFrom? verbatim fuel (os.reverse ++ acc) rest'
      else if isWord c || isUriMark verbatim c then
        uriFrom? verbatim fuel (.ofNat c.toNat :: acc) rest
      else some (acc, c :: rest) := by
  by_cases hc : c = '%'
  · subst hc
    rw [uriFrom?]
    cases escaped? ('%' :: rest) <;> rfl
  · simp [uriFrom?, hc]

theorem isBreak_of_isUriMark {verbatim : Bool} {c : Char}
    (h : (isWord c || isUriMark verbatim c) = true) : isBreak c = false :=
  isBreak_of_class (p := fun c => isWord c || isUriMark verbatim c)
    (by cases verbatim <;> decide) h

theorem uriFrom?_inside {verbatim : Bool} {fuel : Nat} {acc acc' : Octets}
    {cs rest : List Char} (h : e.Closed cs) (hfuel : cs.length ≤ fuel)
    (hread : uriFrom? verbatim fuel acc cs = some (acc', rest)) (k : Nat) :
    uriFrom? verbatim (fuel + k) acc (cs ++ e.after) = some (acc', rest ++ e.after)
      ∧ Passes cs rest := by
  induction fuel generalizing acc cs with
  | zero =>
      cases List.length_eq_zero_iff.mp (Nat.le_zero.mp hfuel)
      cases hread
      rw [List.nil_append, after_eq_nil h]
      exact ⟨uriFrom?_nil .., .refl _⟩
  | succ fuel ih =>
      cases cs with
      | nil =>
          cases hread
          rw [List.nil_append, after_eq_nil h]
          exact ⟨uriFrom?_nil .., .refl _⟩
      | cons c cs =>
          rw [Nat.add_right_comm, List.cons_append, uriFrom?_cons]
          rw [uriFrom?_cons] at hread
          -- an escape takes several characters, so the fuel is more than enough
          by_cases hc : c = '%'
          · rw [if_pos hc] at hread ⊢
            obtain ⟨⟨os, rest'⟩, hescaped, hread⟩ := Option.bind_eq_some_iff.mp hread
            obtain ⟨hmore, hpasses, hlength⟩ := escaped?_append e.after hescaped
            rw [← List.cons_append, hmore]
            obtain ⟨hsame, hpasses'⟩ := ih (h.passes hpasses) (by omega) hread
            exact ⟨hsame, hpasses.trans hpasses'⟩
          · rw [if_neg hc] at hread ⊢
            split at hread
            · next hmark =>
                have hbreak := isBreak_of_isUriMark hmark
                obtain ⟨hsame, hpasses⟩ := ih (h.tail hbreak) (by simpa using hfuel) hread
                rw [if_pos hmark]
                exact ⟨hsame, hpasses.cons hbreak⟩
            · next hmark =>
                rw [if_neg hmark]
                cases hread
                exact ⟨rfl, .refl _⟩

theorem local_uri? (verbatim : Bool) : Local e (uri? verbatim) := by
  intro c c' os h hread
  obtain ⟨⟨acc, rest⟩, hfrom, heq⟩ := Option.map_eq_some_iff.mp hread
  cases heq
  obtain ⟨hfrom', hpasses⟩ := uriFrom?_inside h (Nat.le_refl _) hfrom e.after.length
  refine ⟨?_, Cursor.closed_along_sub hpasses h⟩
  rw [← List.length_append] at hfrom'
  rw [uri?, Cursor.rest_inside, hfrom']
  exact congrArg (fun c => some (acc.reverse, c)) (Cursor.along_sub_inside rest)

theorem tagHandle_inside {c : Cursor} {x : Char} {rest : List Char} (hrest : c.rest = x :: rest)
    (hx : isBreak x = false) (h : e.Closed c.rest) :
    tagHandle (c.inside e) = ((tagHandle c).1, (tagHandle c).2.inside e)
      ∧ e.Closed (tagHandle c).2.rest := by
  have hword := fun x => isBreak_of_isWord (c := x)
  have hclosed := Cursor.closed_along_one hrest hx h
  have hclosed' := Cursor.closed_takeWhile (p := isWord) hword hclosed
  unfold tagHandle
  rw [Cursor.along_one_inside hrest, Cursor.takeWhile_inside hword hclosed]
  simp only [Cursor.rest_inside, hclosed'.head?]
  split
  · next hmark =>
      obtain ⟨rest', hrest'⟩ := List.head?_eq_some_iff.mp hmark
      rw [Cursor.along_one_inside hrest']
      exact ⟨rfl, Cursor.closed_along_one hrest' rfl hclosed'⟩
  · exact ⟨rfl, hclosed'⟩

theorem local_tagDirective? : Local e tagDirective? := by
  intro c c' t h hread
  have hblank := fun x => isBreak_of_isBlank (c := x)
  have hclosed := Cursor.closed_skipWhile hblank h
  -- handle and stem stand on one line, with a gap between them
  unfold tagDirective? at hread ⊢
  rw [Cursor.skipWhile_inside hblank h]
  simp only [Cursor.rest_inside, hclosed.head?] at hread ⊢
  split at hread
  · cases hread
  · next hmark =>
      obtain ⟨rest, hrest⟩ := List.head?_eq_some_iff.mp (not_not.mp hmark)
      obtain ⟨hhandle, hclosed₁⟩ := tagHandle_inside hrest rfl hclosed
      rw [if_neg hmark, hhandle]
      simp only [Cursor.rest_inside, hclosed₁.head?, Cursor.skipWhile_inside hblank hclosed₁]
        at hread ⊢
      split at hread
      · cases hread
      · next hname =>
          rw [if_neg hname]
          obtain ⟨hgap, hread⟩ := Option.ite_none_right_eq_some.mp hread
          rw [if_pos hgap]
          split at hread
          · next stem c₂ huri =>
              obtain ⟨huri', hclosed₂⟩ :=
                local_uri? _ (Cursor.closed_skipWhile hblank hclosed₁) huri
              rw [huri']
              simp only [Cursor.rest_inside, hclosed₂.atGap]
              split at hread
              · cases hread
              · next hend =>
                  rw [if_neg hend]
                  cases hread
                  exact ⟨rfl, hclosed₂⟩
          · cases hread

theorem directive?_inside {c c' : Cursor} {t : Token} {rest : List Char}
    (hrest : c.rest = '%' :: rest) (h : e.Closed c.rest) (hread : directive? c = some (t, c')) :
    directive? (c.inside e) = some (t, c'.inside e) ∧ e.Fits c' := by
  have hword := fun x => isBreak_of_isWord (c := x)
  have hclosed := Cursor.closed_along_one hrest rfl h
  have hclosed₁ := Cursor.closed_takeWhile (p := isWord) hword hclosed
  -- behind either directive only a comment and the line end may follow
  have hfound : ∀ {found : Cursor → Option (Token × Cursor)}, Local e found →
      ((found ((c.along 1).takeWhile isWord).2).bind fun r =>
        r.2.skipLineTail?.map fun c₃ => (r.1, c₃.skipBreak)) = some (t, c') →
      ((found (((c.along 1).takeWhile isWord).2.inside e)).bind fun r =>
        r.2.skipLineTail?.map fun c₃ => (r.1, c₃.skipBreak)) = some (t, c'.inside e)
        ∧ e.Fits c' := by
    intro found hlocal hread
    obtain ⟨⟨t, c₂⟩, hfound, hread⟩ := Option.bind_eq_some_iff.mp hread
    obtain ⟨c₃, htail, heq⟩ := Option.map_eq_some_iff.mp hread
    cases heq
    obtain ⟨hfound', hclosed₂⟩ := hlocal hclosed₁ hfound
    obtain ⟨htail', hclosed₃⟩ := Cursor.skipLineTail?_inside hclosed₂ htail
    obtain ⟨hskip, hfits⟩ := Cursor.skipBreak_inside (.inl hclosed₃)
    rw [hfound', Option.bind_some]
    simp only [htail', Option.map_some, hskip]
    exact ⟨trivial, hfits⟩
  unfold directive? at hread ⊢
  rw [Cursor.along_one_inside hrest, Cursor.takeWhile_inside hword hclosed]
  simp only [Cursor.rest_inside, hclosed₁.atGap] at hread ⊢
  split at hread
  · cases hread
  · next hgap =>
      rw [if_neg hgap]
      split at hread
      · next hyaml =>
          rw [if_pos hyaml]
          exact hfound local_version? hread
      · next hyaml =>
          rw [if_neg hyaml]
          split at hread
          · next htag =>
              rw [if_pos htag]
              exact hfound local_tagDirective? hread
          · cases hread

/-- A tag between angle brackets, its mark and the first bracket passed. -/
def verbatimTag? (c : Cursor) : Option (Token × Cursor) :=
  (uri? true c).bind fun (uri, c') =>
    if uri.isEmpty || c'.rest.head? ≠ some '>' then none
    else some (.tag "" (upToZero uri), c'.along 1)

/-- A tag with a handle. -/
def shortTag? (c : Cursor) : Option (Token × Cursor) :=
  let handle := (tagHandle c).1
  (uri? false (tagHandle c).2).bind fun (uri, c') =>
    if 2 ≤ handle.length && handle.getLast? = some '!' then
      if uri.isEmpty then none
      else some (.tag (String.ofList handle) (upToZero uri), c')
    else
      let suffix := upToZero (octets (String.ofList (handle.drop 1)) ++ uri)
      if suffix.isEmpty then some (.tag "" (octets "!"), c') else some (.tag "!" suffix, c')

theorem tag?_eq {c : Cursor} {rest : List Char} (hrest : c.rest = '!' :: rest) :
    tag? c = if rest.head? = some '<' then verbatimTag? (c.along 2) else shortTag? c := by
  unfold tag?
  rw [hrest]
  by_cases hopen : rest.head? = some '<'
  · obtain ⟨rest', rfl⟩ := List.head?_eq_some_iff.mp hopen
    rw [if_pos hopen, verbatimTag?]
    simp only
    cases uri? true (c.along 2) <;> rfl
  · rw [if_neg hopen, shortTag?]
    split
    · next heq =>
        cases heq
        exact (hopen rfl).elim
    · simp only
      cases uri? false (tagHandle c).2 <;> rfl

theorem local_verbatimTag? : Local e verbatimTag? := by
  intro c c' t h hread
  obtain ⟨⟨uri, c₁⟩, huri, hread⟩ := Option.bind_eq_some_iff.mp hread
  obtain ⟨huri', hclosed⟩ := local_uri? _ h huri
  unfold verbatimTag?
  rw [huri', Option.bind_some]
  simp only [Cursor.rest_inside, hclosed.head?] at hread ⊢
  split at hread
  · cases hread
  · next hend =>
      have hclose : c₁.rest.head? = some '>' := by
        rw [Bool.or_eq_true, not_or, decide_eq_true_eq, not_not] at hend
        exact hend.2
      obtain ⟨rest, hrest⟩ := List.head?_eq_some_iff.mp hclose
      rw [if_neg hend, Cursor.along_one_inside hrest]
      cases hread
      exact ⟨rfl, Cursor.closed_along_one hrest rfl hclosed⟩

theorem shortTag?_inside {c c' : Cursor} {t : Token} {rest : List Char}
    (hrest : c.rest = '!' :: rest) (h : e.Closed c.rest) (hread : shortTag? c = some (t, c')) :
    shortTag? (c.inside e) = some (t, c'.inside e) ∧ e.Closed c'.rest := by
  obtain ⟨hhandle, hclosed⟩ := tagHandle_inside hrest rfl h
  obtain ⟨⟨uri, c₁⟩, huri, hread⟩ := Option.bind_eq_some_iff.mp hread
  obtain ⟨huri', hclosed₁⟩ := local_uri? _ hclosed huri
  unfold shortTag?
  rw [hhandle, huri', Option.bind_some]
  simp only at hread ⊢
  split at hread
  · next hname =>
      rw [if_pos hname]
      split at hread
      · cases hread
      · next huri =>
          rw [if_neg huri]
          cases hread
          exact ⟨rfl, hclosed₁⟩
  · next hname =>
      rw [if_neg hname]
      split at hread
      · next hsuffix =>
          rw [if_pos hsuffix]
          cases hread
          exact ⟨rfl, hclosed₁⟩
      · next hsuffix =>
          rw [if_neg hsuffix]
          cases hread
          exact ⟨rfl, hclosed₁⟩

theorem tag?_inside {c c' : Cursor} {t : Token} {rest : List Char}
    (hrest : c.rest = '!' :: rest) (h : e.Closed c.rest) (hread : tag? c = some (t, c')) :
    tag? (c.inside e) = some (t, c'.inside e) ∧ e.Closed c'.rest := by
  have hclosed : e.Closed rest := by
    rw [hrest] at h
    exact h.tail rfl
  have hrest' : (c.inside e).rest = '!' :: (rest ++ e.after) := by
    rw [Cursor.rest_inside, hrest, List.cons_append]
  rw [tag?_eq hrest] at hread
  rw [tag?_eq hrest', hclosed.head?]
  split at hread
  · next hopen =>
      obtain ⟨rest', rfl⟩ := List.head?_eq_some_iff.mp hopen
      rw [if_pos hopen, Cursor.along_inside (by simp [hrest])]
      refine local_verbatimTag? ?_ hread
      change e.Closed (c.rest.drop 2)
      rw [hrest]
      exact hclosed.tail rfl
  · next hopen =>
      rw [if_neg hopen]
      exact shortTag?_inside hrest h hread

theorem name?_inside {make : String → Token} {c c' : Cursor} {t : Token} {x : Char}
    {rest : List Char} (hrest : c.rest = x :: rest) (hx : isBreak x = false)
    (h : e.Closed c.rest) (hread : name? make c = some (t, c')) :
    name? make (c.inside e) = some (t, c'.inside e) ∧ e.Closed c'.rest := by
  have hword := fun x => isBreak_of_isWord (c := x)
  have hclosed := Cursor.closed_along_one hrest hx h
  have hclosed' := Cursor.closed_takeWhile (p := isWord) hword hclosed
  unfold name? at hread ⊢
  rw [Cursor.along_one_inside hrest, Cursor.takeWhile_inside hword hclosed]
  simp only [Cursor.rest_inside, hclosed'.head?, hclosed'.atGap] at hread ⊢
  split at hread
  · cases hread
  · next hname =>
      rw [if_neg hname]
      cases hread
      exact ⟨rfl, hclosed'⟩

end Lexer

end SimAnnotate.Yaml
