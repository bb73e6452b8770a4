import SimAnnotate.Proofs.Yaml.Node
import SimAnnotate.Proofs.Yaml.Scan
import SimAnnotate.Yaml.Stream

/-!
# Texts one behind the other

The documents of a text and those of a second text are what the two texts together are
read as, when the second one begins with `---` and the first one ends with a line end.
Both conditions are needed: without them the second text can go on with what the first
one has begun.
-/

namespace SimAnnotate.Yaml

namespace Stream

variable {document : List Token}

/-- What `r` reads from the tokens `ts` is what `r'` reads where a document follows. -/
def CarriesOn {α : Type} (document ts : List Token) (r r' : Option (α × List Token)) :
    Prop :=
  ∀ a rest, r = some (a, rest) →
    r' = some (a, rest ++ .documentStart :: document) ∧ Passed 0 ts rest

theorem CarriesOn.some {α : Type} {ts rest : List Token} (h : Passed 0 ts rest) (a : α) :
    CarriesOn document ts (some (a, rest)) (some (a, rest ++ .documentStart :: document)) := by
  rintro a' rest' heq
  cases heq
  exact ⟨rfl, h⟩

theorem CarriesOn.none {α : Type} {ts : List Token} {r : Option (α × List Token)} :
    CarriesOn document ts none r := by
  rintro a' rest' ⟨⟩

/-! ## One document -/

theorem passed_documentEnd (ts : List Token) : Passed 0 (.documentEnd :: ts) ts :=
  .cons (by decide) (fun _ => Nat.le_refl _) (.refl ts)

/-- A node and the tokens behind its document, where `ts` follow the node. -/
def ended? (node : Node) (ts : List Token) : Option (Node × List Token) :=
  match ts with
  | .fault :: _ => none
  | .documentEnd :: rest => some (node, rest)
  | rest => some (node, rest)

theorem content?_eq (handles : TagHandles) (ts : List Token) :
    content? handles ts
      = ((Node.read handles (3 * ts.length + 3) .block).run ⟨ts, ∅⟩).bind
          fun (node, s) => ended? node s.tokens := by
  simp only [content?]
  generalize (Node.read handles (3 * ts.length + 3) .block).run ⟨ts, ∅⟩ = r
  cases r <;> rfl

theorem carriesOn_ended? (node : Node) (ts : List Token) :
    CarriesOn document ts (ended? node ts) (ended? node (ts ++ .documentStart :: document)) := by
  cases ts with
  | nil => exact .some (.refl _) node
  | cons t rest =>
      cases t
      case fault => exact .none
      case documentEnd => exact .some (passed_documentEnd rest) node
      all_goals exact .some (.refl _) node

theorem carriesOn_content? (handles : TagHandles) (ts : List Token) :
    CarriesOn document ts (content? handles ts)
      (content? handles (ts ++ .documentStart :: document)) := by
  intro node rest h
  rw [content?_eq] at h ⊢
  obtain ⟨⟨node', s⟩, hread, hended⟩ := Option.bind_eq_some_iff.mp h
  have hfuel : 3 * ts.length + 3 ≤ 3 * (ts ++ .documentStart :: document).length + 3 := by
    rw [List.length_append]
    omega
  obtain ⟨hread', hpassed⟩ := (Node.ReadsOn.of_le hfuel).read .block _ _ _ hread
  obtain ⟨hended', hpassed'⟩ := carriesOn_ended? node' s.tokens _ _ hended
  exact ⟨Option.bind_eq_some_iff.mpr ⟨_, hread', hended'⟩, hpassed.trans hpassed'⟩

theorem isBare_append (ts : List Token) :
    isBare (ts ++ .documentStart :: document) = isBare ts := by
  cases ts with
  | nil => rfl
  | cons t rest => cases t <;> rfl

theorem carriesOn_explicit? (handles : TagHandles) (ts : List Token) :
    CarriesOn document ts (explicit? handles ts)
      (explicit? handles (ts ++ .documentStart :: document)) := by
  unfold explicit?
  rw [isBare_append]
  split
  · cases ts with
    | nil => exact .some (.refl _) Node.empty
    | cons t rest =>
        cases t
        case documentEnd => exact .some (passed_documentEnd rest) Node.empty
        all_goals exact .some (.refl _) Node.empty
  · exact carriesOn_content? handles ts

theorem carriesOn_directives? (version : Bool) (handles : TagHandles) (ts : List Token) :
    CarriesOn document ts (directives? version handles ts)
      (directives? version handles (ts ++ .documentStart :: document)) := by
  fun_induction directives? version handles ts with
  | case1 version handles major minor rest hversion => exact .none
  | case2 version handles major minor rest hversion ih =>
      rw [List.cons_append, directives?, if_neg hversion]
      intro a rest' h
      obtain ⟨h', hpassed⟩ := ih a rest' h
      exact ⟨h', hpassed.cons nofun fun _ => Nat.le_refl _⟩
  | case3 version handles handle stem rest hknown => exact .none
  | case4 version handles handle stem rest hknown ih =>
      rw [List.cons_append, directives?, if_neg hknown]
      intro a rest' h
      obtain ⟨h', hpassed⟩ := ih a rest' h
      exact ⟨h', hpassed.cons nofun fun _ => Nat.le_refl _⟩
  | case5 version handles ts hversion htag =>
      -- no directive is left, and what follows is a document or the end of the part
      cases ts with
      | nil => exact .some (.refl _) _
      | cons t rest =>
          cases t
          case version => exact (hversion _ _ _ rfl).elim
          case tagDirective => exact (htag _ _ _ rfl).elim
          all_goals exact .some (.refl _) _

theorem carriesOn_document? (document : List Token) (first : Bool) (ts : List Token) :
    CarriesOn document ts (document? first ts)
      (document? first (ts ++ .documentStart :: document)) := by
  unfold document?
  rw [isBare_append]
  split
  · exact carriesOn_content? TagHandles.common ts
  · intro node rest h
    split at h
    · next handles rest' hdirectives =>
        obtain ⟨hdirectives', hpassed⟩ := carriesOn_directives? _ _ _ _ _ hdirectives
        obtain ⟨h', hpassed'⟩ := carriesOn_explicit? handles rest' _ _ h
        rw [hdirectives']
        exact ⟨h', hpassed.trans (hpassed'.cons (by decide) fun _ => Nat.le_refl _)⟩
    · cases h

/-! ## All documents -/

/-- The tokens that the next document begins with. -/
def trim (first : Bool) (ts : List Token) : List Token := if first then ts else skipEnds ts

theorem passed_trim (first : Bool) (ts : List Token) : Passed 0 ts (trim first ts) := by
  cases first with
  | true => exact .refl ts
  | false =>
      change Passed 0 ts (skipEnds ts)
      fun_induction skipEnds ts with
      | case1 rest ih => exact (passed_documentEnd rest).trans ih
      | case2 ts => exact .refl ts

theorem trim_append (document : List Token) (first : Bool) (ts : List Token) :
    trim first (ts ++ .documentStart :: document)
      = trim first ts ++ .documentStart :: document := by
  cases first with
  | true => rfl
  | false =>
      change skipEnds (ts ++ .documentStart :: document)
        = skipEnds ts ++ .documentStart :: document
      fun_induction skipEnds ts with
      | case1 rest ih => exact ih
      | case2 ts hend =>
          cases ts with
          | nil => rfl
          | cons t rest =>
              cases t
              case documentEnd => exact (hend _ rfl).elim
              all_goals rfl

theorem document?_nil (first : Bool) : document? first [] = none := by
  cases first <;> rfl

/-- Reading comes to the end of the tokens when each document can be read. -/
theorem readFrom_eq {fuel : Nat} {first : Bool} {ts : List Token} {vs : List Value} :
    readFrom (fuel + 1) first ts = ⟨vs, true⟩ ↔
      (trim first ts = [] ∧ vs = [])
        ∨ ∃ node rest v more, document? first (trim first ts) = some (node, rest)
            ∧ node.value? = some v ∧ readFrom fuel false rest = ⟨more, true⟩
            ∧ vs = v :: more := by
  rw [readFrom, ← trim]
  cases htrim : trim first ts with
  | nil =>
      rw [document?_nil]
      simp [eq_comm]
  | cons t rest =>
      simp only
      cases document? first (t :: rest) with
      | none => simp
      | some read =>
          obtain ⟨node, rest'⟩ := read
          cases hvalue : node.value? with
          | none => simp [hvalue]
          | some v =>
              simp only [hvalue]
              -- the documents behind the first are read with less fuel
              constructor
              · intro h
                obtain ⟨rfl, hintact⟩ := Stream.mk.inj h
                exact .inr ⟨node, rest', v, _, rfl, hvalue,
                  congrArg (Stream.mk (readFrom fuel false rest').documents) hintact, rfl⟩
              · rintro (⟨⟨⟩, -⟩ | ⟨node', rest'', v', more, hread, hvalue', hmore, rfl⟩)
                cases hread
                cases hvalue.symm.trans hvalue'
                rw [hmore]

/-- More fuel does no harm. -/
theorem readFrom_of_le {fuel fuel' : Nat} (hfuel : fuel ≤ fuel') {first : Bool}
    {ts : List Token} {vs : List Value} (h : readFrom fuel first ts = ⟨vs, true⟩) :
    readFrom fuel' first ts = ⟨vs, true⟩ := by
  induction fuel generalizing fuel' first ts vs with
  | zero => cases h
  | succ fuel ih =>
      obtain ⟨fuel', rfl⟩ := Nat.exists_eq_add_of_le' (Nat.le_trans (Nat.le_add_left 1 _) hfuel)
      refine readFrom_eq.mpr ((readFrom_eq.mp h).imp_right ?_)
      rintro ⟨node, rest, v, more, hdocument, hvalue, hmore, rfl⟩
      exact ⟨node, rest, v, more, hdocument, hvalue, ih (by omega) hmore, rfl⟩

theorem document?_documentStart (first : Bool) (ts : List Token) :
    document? first (.documentStart :: ts) = document? true (.documentStart :: ts) := by
  cases first <;> rfl

/-- A document with a start of its own can be the first one or a later one. -/
theorem readFrom_of_trim {first : Bool} {ts ts' : List Token}
    (h : trim first ts = .documentStart :: ts') (fuel : Nat) :
    readFrom fuel first ts = readFrom fuel true (.documentStart :: ts') := by
  cases fuel with
  | zero => rfl
  | succ fuel =>
      rw [readFrom, readFrom, ← trim, h, if_pos rfl]
      simp only [document?_documentStart first]

/-- Tokens that are read to their end have no fault and close their flow collections. -/
theorem passed_of_readFrom {fuel : Nat} {first : Bool} {ts : List Token} {vs : List Value}
    (h : readFrom fuel first ts = ⟨vs, true⟩) : Passed 0 ts [] := by
  induction fuel generalizing first ts vs with
  | zero => cases h
  | succ fuel ih =>
      have hpassed := passed_trim first ts
      rcases readFrom_eq.mp h with
        ⟨htrim, -⟩ | ⟨node, rest, v, more, hdocument, -, hmore, -⟩
      · rwa [htrim] at hpassed
      · exact hpassed.trans ((carriesOn_document? [] first _ _ _ hdocument).2.trans (ih hmore))

/-- The documents of tokens that go on with a document, which is read as if it stood
alone. -/
theorem readFrom_append {fuel fuel' k : Nat} (hk : fuel' ≤ k + 1) {first : Bool}
    {ts : List Token} {vs vs' : List Value} (h : readFrom fuel first ts = ⟨vs, true⟩)
    (h' : readFrom fuel' true (.documentStart :: document) = ⟨vs', true⟩) :
    readFrom (fuel + k) first (ts ++ .documentStart :: document) = ⟨vs ++ vs', true⟩ := by
  induction fuel generalizing first ts vs with
  | zero => cases h
  | succ fuel ih =>
      have htrim := trim_append document first ts
      rcases readFrom_eq.mp h with
        ⟨hnil, rfl⟩ | ⟨node, rest, v, more, hdocument, hvalue, hmore, rfl⟩
      · rw [hnil, List.nil_append] at htrim
        rw [readFrom_of_trim htrim, List.nil_append]
        exact readFrom_of_le (by omega) h'
      · have hdocument' := (carriesOn_document? document first _ _ _ hdocument).1
        rw [← htrim] at hdocument'
        rw [Nat.add_right_comm]
        exact readFrom_eq.mpr
          (.inr ⟨node, _, v, more ++ vs', hdocument', hvalue, ih hmore, rfl⟩)

/-! ## Texts -/

theorem passed_of_ofChars {cs : List Char} {vs : List Value} (h : ofChars cs = ⟨vs, true⟩) :
    .fault ∉ Token.scan cs ∧ flowDepth 0 (Token.scan cs) = 0 := by
  obtain ⟨used, hused, hfault, hdepth⟩ := passed_of_readFrom h
  rw [List.append_nil] at hused
  rw [hused]
  exact ⟨hfault, Nat.le_zero.mp (hdepth 0)⟩

/-- The documents of two texts, one behind the other. -/
theorem ofChars_append {a b : List Char} {vs vs' : List Value}
    (hb : Text.startsDocument b = true) (hline : Text.isLined a = true)
    (ha : ofChars a = ⟨vs, true⟩) (hb' : ofChars b = ⟨vs', true⟩) :
    ofChars (a ++ b) = ⟨vs ++ vs', true⟩ := by
  obtain ⟨hfault, hdepth⟩ := passed_of_ofChars ha
  obtain ⟨hfault', -⟩ := passed_of_ofChars hb'
  obtain ⟨document, hdocument⟩ := List.head?_eq_some_iff.mp (Token.head?_scan hb hfault')
  have hscan := Token.scan_append hb hline hfault hdepth hfault'
  rw [hdocument] at hscan
  unfold ofChars at ha hb' ⊢
  simp only at ha hb' ⊢
  rw [hdocument] at hb'
  rw [hscan, List.length_append, Nat.add_right_comm]
  exact readFrom_append (Nat.le_refl _) ha hb'

/-- A text that begins with the mark of a document, ends with a line end and is read as
these values. -/
structure Section (cs : List Char) (vs : List Value) : Prop where
  starts : Text.startsDocument cs = true
  lined : Text.isLined cs = true
  read : ofChars cs = ⟨vs, true⟩

/-- Sections behind a text that ends with a line end are read one after the other. -/
theorem ofChars_sections {α : Type} {chars : α → List Char} {values : α → List Value}
    {xs : List α} (hxs : ∀ x ∈ xs, Section (chars x) (values x)) {a : List Char}
    {vs : List Value} (hline : Text.isLined a = true) (ha : ofChars a = ⟨vs, true⟩) :
    ofChars (a ++ xs.flatMap chars) = ⟨vs ++ xs.flatMap values, true⟩ := by
  induction xs generalizing a vs with
  | nil =>
      rw [List.flatMap_nil, List.append_nil, List.flatMap_nil, List.append_nil]
      exact ha
  | cons x rest ih =>
      have hx := hxs x List.mem_cons_self
      have hrest := ih (fun x hx => hxs x (List.mem_cons_of_mem _ hx))
        (Text.isLined_append hline hx.lined) (ofChars_append hx.starts hline ha hx.read)
      rwa [List.append_assoc, List.append_assoc] at hrest

end Stream

end SimAnnotate.Yaml
