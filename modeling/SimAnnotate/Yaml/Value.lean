import SimAnnotate.Binary64.Shortest

/-!
# YAML values

The values that a YAML document holds. A mapping keeps its entries in order;
that its keys are pairwise different is a matter of how it was built and no
part of the type.

`Value.same` is equality of content: the order of a mapping's entries does not
count, and numbers compare by value. It decides whether a key is already taken.
-/

namespace SimAnnotate.Yaml

/-- A whole number or a binary64 number; the two are never equal. -/
inductive Number where
  | int (n : Int)
  | float (x : Binary64)
deriving DecidableEq

inductive Value where
  | null
  | bool (b : Bool)
  | number (n : Number)
  | string (s : String)
  | sequence (items : List Value)
  | mapping (entries : List (Value × Value))
  | tagged (tag : String) (value : Value)
deriving Inhabited

/-- Numbers are written without an exponent while the point stands at most four
zeros before the digits or sixteen places after their start. -/
def floatText : FloatText :=
  ⟨fun point => decide (-5 < point ∧ point ≤ 16), ".inf", ".nan"⟩

namespace Number

def text : Number → String
  | .int n => toString n
  | .float x => floatText.write x

/-- Equality of value. -/
def same : Number → Number → Bool
  | .int a, .int b => a == b
  | .float x, .float y => x.same y
  | _, _ => false

end Number

namespace Value

def ofNat (n : Nat) : Value := .number (.int n)

/-- The value below a tag. -/
def untag : Value → Value
  | .tagged _ v => v.untag
  | v => v

/-- The text of a string, also of a tagged one. -/
def string? (v : Value) : Option String :=
  match v.untag with
  | .string s => some s
  | _ => none

/-- A tag's name without one mark in front; a name that is only a mark keeps
it. -/
def dropMark (name : String) : String :=
  match name.toList with
  | '!' :: c :: rest => String.ofList (c :: rest)
  | _ => name

/-- Whether the value is null, also with tags. -/
def isNull (v : Value) : Bool :=
  match v.untag with
  | .null => true
  | _ => false

mutual

/-- Whether a tag occurs in the value. -/
def hasTag : Value → Bool
  | .sequence xs => anyHasTag xs
  | .mapping es => anyEntryHasTag es
  | .tagged _ _ => true
  | _ => false

def anyHasTag : List Value → Bool
  | [] => false
  | v :: rest => v.hasTag || anyHasTag rest

def anyEntryHasTag : List (Value × Value) → Bool
  | [] => false
  | (k, v) :: rest => k.hasTag || v.hasTag || anyEntryHasTag rest

end

mutual

/-- The value with one mark less in front of every tag's name. -/
def dropMarks : Value → Value
  | .sequence xs => .sequence (dropItemMarks xs)
  | .mapping es => .mapping (dropEntryMarks es)
  | .tagged t v => .tagged (dropMark t) v.dropMarks
  | v => v

def dropItemMarks : List Value → List Value
  | [] => []
  | v :: rest => v.dropMarks :: dropItemMarks rest

def dropEntryMarks : List (Value × Value) → List (Value × Value)
  | [] => []
  | (k, v) :: rest => (k.dropMarks, v.dropMarks) :: dropEntryMarks rest

end

mutual

/-- Equality of content. -/
def same : Value → Value → Bool
  | .null, .null => true
  | .bool a, .bool b => a == b
  | .number a, .number b => a.same b
  | .string a, .string b => a == b
  | .sequence xs, .sequence ys => allSame xs ys
  | .mapping es, .mapping fs => es.length == fs.length && covers es fs
  | .tagged t v, .tagged u w => t == u && v.same w
  | _, _ => false

def allSame : List Value → List Value → Bool
  | [], [] => true
  | x :: xs, y :: ys => x.same y && allSame xs ys
  | _, _ => false

/-- Whether each entry of the first list stands somewhere in the second. -/
def covers : List (Value × Value) → List (Value × Value) → Bool
  | [], _ => true
  | (k, v) :: rest, fs =>
      fs.any (fun f => k.same f.1 && v.same f.2) && covers rest fs

end

mutual

/-- Whether a mapping in the value has two entries with the same key. -/
def repeatsKey : Value → Bool
  | .sequence xs => anyRepeatsKey xs
  | .mapping es => entriesRepeatKey es
  | .tagged _ v => v.repeatsKey
  | _ => false

def anyRepeatsKey : List Value → Bool
  | [] => false
  | v :: rest => v.repeatsKey || anyRepeatsKey rest

def entriesRepeatKey : List (Value × Value) → Bool
  | [] => false
  | (k, v) :: rest =>
      rest.any (·.1.same k) || k.repeatsKey || v.repeatsKey
        || entriesRepeatKey rest

end

mutual

/-- Equality of values is decidable. -/
def decEq : (a b : Value) → Decidable (a = b)
  | .null, .null => isTrue rfl
  | .bool a, .bool b =>
      if h : a = b then isTrue (h ▸ rfl)
      else isFalse fun e => h (Value.bool.inj e)
  | .number a, .number b =>
      if h : a = b then isTrue (h ▸ rfl)
      else isFalse fun e => h (Value.number.inj e)
  | .string a, .string b =>
      if h : a = b then isTrue (h ▸ rfl)
      else isFalse fun e => h (Value.string.inj e)
  | .sequence xs, .sequence ys =>
      match decEqItems xs ys with
      | isTrue h => isTrue (h ▸ rfl)
      | isFalse h => isFalse fun e => h (Value.sequence.inj e)
  | .mapping es, .mapping fs =>
      match decEqEntries es fs with
      | isTrue h => isTrue (h ▸ rfl)
      | isFalse h => isFalse fun e => h (Value.mapping.inj e)
  | .tagged t v, .tagged u w =>
      if h : t = u then
        match decEq v w with
        | isTrue h' => isTrue (h ▸ h' ▸ rfl)
        | isFalse h' => isFalse fun e => h' (Value.tagged.inj e).2
      else isFalse fun e => h (Value.tagged.inj e).1
  | .null, .bool _ | .null, .number _ | .null, .string _ | .null, .sequence _
  | .null, .mapping _ | .null, .tagged _ _
  | .bool _, .null | .bool _, .number _ | .bool _, .string _
  | .bool _, .sequence _ | .bool _, .mapping _ | .bool _, .tagged _ _
  | .number _, .null | .number _, .bool _ | .number _, .string _
  | .number _, .sequence _ | .number _, .mapping _ | .number _, .tagged _ _
  | .string _, .null | .string _, .bool _ | .string _, .number _
  | .string _, .sequence _ | .string _, .mapping _ | .string _, .tagged _ _
  | .sequence _, .null | .sequence _, .bool _ | .sequence _, .number _
  | .sequence _, .string _ | .sequence _, .mapping _ | .sequence _, .tagged _ _
  | .mapping _, .null | .mapping _, .bool _ | .mapping _, .number _
  | .mapping _, .string _ | .mapping _, .sequence _ | .mapping _, .tagged _ _
  | .tagged _ _, .null | .tagged _ _, .bool _ | .tagged _ _, .number _
  | .tagged _ _, .string _ | .tagged _ _, .sequence _
  | .tagged _ _, .mapping _ => isFalse nofun

def decEqItems : (xs ys : List Value) → Decidable (xs = ys)
  | [], [] => isTrue rfl
  | [], _ :: _ => isFalse nofun
  | _ :: _, [] => isFalse nofun
  | x :: xs, y :: ys =>
      match decEq x y, decEqItems xs ys with
      | isTrue h, isTrue h' => isTrue (h ▸ h' ▸ rfl)
      | isFalse h, _ => isFalse fun e => h (List.cons.inj e).1
      | _, isFalse h => isFalse fun e => h (List.cons.inj e).2

def decEqEntries : (es fs : List (Value × Value)) → Decidable (es = fs)
  | [], [] => isTrue rfl
  | [], _ :: _ => isFalse nofun
  | _ :: _, [] => isFalse nofun
  | (k, v) :: es, (l, w) :: fs =>
      match decEq k l, decEq v w, decEqEntries es fs with
      | isTrue h, isTrue h', isTrue h'' => isTrue (h ▸ h' ▸ h'' ▸ rfl)
      | isFalse h, _, _ =>
          isFalse fun e => h (Prod.mk.inj (List.cons.inj e).1).1
      | _, isFalse h, _ =>
          isFalse fun e => h (Prod.mk.inj (List.cons.inj e).1).2
      | _, _, isFalse h => isFalse fun e => h (List.cons.inj e).2

end

instance : DecidableEq Value := decEq

end Value

end SimAnnotate.Yaml
