import SimAnnotate.Yaml.Value

/-!
# What an unquoted text means

`Plain.read` decides whether an unquoted text is null, a truth value, a number
or a string. Whole numbers may have a sign and one of the bases `0x`, `0o` and
`0b`; digits after a leading zero make a string. A whole number of more than 64
but at most 128 bits is `wide`: it has no value here. Larger ones, and all
decimal fractions in range, are binary64 numbers.
-/

namespace SimAnnotate.Yaml

/-- The meaning of an unquoted text. -/
inductive Plain where
  | null
  | bool (b : Bool)
  | int (n : Int)
  | wide
  | float (x : Binary64)
  | text
deriving DecidableEq

namespace Plain

def digit? (base : Nat) (c : Char) : Option Nat :=
  let d :=
    if c.isDigit then some (c.toNat - '0'.toNat)
    else if 'a' ≤ c ∧ c ≤ 'f' then some (c.toNat - 'a'.toNat + 10)
    else if 'A' ≤ c ∧ c ≤ 'F' then some (c.toNat - 'A'.toNat + 10)
    else none
  d.filter (· < base)

/-- The number that digits write, the first `n` read already. -/
def digitsFrom? (base : Nat) : Nat → List Char → Option Nat
  | n, [] => some n
  | n, c :: rest =>
      match digit? base c with
      | some d => digitsFrom? base (n * base + d) rest
      | none => none

/-- The number that one or more digits write. -/
def digits? (base : Nat) : List Char → Option Nat
  | [] => none
  | cs => digitsFrom? base 0 cs

/-- Digits after the mark of a base. -/
def based? : List Char → Option Nat
  | '0' :: 'x' :: rest => digits? 16 rest
  | '0' :: 'o' :: rest => digits? 8 rest
  | '0' :: 'b' :: rest => digits? 2 rest
  | _ => none

def isSign (c : Char) : Bool := c = '+' || c = '-'

/-- The text without one leading sign. -/
def dropSign : List Char → List Char
  | c :: rest => if isSign c then rest else c :: rest
  | [] => []

/-- The text without one leading plus. -/
def dropPlus : List Char → List Char
  | '+' :: rest => rest
  | cs => cs

/-- Two or more digits, the first of them zero, after at most one sign. -/
def isPaddedDigits (cs : List Char) : Bool :=
  match dropSign cs with
  | '0' :: c :: rest => (c :: rest).all Char.isDigit
  | _ => false

/-- A whole number without a minus. -/
def unsigned? (cs : List Char) : Option Nat :=
  let digits := dropPlus cs
  (based? digits).orElse fun _ =>
    if isPaddedDigits cs then none else digits? 10 digits

/-- The digits of a whole number after its minus. -/
def negated? : List Char → Option Nat
  | '-' :: rest =>
      (based? rest).orElse fun _ =>
        if isPaddedDigits rest then none else digits? 10 rest
  | _ => none

/-- The whole number that the text writes, as far as it has at most 128
bits. -/
def int? (cs : List Char) : Option Plain :=
  match unsigned? cs with
  | some n =>
      if n < Nat.pow 2 64 then some (.int n)
      else if n < Nat.pow 2 128 then some .wide
      else none
  | none =>
      match negated? cs with
      | some n =>
          if n ≤ Nat.pow 2 63 then some (.int (-n))
          else if n ≤ Nat.pow 2 127 then some .wide
          else none
      | none => none

/-! ## Decimal fractions -/

/-- An exponent, absent or `e` with a sign and digits. -/
def exponent? : List Char → Option Int
  | [] => some 0
  | c :: rest =>
      if c = 'e' ∨ c = 'E' then
        match rest with
        | '-' :: ds => (digits? 10 ds).map fun n => -Int.ofNat n
        | '+' :: ds => (digits? 10 ds).map Int.ofNat
        | ds => (digits? 10 ds).map Int.ofNat
      else none

/-- Digits with at most one point among or around them and an exponent: the
digits as one number and the power of ten that belongs to it. -/
def decimal? (cs : List Char) : Option (Nat × Int) :=
  let whole := cs.takeWhile Char.isDigit
  let (places, rest) :=
    match cs.dropWhile Char.isDigit with
    | '.' :: r => (r.takeWhile Char.isDigit, r.dropWhile Char.isDigit)
    | r => ([], r)
  match digits? 10 (whole ++ places), exponent? rest with
  | some d, some e => some (d, e - Int.ofNat places.length)
  | _, _ => none

/-- The finite number nearest to a decimal fraction, if there is one. -/
def fraction? (cs : List Char) : Option Binary64 :=
  let (negative, body) :=
    match cs with
    | '-' :: rest => (true, rest)
    | _ => (false, cs)
  match decimal? body with
  | some (d, e) =>
      let x := Binary64.ofDecimal negative d e
      if x.isFinite then some x else none
  | none => none

/-- The number that a decimal fraction or the name of a special number
writes. -/
def float? (s : String) : Option Binary64 :=
  let cs := s.toList
  let body := dropPlus cs
  if cs.head? = some '+' ∧ (body.head?.map isSign).getD false then none
  else if body ∈ [".inf", ".Inf", ".INF"].map String.toList then
    some (Binary64.infinity false)
  else if s ∈ ["-.inf", "-.Inf", "-.INF"] then some (Binary64.infinity true)
  else if s ∈ [".nan", ".NaN", ".NAN"] then some Binary64.nan
  else fraction? body

def isNull (s : String) : Bool := s ∈ ["null", "Null", "NULL", "~"]

def bool? (s : String) : Option Bool :=
  if s ∈ ["true", "True", "TRUE"] then some true
  else if s ∈ ["false", "False", "FALSE"] then some false
  else none

/-- What an unquoted text means. -/
def read (s : String) : Plain :=
  if s = "" ∨ isNull s then .null
  else match bool? s with
  | some b => .bool b
  | none =>
      match int? s.toList with
      | some p => p
      | none =>
          if isPaddedDigits s.toList then .text
          else match float? s with
          | some x => .float x
          | none => .text

end Plain

end SimAnnotate.Yaml
