import SimAnnotate.Binary64

/-!
# The shortest decimal of a binary64 number

The numbers that round to `m * 2 ^ q` form an interval, with its ends when `m`
is even. `Binary64.shortest` looks for a point of that interval on the decimal
grids of one digit, two digits and so on; the first grid with a point decides
how many digits there are, and the point nearest to the number which digits
they are.

`FloatText` holds what one printed form of numbers decides beyond that.
-/

namespace SimAnnotate

/-- Decimal digits with the position of the point, counted from before the
first digit: `0.d₁d₂… * 10 ^ point`. -/
structure Decimal where
  digits : Nat
  point : Int
deriving DecidableEq

namespace Binary64

/-- The number, and the ends of the interval that rounds to it, each a
numerator over `den`. -/
structure Interval where
  low : Nat
  value : Nat
  high : Nat
  den : Nat
  closed : Bool

/-- The interval of `m * 2 ^ q`. Just above a power of two the numbers lie
twice as close below as above. -/
def interval (m : Nat) (q : Int) : Interval :=
  let below := if m = exponentUnit ∧ -1074 < q then 1 else 2
  let f := scale 2 1 1 (q - 2)
  ⟨(4 * m - below) * f.1, 4 * m * f.1, (4 * m + 2) * f.1, f.2, m % 2 = 0⟩

/-- Whether `num / den` lies in the interval. -/
def Interval.holds (i : Interval) (num den : Nat) : Bool :=
  let x := num * i.den
  if i.closed then i.low * den ≤ x && x ≤ i.high * den
  else i.low * den < x && x < i.high * den

/-- The exponent `p` with `10 ^ (p - 1) ≤ value < 10 ^ p`. The estimate from
the binary logarithm is at most one off. -/
def Interval.pointPosition (i : Interval) : Int :=
  let l : Int := Int.ofNat i.value.log2 - Int.ofNat i.den.log2
  let est := ((l - 1) * 30103).fdiv 100000
  let reaches (k : Int) : Bool :=
    let f := scale 10 1 1 k
    f.1 * i.den ≤ i.value * f.2
  if reaches (est + 1) then est + 2 else if reaches est then est + 1 else est

/-- The point of the grid of `n` digits that lies in the interval and nearest
to its number; a tie goes to the even one. -/
def Interval.onGrid? (i : Interval) (p : Int) (n : Nat) : Option Nat :=
  let g := scale 10 1 1 (p - Int.ofNat n)
  let num := i.value * g.2
  let den := i.den * g.1
  let a := num / den
  let below := i.holds (a * g.1) g.2
  let above := i.holds ((a + 1) * g.1) g.2
  if below && above then some (roundHalfEven num den)
  else if below then some a
  else if above then some (a + 1)
  else none

/-- The first grid, from `n` digits on, that has a point in the interval. -/
def Interval.shortestFrom (i : Interval) (p : Int) : Nat → Nat → Decimal
  | 0, n => ⟨i.value * Nat.pow 10 n / i.den, p⟩
  | more + 1, n =>
      match i.onGrid? p n with
      | some d =>
          if d = Nat.pow 10 n then ⟨1, p + 1⟩ else ⟨d, p⟩
      | none => i.shortestFrom p more (n + 1)

/-- The shortest decimal that rounds to a finite number other than zero, its
sign left out. Seventeen digits always suffice. -/
def shortest (x : Binary64) : Decimal :=
  let (m, q) := x.magnitude
  let i := interval m q
  i.shortestFrom i.pointPosition 17 1

end Binary64

/-- What a printed form of numbers decides: for which positions of the point it
writes no exponent, and how it writes what is not finite. -/
structure FloatText where
  positional : Int → Bool
  infinity : String
  notANumber : String

namespace FloatText

def zeros (n : Nat) : List Char := List.replicate n '0'

/-- Digits with a point somewhere in or around them, and at least one digit on
either side of it. -/
def positionalDigits (ds : List Char) (point : Int) : List Char :=
  if point ≤ 0 then '0' :: '.' :: zeros point.natAbs ++ ds
  else
    let k := point.toNat
    if ds.length ≤ k then ds ++ zeros (k - ds.length) ++ ['.', '0']
    else ds.take k ++ '.' :: ds.drop k

/-- One digit before the point, no point when it is the only one. -/
def exponentDigits (ds : List Char) (point : Int) : List Char :=
  let e := point - 1
  let exponent := (if e < 0 then ['-'] else []) ++ Nat.toDigits 10 e.natAbs
  match ds with
  | [d] => d :: 'e' :: exponent
  | d :: rest => d :: '.' :: rest ++ 'e' :: exponent
  | [] => exponent

/-- The text of a number in this form. -/
def write (form : FloatText) (x : Binary64) : String :=
  let sign := if x.isNegative then "-" else ""
  if x.isNaN then form.notANumber
  else if x.isInfinite then sign ++ form.infinity
  else if x.unsigned = 0 then sign ++ "0.0"
  else
    let d := x.shortest
    let ds := Nat.toDigits 10 d.digits
    sign ++ String.ofList
      (if form.positional d.point then positionalDigits ds d.point
        else exponentDigits ds d.point)

end FloatText

end SimAnnotate
