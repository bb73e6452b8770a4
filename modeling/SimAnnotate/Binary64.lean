/-!
# Binary64 numbers

A double-precision number is its 64-bit pattern: a sign, eleven exponent bits
and a fraction of fifty-two. All arithmetic on it is exact, in `Nat` and
`Int`.

* `Binary64.magnitude` reads a finite pattern as `m * 2 ^ q`.
* `Binary64.ofDecimal` is the nearest number to `d * 10 ^ t`; a tie goes to the
  even pattern, and what is too large is infinite.
-/

namespace SimAnnotate

/-- A double-precision number, by its bit pattern. -/
structure Binary64 where
  bits : UInt64
deriving DecidableEq

namespace Binary64

/-- The value of the sign bit. -/
def signUnit : Nat := Nat.pow 2 63

/-- The value of the lowest exponent bit, one more than the largest
fraction. -/
def exponentUnit : Nat := Nat.pow 2 52

/-- The pattern with this sign and the 63 low bits of `n`. -/
def ofParts (negative : Bool) (n : Nat) : Binary64 :=
  ⟨.ofNat (n + if negative then signUnit else 0)⟩

def isNegative (x : Binary64) : Bool := decide (signUnit ≤ x.bits.toNat)

/-- The pattern without its sign. -/
def unsigned (x : Binary64) : Nat := x.bits.toNat % signUnit

/-- The least unsigned pattern that is no finite number. -/
def infinityBits : Nat := 0x7ff * exponentUnit

def infinity (negative : Bool) : Binary64 := ofParts negative infinityBits

/-- The not-a-number that reading a text gives. -/
def nan : Binary64 := ofParts false (infinityBits + exponentUnit / 2)

def isNaN (x : Binary64) : Bool := decide (infinityBits < x.unsigned)

def isInfinite (x : Binary64) : Bool := decide (x.unsigned = infinityBits)

def isFinite (x : Binary64) : Bool := decide (x.unsigned < infinityBits)

/-- A finite number is `m * 2 ^ q` up to its sign, with `m < 2 ^ 53`. -/
def magnitude (x : Binary64) : Nat × Int :=
  let fraction := x.unsigned % exponentUnit
  match x.unsigned / exponentUnit with
  | 0 => (fraction, -1074)
  | e + 1 => (fraction + exponentUnit, Int.ofNat e - 1074)

/-- Numbers compare by value: all not-a-numbers are one, both zeros are
one. -/
def same (x y : Binary64) : Bool :=
  (x.isNaN && y.isNaN) || (x.unsigned = 0 && y.unsigned = 0) || x == y

/-! ## Rounding a quotient -/

/-- The fraction `num / den * base ^ e` without a negative exponent. -/
def scale (base num den : Nat) (e : Int) : Nat × Nat :=
  let f := Nat.pow base e.natAbs
  if e < 0 then (num, den * f) else (num * f, den)

/-- The nearest natural number to `num / den`, a tie to the even one. -/
def roundHalfEven (num den : Nat) : Nat :=
  let q := num / den
  let r := num % den
  if 2 * r < den then q
  else if den < 2 * r then q + 1
  else q + q % 2

/-- The number nearest to the positive fraction `num / den`. With the exponent
`q` below, the rounded `m` has at most 53 bits or is `2 ^ 53`, and in both
cases `m` added to the exponent field gives the pattern. -/
def ofFraction (negative : Bool) (num den : Nat) : Binary64 :=
  let k : Int := Int.ofNat num.log2 - Int.ofNat den.log2
  let q₀ := max (k - 53) (-1074)
  let at₀ := scale 2 num den (-q₀)
  let q := if 2 * exponentUnit * at₀.2 ≤ at₀.1 then q₀ + 1 else q₀
  let atq := scale 2 num den (-q)
  let m := roundHalfEven atq.1 atq.2
  ofParts negative (min ((q + 1074).toNat * exponentUnit + m) infinityBits)

/-- The number of decimal digits of `n`, at least one. -/
def decimalDigits (n : Nat) : Nat := (Nat.toDigits 10 n).length

/-- The number nearest to `d * 10 ^ t`. Far outside the range of the type the
power is not computed. -/
def ofDecimal (negative : Bool) (d : Nat) (t : Int) : Binary64 :=
  let magnitude := Int.ofNat (decimalDigits d) + t
  if d = 0 ∨ magnitude < -400 then ofParts negative 0
  else if 400 < magnitude then infinity negative
  else
    let f := scale 10 d 1 t
    ofFraction negative f.1 f.2

end Binary64

end SimAnnotate
