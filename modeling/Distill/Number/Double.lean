/-!
# Finite numbers of the 64-bit binary format

A `Double` is `± mant · 2 ^ shift` in units of `2 ^ (-1074)`, the least positive
number of the format. All arithmetic is exact arithmetic of naturals followed by
one rounding, to the nearest number and to the even mantissa on a tie.

## Main definitions

* `Double.ofRatio neg num den` — the double nearest to `± num / den`, or nothing
  beyond the range of the format.
* `Double.key` — the value in units of `2 ^ (-1074)`, as an integer: the order and
  the equality of doubles are those of their keys.
* `Binary64` — a double, an infinity or not a number.
-/

namespace Distill

/-- A finite number of the 64-bit binary format, `± mant · 2 ^ shift` in units of
`2 ^ (-1074)`. The numbers built here have `mant < 2 ^ 53`, and `2 ^ 52 ≤ mant`
unless `shift = 0`, so that each value has one form for each sign. -/
structure Double where
  /-- The sign, which zero has too. -/
  neg : Bool
  mant : Nat
  shift : Nat
  deriving DecidableEq, Repr, Inhabited

namespace Double

/-- Zero with the given sign. -/
def zero (neg : Bool) : Double := ⟨neg, 0, 0⟩

/-- The size in units of `2 ^ (-1074)`. -/
def magnitude (x : Double) : Nat := x.mant * Nat.pow 2 x.shift

/-- The value in units of `2 ^ (-1074)`. -/
def key (x : Double) : Int := if x.neg then -(x.magnitude : Int) else x.magnitude

/-- How many units make one. -/
def unitsPerOne : Nat := Nat.pow 2 1074

/-- The quotient rounded to the nearest natural, a tie to the even one. -/
def roundDiv (num den : Nat) : Nat :=
  let q := num / den
  let twice := 2 * (num % den)
  if twice > den || (twice == den && q % 2 == 1) then q + 1 else q

/-- The double nearest to `± num / den`, or nothing when that is beyond the range.
The shift is the least one that leaves at most 53 bits. -/
def ofRatio (neg : Bool) (num den : Nat) : Option Double :=
  let scaled := num * unitsPerOne
  let shift := (scaled / den).log2 + 1 - 53
  let mant := roundDiv scaled (den * Nat.pow 2 shift)
  let rounded : Double :=
    if mant = Nat.pow 2 53 then ⟨neg, Nat.pow 2 52, shift + 1⟩ else ⟨neg, mant, shift⟩
  if rounded.shift ≤ 2045 then some rounded else none

/-- The double nearest to an integer. -/
def ofInt (i : Int) : Double := (ofRatio (i < 0) i.natAbs 1).getD (zero false)

/-- The other sign. -/
def negate (x : Double) : Double := { x with neg := !x.neg }

/-- The size of a number, as a number. -/
def abs (x : Double) : Double := { x with neg := false }

/-- The rounded sum. A sum of zero is positive unless both numbers are negative. -/
def add (x y : Double) : Option Double :=
  let sum := x.key + y.key
  ofRatio (if sum = 0 then x.neg && y.neg else sum < 0) sum.natAbs unitsPerOne

/-- The rounded product. -/
def mul (x y : Double) : Option Double :=
  ofRatio (x.neg != y.neg) (x.magnitude * y.magnitude) (unitsPerOne * unitsPerOne)

/-- The rounded quotient by a number other than zero. -/
def div (x y : Double) : Option Double :=
  ofRatio (x.neg != y.neg) x.magnitude y.magnitude

/-- Whether the number is an integer. -/
def isIntegral (x : Double) : Bool := x.magnitude % unitsPerOne == 0

/-- The number with its fraction dropped. -/
def truncate (x : Double) : Int :=
  let n : Int := (x.magnitude / unitsPerOne : Nat)
  if x.neg then -n else n

/-- The order of the values; both zeros are equal. -/
def compare (x y : Double) : Ordering := Ord.compare x.key y.key

end Double

/-- A span of time as it is measured: seconds in 64 bits, and nanoseconds. -/
structure Elapsed where
  seconds : Nat
  nanoseconds : Nat
  seconds_lt : seconds < Nat.pow 2 64
  nanoseconds_lt : nanoseconds < 1000000000
  deriving Repr

namespace Elapsed

/-- No time at all. -/
def zero : Elapsed := ⟨0, 0, by decide, by decide⟩

instance : Inhabited Elapsed := ⟨zero⟩

/-- The span in seconds: both parts are rounded, and their sum. -/
def toDouble (t : Elapsed) : Double :=
  let fraction := (Double.ofInt t.nanoseconds).div (Double.ofInt 1000000000)
  ((fraction.bind (Double.ofInt t.seconds).add)).getD (Double.zero false)

end Elapsed

/-- What a decimal text may denote: a finite double, an infinity or not a number. -/
inductive Binary64 where
  | finite (x : Double)
  | infinite (neg : Bool)
  | nan
  deriving DecidableEq, Repr, Inhabited

end Distill
