import Distill.Number.Double

/-!
# Decimal digits of a double

The shortest digits that read back as a given double, and the double that decimal
digits denote.

## Main definitions

* `Double.shortest` — the fewest significant digits that read back, and among those
  the nearest to the value.
* `Double.ofDecimal` — the double nearest to a decimal.
* `Decimal.positional` — the digits written out, without an exponent.
-/

namespace Distill

/-- The number `coeff · 10 ^ exponent`. -/
structure Decimal where
  coeff : Nat
  exponent : Int
  deriving DecidableEq, Repr, Inhabited

namespace Decimal

/-- The digits of a natural in base ten. -/
def digits (n : Nat) : List Char := Nat.toDigits 10 n

/-- Move trailing zeros of the coefficient to the exponent, at most `fuel` of them. -/
def dropZeros : Nat → Decimal → Decimal
  | 0, d => d
  | fuel + 1, d =>
    if d.coeff ≠ 0 && d.coeff % 10 = 0 then dropZeros fuel ⟨d.coeff / 10, d.exponent + 1⟩ else d

/-- All digits up to the unit, and those after the point if there are any. -/
def positional (d : Decimal) : List Char :=
  let ds := digits d.coeff
  if 0 ≤ d.exponent then
    if d.coeff = 0 then ['0'] else ds ++ List.replicate d.exponent.toNat '0'
  else
    let places := (-d.exponent).toNat
    if places < ds.length then
      ds.take (ds.length - places) ++ '.' :: ds.drop (ds.length - places)
    else
      '0' :: '.' :: (List.replicate (places - ds.length) '0' ++ ds)

end Decimal

namespace Double

/-- How many digits the integral part of a positive number has; for a number below
one, zero less the zeros after the point. -/
def pointPosition (x : Double) : Int :=
  ((Decimal.digits (x.magnitude * Nat.pow 10 340 / unitsPerOne)).length : Int) - 340

/-- The neighbours of the value on the grid of multiples of `10 ^ e`, if one of them
reads back as `x`: then the nearer one that does, the even one on a tie. The numbers
that read back are those within half a step of `x` on its own scale, ends included
when the mantissa is even. -/
def onGrid (x : Double) (e : Int) : Option Decimal :=
  let up := Nat.pow 10 (-e).toNat
  let unit := unitsPerOne * Nat.pow 10 e.toNat
  let value := x.magnitude * up
  let step := Nat.pow 2 x.shift * up
  let below := if x.mant = Nat.pow 2 52 && x.shift ≠ 0 then 1 else 2
  let low := 4 * value - below * step
  let high := 4 * value + 2 * step
  let readsBack (c : Nat) : Bool :=
    if x.mant % 2 = 0 then low ≤ 4 * c * unit && 4 * c * unit ≤ high
    else low < 4 * c * unit && 4 * c * unit < high
  let c := value / unit
  let toLower := value - c * unit
  let toUpper := (c + 1) * unit - value
  match readsBack c, readsBack (c + 1) with
  | true, true =>
    some ⟨if toLower < toUpper || (toLower == toUpper && c % 2 == 0) then c else c + 1, e⟩
  | true, false => some ⟨c, e⟩
  | false, true => some ⟨c + 1, e⟩
  | false, false => none

/-- The first grid of `n`, `n + 1`, … significant digits, at most `fuel` of them, with
a point that reads back. -/
def shortestFrom (x : Double) (position : Int) : Nat → Nat → Option Decimal
  | 0, _ => none
  | fuel + 1, n => (x.onGrid (position - n)).or (shortestFrom x position fuel (n + 1))

/-- The fewest significant digits that read back as the size of `x`; of several, the
nearest. Seventeen digits always suffice. -/
def shortest (x : Double) : Decimal :=
  if x.mant = 0 then ⟨0, 0⟩
  else ((shortestFrom x x.pointPosition 17 1).getD ⟨0, 0⟩).dropZeros 20

/-- The double nearest to `± d`, or nothing beyond the range. Exponents far outside
the range are settled without writing the power out. -/
def ofDecimal (neg : Bool) (d : Decimal) : Option Double :=
  if d.coeff = 0 then some (zero neg)
  else
    let position := ((Decimal.digits d.coeff).length : Int) + d.exponent
    if position < -400 then some (zero neg)
    else if 400 < position then none
    else ofRatio neg (d.coeff * Nat.pow 10 d.exponent.toNat)
      (Nat.pow 10 (-d.exponent).toNat)

/-- Plain decimal notation: the shortest digits, no exponent, no point in an
integer. -/
def plainText (x : Double) : String :=
  let size := String.ofList x.shortest.positional
  if x.neg then "-" ++ size else size

/-- The shortest digits, always with a point or an exponent: positional for decimal
exponents from `-5` to `15`. The sign of a positive exponent is given. -/
def shortText (plus : String) (x : Double) : String :=
  let d := x.shortest
  let ds := Decimal.digits d.coeff
  let exponent : Int := (ds.length : Int) - 1 + d.exponent
  let size :=
    if d.coeff = 0 then "0.0"
    else if -5 ≤ exponent ∧ exponent ≤ 15 then
      String.ofList d.positional ++ (if 0 ≤ d.exponent then ".0" else "")
    else
      let mantissa := match ds with
        | c :: c' :: rest => c :: '.' :: c' :: rest
        | ds => ds
      String.ofList mantissa ++ (if 0 ≤ exponent then "e" ++ plus else "e") ++ toString exponent
  if x.neg then "-" ++ size else size

end Double

namespace Binary64

/-- What decimal digits denote: an infinity beyond the range. -/
def ofDecimal (neg : Bool) (d : Decimal) : Binary64 :=
  match Double.ofDecimal neg d with
  | some x => .finite x
  | none => .infinite neg

/-- Plain decimal notation. -/
def plainText : Binary64 → String
  | .finite x => x.plainText
  | .infinite neg => if neg then "-inf" else "inf"
  | .nan => "NaN"

end Binary64

/-- The value of a run of decimal digits. -/
def digitsValue (ds : List Char) : Nat :=
  ds.foldl (fun n c => 10 * n + (c.toNat - '0'.toNat)) 0

end Distill
