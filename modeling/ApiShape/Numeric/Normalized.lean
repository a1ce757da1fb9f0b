/-
The normalized text of a floating-point number: a sign, the exponent that scales the magnitude
into the interval from one half (excluded) to one (included), and the binary digits of the scaled
magnitude up to its last one. Equal numbers have equal texts whatever their bit patterns.
-/
import ApiShape.Numeric.Binary

namespace ApiShape

/-- The least `k` with `m ≤ 2 ^ k`, for positive `m`. -/
def ceilLog2 (m : Nat) : Nat := if twoPow m.log2 = m then m.log2 else m.log2 + 1

/--
The binary digits of `n / 2 ^ k`, for `n < 2 ^ (k + 1)`: the unit, then the places after the
point, stopping after the last one.
-/
def fractionDigits : Nat → Nat → List Bool
  | 0, n => if n = 0 then [] else [true]
  | k + 1, n =>
    if n = 0 then []
    else decide (twoPow (k + 1) ≤ n) :: fractionDigits k (n % twoPow (k + 1))

namespace Binary

variable {fmt : BinaryFormat}

/-- The exponent that scales the magnitude of a finite nonzero number into `(1/2, 1]`. -/
def scale (x : Binary fmt) : Int := x.exponent + ceilLog2 x.significand

/-- The binary digits of the scaled magnitude. -/
def scaledDigits (x : Binary fmt) : List Bool :=
  fractionDigits (ceilLog2 x.significand) x.significand

/-- The normalized text. The zeros share one, and so do all patterns of NaN. -/
def normalized (x : Binary fmt) : String :=
  if x.isNaN then "NaN"
  else if x.isInfinite then if x.negative then "-Infinity" else "Infinity"
  else if x.isZero then "+0:"
  else
    (if x.negative then "-" else "+") ++ toString x.scale ++ ":" ++
      String.ofList (x.scaledDigits.map (fun one => if one then '1' else '0'))

end Binary

end ApiShape
