/-
The normalized text of a floating-point number, made one step at a time with the arithmetic of the format, where
`Binary.normalized` reads it off the pattern. The magnitude is halved or doubled until it lies in the interval from one
half (excluded) to one (included), which counts the exponent, and then gives one binary digit after the other.
-/
import ApiShape.Numeric.Binary

namespace ApiShape

namespace Binary

variable {fmt : BinaryFormat}

/-! ## Arithmetic -/

/-- The number one. -/
def one : Binary fmt := ofCode false (roundRatio fmt 1 1)

/-- One half. -/
def half : Binary fmt := ofCode false (roundRatio fmt 1 2)

/-- The position among all numbers. The zeros share one. -/
def place (x : Binary fmt) : Int := if x.negative then -x.code else x.code

/-- Order of the numbers denoted. NaN is neither below nor above anything. -/
def lt (x y : Binary fmt) : Bool := !x.isNaN && !y.isNaN && x.place < y.place

/-- Below or equal. The zeros are equal, and NaN is not even equal to itself. -/
def le (x y : Binary fmt) : Bool := !x.isNaN && !y.isNaN && x.place ≤ y.place

/-- The number with the other sign. -/
def neg (x : Binary fmt) : Binary fmt := ofCode (!x.negative) x.code

/-- The magnitude of a finite number is `numerator / denominator`. -/
def numerator (x : Binary fmt) : Nat := x.significand * powNum 2 x.exponent

/-- A power of two, which is one unless the exponent is negative. -/
def denominator (x : Binary fmt) : Nat := powDen 2 x.exponent

/-- Half the number, rounded. -/
def halve (x : Binary fmt) : Binary fmt :=
  if x.isFinite then ofCode x.negative (roundRatio fmt x.numerator (2 * x.denominator)) else x

/-- Twice the number, rounded. -/
def twice (x : Binary fmt) : Binary fmt :=
  if x.isFinite then ofCode x.negative (roundRatio fmt (2 * x.numerator) x.denominator) else x

/-- The number less one, rounded. A difference of zero is positive. -/
def lessOne (x : Binary fmt) : Binary fmt :=
  if x.isFinite then
    let signed : Int := if x.negative then -(x.numerator : Int) else x.numerator
    let difference := signed - x.denominator
    ofCode (difference < 0) (roundRatio fmt difference.natAbs x.denominator)
  else x

/-! ## Loops -/

/-- Where the text of a number stands: in one of the three loops, or at the end. -/
inductive Scaling (fmt : BinaryFormat) where
  | down (sign : String) (x : Binary fmt) (exponent : Int)
  | up (sign : String) (x : Binary fmt) (exponent : Int)
  | digits (x : Binary fmt) (text : String)
  | done (text : String)

namespace Scaling

/-- What comes before the loops: the texts that need none, and the sign. -/
def start (x : Binary fmt) : Scaling fmt :=
  if x.isNaN then .done "NaN"
  else if x.isInfinite then .done (if zero.lt x then "Infinity" else "-Infinity")
  else if x.same zero then .done "+0:"
  else if x.lt zero then .down "-" x.neg 0
  else .down "+" x 0

/-- One round of the loop at hand, or the way on when its condition fails. A number above one is halved and the exponent
counted up, one of at most a half is doubled and the exponent counted down. Then the unit of the number is written and
what is left of it doubled, until nothing is left. -/
def step : Scaling fmt → Scaling fmt
  | .down sign x exponent => if one.lt x then .down sign x.halve (exponent + 1) else .up sign x exponent
  | .up sign x exponent =>
    if x.le half then .up sign x.twice (exponent - 1) else .digits x (sign ++ toString exponent ++ ":")
  | .digits x text =>
    if x.same zero then .done text
    else if one.le x then .digits x.lessOne.twice (text.push '1')
    else .digits x.twice (text.push '0')
  | .done text => .done text

end Scaling

end Binary

end ApiShape
