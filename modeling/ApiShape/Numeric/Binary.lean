/-
Binary floating-point numbers as bit patterns, with the number each pattern denotes, equality of
the numbers, and rounding of an exact ratio to the nearest pattern. All arithmetic is on natural
numbers and integers.
-/
import ApiShape.Numeric.Power

namespace ApiShape

/-- A layout of sign, biased exponent and fraction, from the top bit down. -/
structure BinaryFormat where
  exponentBits : Nat
  fractionBits : Nat
deriving DecidableEq

namespace BinaryFormat

/-- Single precision. -/
def single : BinaryFormat := ⟨8, 23⟩

/-- Double precision. -/
def double : BinaryFormat := ⟨11, 52⟩

variable (fmt : BinaryFormat)

/-- The bits below the sign. -/
def magnitudeBits : Nat := fmt.exponentBits + fmt.fractionBits

/-- All bits, the sign included. -/
def width : Nat := fmt.magnitudeBits + 1

/-- The magnitude code of infinity; codes above it are not numbers. -/
def infinityCode : Nat := (twoPow fmt.exponentBits - 1) * twoPow fmt.fractionBits

/-- The least positive number is `2 ^ quantum`. -/
def quantum : Int := 2 - twoPow (fmt.exponentBits - 1) - fmt.fractionBits

end BinaryFormat

/-- A floating-point number, held as its bit pattern. -/
structure Binary (fmt : BinaryFormat) where
  bits : BitVec fmt.width
deriving DecidableEq

/-- A number in single precision. -/
abbrev Binary32 := Binary .single

/-- A number in double precision. -/
abbrev Binary64 := Binary .double

namespace Binary

variable {fmt : BinaryFormat}

/-! ## Fields -/

/-- The pattern with the given sign and magnitude code. -/
def ofCode (negative : Bool) (code : Nat) : Binary fmt :=
  ⟨BitVec.ofNat _ ((if negative then twoPow fmt.magnitudeBits else 0) + code)⟩

/-- The positive zero. -/
def zero : Binary fmt := ofCode false 0

/-- Whether the sign bit is set, as it is in the negative zero. -/
def negative (x : Binary fmt) : Bool := twoPow fmt.magnitudeBits ≤ x.bits.toNat

/-- The bits below the sign, which grow with the magnitude of the number. -/
def code (x : Binary fmt) : Nat := x.bits.toNat % twoPow fmt.magnitudeBits

/-- Any code above that of infinity. -/
def isNaN (x : Binary fmt) : Bool := fmt.infinityCode < x.code

/-- Infinity of either sign. -/
def isInfinite (x : Binary fmt) : Bool := x.code = fmt.infinityCode

/-- Neither infinite nor NaN. -/
def isFinite (x : Binary fmt) : Bool := x.code < fmt.infinityCode

/-- Zero of either sign. -/
def isZero (x : Binary fmt) : Bool := x.code = 0

/-- The magnitude of a finite number is `significand * 2 ^ exponent`. -/
def significand (x : Binary fmt) : Nat :=
  if x.code < twoPow fmt.fractionBits then x.code
  else twoPow fmt.fractionBits + x.code % twoPow fmt.fractionBits

/-- Numbers below the first binade share its exponent. -/
def exponent (x : Binary fmt) : Int :=
  fmt.quantum + ((x.code / twoPow fmt.fractionBits - 1 : Nat) : Int)

/-- Equality of the numbers denoted: the two zeros are equal, and NaN differs from itself. -/
def same (x y : Binary fmt) : Bool :=
  !x.isNaN && !y.isNaN && (x.bits == y.bits || (x.isZero && y.isZero))

/-! ## Rounding -/

/-- `num / den` to the nearest natural number, a half to the even neighbour. -/
def roundHalfEven (num den : Nat) : Nat :=
  let low := num / den
  let twice := 2 * (num % den)
  if twice < den then low
  else if den < twice then low + 1
  else low + low % 2

/-- The `k` with `2 ^ k ≤ num / den < 2 ^ (k + 1)`, for positive `num` and `den`. -/
def ratioLog2 (num den : Nat) : Int :=
  let k : Int := num.log2 - den.log2
  if den * powNum 2 k ≤ num * powDen 2 k then k else k - 1

/--
The magnitude code nearest to `num / den`, a half to the even code, never above infinity. The
spacing of codes is that of the binade of the ratio; rounding up to the next binade carries into
the exponent by itself.
-/
def roundRatio (fmt : BinaryFormat) (num den : Nat) : Nat :=
  if num = 0 then 0
  else
    let q := max (ratioLog2 num den - fmt.fractionBits) fmt.quantum
    let m := roundHalfEven (num * powDen 2 q) (den * powNum 2 q)
    min ((q - fmt.quantum).toNat * twoPow fmt.fractionBits + m) fmt.infinityCode

/-- The nearest number to an integer. -/
def ofInt (i : Int) : Binary fmt := ofCode (i < 0) (roundRatio fmt i.natAbs 1)

/-- The nearest number of another format; a NaN stays one. -/
def convert (x : Binary fmt) (target : BinaryFormat) : Binary target :=
  if x.isNaN then ofCode x.negative (target.infinityCode + twoPow (target.fractionBits - 1))
  else if x.isInfinite then ofCode x.negative target.infinityCode
  else
    ofCode x.negative
      (roundRatio target (x.significand * powNum 2 x.exponent) (powDen 2 x.exponent))

end Binary

end ApiShape
