/-
Exact decimal numbers as they are written, the nearest floating-point number to one, and the
shortest decimal that reads back as a given floating-point number.
-/
import ApiShape.Numeric.Binary

namespace ApiShape

/--
A decimal with the way it is written: `coefficient` with its last `scale` digits after the point,
times ten to the `exponent`.
-/
structure Decimal where
  negative : Bool
  coefficient : Nat
  scale : Nat
  exponent : Int
deriving DecidableEq

/-- The number of decimal digits of a positive number. -/
def digitCount (n : Nat) : Nat := (Nat.toDigits 10 n).length

/-! ## Reading -/

/-- The magnitude code nearest to `c * 10 ^ p`. -/
def Binary.roundScaled (fmt : BinaryFormat) (c : Nat) (p : Int) : Nat :=
  Binary.roundRatio fmt (c * powNum 10 p) (powDen 10 p)

/--
The magnitude code nearest to `c * 10 ^ p`. Numbers beyond the largest power of two or below half
the least number are settled by their digit count, so that no huge power of ten is computed.
-/
def Binary.roundDecimal (fmt : BinaryFormat) (c : Nat) (p : Int) : Nat :=
  let top := p + digitCount c
  if c = 0 then 0
  else if twoPow (fmt.exponentBits - 1) < top then fmt.infinityCode
  else if top < fmt.quantum then 0
  else Binary.roundScaled fmt c p

namespace Decimal

/-- The nearest floating-point number, unless the decimal lies beyond the finite ones. -/
def toBinary? (fmt : BinaryFormat) (d : Decimal) : Option (Binary fmt) :=
  let code := Binary.roundDecimal fmt d.coefficient (d.exponent - d.scale)
  if code < fmt.infinityCode then some (Binary.ofCode d.negative code) else none

end Decimal

/-! ## The shortest digits -/

/-- The `k` with `10 ^ (k - 1) ≤ num / den < 10 ^ k`, for positive `num` and `den`. -/
def ratioMagnitude (num den : Nat) : Int :=
  if den ≤ num then digitCount (num / den)
  else
    let ceiling := (den - 1) / num
    if ceiling = 0 then 1 else 1 - (digitCount ceiling : Int)

/-- The smaller of two distances, and the even one of two that are equal. -/
def nearer (num den low : Nat) : Nat :=
  let twice := 2 * num
  let middle := (2 * low + 1) * den
  if twice < middle then low
  else if middle < twice then low + 1
  else low + low % 2

/--
The multiple of `10 ^ p` nearest to `num / den`, of the two around it, that reads back as the
given magnitude code.
-/
def onGrid? (fmt : BinaryFormat) (code num den : Nat) (p : Int) : Option Nat :=
  let n := num * powDen 10 p
  let d := den * powNum 10 p
  let low := n / d
  let below := Binary.roundDecimal fmt low p = code
  let above := Binary.roundDecimal fmt (low + 1) p = code
  if below && above then some (nearer n d low)
  else if below then some low
  else if above then some (low + 1)
  else none

/-- Drops the zeros at the end of `c * 10 ^ p`, at most `count` of them. -/
def dropZeros : (count : Nat) → (c : Nat) → (p : Int) → Nat × Int
  | 0, c, p => (c, p)
  | count + 1, c, p => if c % 10 = 0 then dropZeros count (c / 10) (p + 1) else (c, p)

/-- Tries grids of one digit more at a time, `count` of them, and finally the exact value. -/
def searchGrids (fmt : BinaryFormat) (code num den : Nat) (exact : Nat × Int) :
    (count : Nat) → (p : Int) → Nat × Int
  | 0, _ => exact
  | count + 1, p =>
    match onGrid? fmt code num den p with
    | some c => (c, p)
    | none => searchGrids fmt code num den exact count (p - 1)

namespace Binary

variable {fmt : BinaryFormat}

/-- The magnitude of a finite number as `c * 10 ^ p`, exactly. -/
def exactDecimal (x : Binary fmt) : Nat × Int :=
  (x.significand * powNum 2 x.exponent * powDen 5 x.exponent, min x.exponent 0)

/--
The magnitude of a finite nonzero number as `c * 10 ^ p` with as few digits as read back, and
nearest to the number among those.
-/
def shortest (x : Binary fmt) : Nat × Int :=
  let num := x.significand * powNum 2 x.exponent
  let den := powDen 2 x.exponent
  let found :=
    searchGrids fmt x.code num den x.exactDecimal fmt.fractionBits (ratioMagnitude num den - 1)
  dropZeros (digitCount found.1) found.1 found.2

end Binary

/-! ## Layout -/

/-- Numbers from `10 ^ (low - 1)` up to `10 ^ high` are written without an exponent. -/
structure DecimalLayout where
  low : Int
  high : Int

namespace DecimalLayout

/-- Single precision: from a millionth up to ten million millions. -/
def single : DecimalLayout := ⟨-5, 13⟩

/-- Double precision: from a hundred-thousandth up to ten thousand million millions. -/
def double : DecimalLayout := ⟨-4, 16⟩

/-- `c * 10 ^ p` as it is written: with a digit after the point, or with one digit before it. -/
def decimal (layout : DecimalLayout) (negative : Bool) (c : Nat) (p : Int) : Decimal :=
  let digits := digitCount c
  let top := p + digits
  if layout.low ≤ top && top ≤ layout.high then
    if p < 0 then ⟨negative, c, (-p).toNat, 0⟩ else ⟨negative, c * powNum 10 (p + 1), 1, 0⟩
  else ⟨negative, c, digits - 1, top - 1⟩

/-- The shortest decimal of a finite number. -/
def ofBinary {fmt : BinaryFormat} (layout : DecimalLayout) (x : Binary fmt) : Decimal :=
  if x.isZero then ⟨x.negative, 0, 1, 0⟩
  else layout.decimal x.negative x.shortest.1 x.shortest.2

end DecimalLayout

end ApiShape
