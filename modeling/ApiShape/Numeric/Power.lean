/-
Powers of natural numbers, and powers with integer exponents as ratios of two of them.
-/

namespace ApiShape

/-- Two to the `n`. -/
def twoPow (n : Nat) : Nat := Nat.pow 2 n

/-- The numerator of `b` to the `e`, which is one for a negative `e`. -/
def powNum (b : Nat) (e : Int) : Nat := Nat.pow b e.toNat

/-- The denominator of `b` to the `e`, which is one unless `e` is negative. -/
def powDen (b : Nat) (e : Int) : Nat := Nat.pow b (-e).toNat

end ApiShape
