/-
The number that a finite pattern denotes, as an exact rational. A pattern other than a zero is
determined by its sign and its magnitude, since significand and exponent are: an exponent above the
least one comes with a full significand.
-/
import ApiShape.Numeric.Binary
import Mathlib.Algebra.Order.Field.Power
import Mathlib.Data.Rat.Cast.Order
import Mathlib.Tactic.FieldSimp
import Mathlib.Tactic.Linarith
import Mathlib.Tactic.Positivity
import Mathlib.Tactic.Ring

namespace ApiShape

theorem twoPow_eq (n : Nat) : twoPow n = 2 ^ n := rfl

/-- A power with an integer exponent as the ratio that the definitions compute with. -/
theorem powNum_div_powDen (b : Nat) (hb : b ≠ 0) (e : Int) :
    (powNum b e : ℚ) / powDen b e = (b : ℚ) ^ e := by
  have hb : (b : ℚ) ≠ 0 := by exact_mod_cast hb
  have hnum : (powNum b e : ℚ) = (b : ℚ) ^ (e.toNat : Int) := by
    rw [zpow_natCast]
    exact_mod_cast rfl
  have hden : (powDen b e : ℚ) = (b : ℚ) ^ ((-e).toNat : Int) := by
    rw [zpow_natCast]
    exact_mod_cast rfl
  rw [hnum, hden, ← zpow_sub₀ hb]
  congr 1
  omega

theorem powDen_pos {b : Nat} (hb : 0 < b) (e : Int) : 0 < powDen b e := Nat.pow_pos hb

theorem powDen_of_nonneg (b : Nat) {e : Int} (h : 0 ≤ e) : powDen b e = 1 := by
  unfold powDen
  rw [show (-e).toNat = 0 by omega, Nat.pow_eq, Nat.pow_zero]

theorem powNum_of_nonpos (b : Nat) {e : Int} (h : e ≤ 0) : powNum b e = 1 := by
  unfold powNum
  rw [show e.toNat = 0 by omega, Nat.pow_eq, Nat.pow_zero]

/-! ## Significand and exponent -/

/-- Significands and exponents as the patterns of a format have them: an exponent above the least
one comes with a full significand. -/
structure BinaryFormat.Fits (fmt : BinaryFormat) (m : Nat) (e : Int) : Prop where
  quantum_le : fmt.quantum ≤ e
  lt : m < 2 ^ (fmt.fractionBits + 1)
  full : fmt.quantum < e → 2 ^ fmt.fractionBits ≤ m

/-- No two of them denote one number. -/
theorem BinaryFormat.Fits.unique {fmt : BinaryFormat} {m n : Nat} {e f : Int} (hm : fmt.Fits m e)
    (hn : fmt.Fits n f) (h : (m : ℚ) * 2 ^ e = n * 2 ^ f) : m = n ∧ e = f := by
  wlog hle : e ≤ f generalizing m n e f
  · obtain ⟨h, h'⟩ := this hn hm h.symm (by omega)
    exact ⟨h.symm, h'.symm⟩
  obtain ⟨d, hd⟩ : ∃ d : Nat, f = e + d := ⟨(f - e).toNat, by omega⟩
  have hscaled : m = n * 2 ^ d := by
    rw [hd, zpow_add₀ (by norm_num), zpow_natCast] at h
    have hpos : (0 : ℚ) < 2 ^ e := by positivity
    have h : (m : ℚ) = n * 2 ^ d := mul_right_cancel₀ hpos.ne' (by rw [h]; ring)
    exact_mod_cast h
  rcases Nat.eq_zero_or_pos d with rfl | hpos
  · exact ⟨by simpa using hscaled, by simpa using hd.symm⟩
  · -- A difference in the exponents makes the smaller significand too large.
    have hfull := hn.full (by have := hm.quantum_le; omega)
    have htwo : 2 ^ 1 ≤ 2 ^ d := Nat.pow_le_pow_right (by norm_num) hpos
    have hlarge : 2 ^ fmt.fractionBits * 2 ^ 1 ≤ n * 2 ^ d := Nat.mul_le_mul hfull htwo
    have hlt := hm.lt
    rw [hscaled, Nat.pow_succ] at hlt
    omega

namespace Binary

variable {fmt : BinaryFormat} {x y : Binary fmt}

/-- The magnitude of a finite number. -/
def magnitude (x : Binary fmt) : ℚ := x.significand * 2 ^ x.exponent

theorem code_lt (x : Binary fmt) : x.code < 2 ^ fmt.magnitudeBits :=
  Nat.mod_lt _ (Nat.pow_pos (by norm_num))

/-- The significand and exponent of a pattern are in the range of its format. -/
theorem fits (x : Binary fmt) : fmt.Fits x.significand x.exponent where
  quantum_le := by
    unfold exponent
    omega
  lt := by
    have hmod : x.code % 2 ^ fmt.fractionBits < 2 ^ fmt.fractionBits := Nat.mod_lt _ (by positivity)
    unfold significand
    rw [Nat.pow_succ]
    split
    · rename_i hlt
      rw [twoPow_eq] at hlt
      omega
    · rw [twoPow_eq]
      omega
  full h := by
    unfold exponent at h
    have hcode : 2 ^ fmt.fractionBits ≤ x.code := by
      by_contra hlt
      rw [twoPow_eq, Nat.div_eq_of_lt (by omega)] at h
      omega
    unfold significand
    rw [twoPow_eq, if_neg (by omega)]
    omega

/-- The code is the exponent above the least one, followed by the significand. -/
theorem code_eq (x : Binary fmt) :
    x.code = (x.exponent - fmt.quantum).toNat * 2 ^ fmt.fractionBits + x.significand := by
  unfold exponent significand
  rw [twoPow_eq]
  have hsplit := Nat.div_add_mod x.code (2 ^ fmt.fractionBits)
  split
  · rename_i hlt
    rw [Nat.div_eq_of_lt hlt]
    simp
  · rename_i hge
    have hpos : 1 ≤ x.code / 2 ^ fmt.fractionBits := (Nat.one_le_div_iff (by positivity)).2 (by omega)
    obtain ⟨k, hk⟩ := Nat.exists_eq_add_of_le hpos
    rw [hk] at hsplit ⊢
    have hexp : (fmt.quantum + ((1 + k - 1 : Nat) : Int) - fmt.quantum).toNat = k := by omega
    rw [hexp]
    rw [Nat.mul_add, Nat.mul_one, Nat.mul_comm (2 ^ fmt.fractionBits) k] at hsplit
    omega

/-- Significand and exponent are read off a code that is composed of them. -/
theorem eq_of_code_eq_add {m : Nat} {e : Int} (h : fmt.Fits m e)
    (hcode : x.code = (e - fmt.quantum).toNat * 2 ^ fmt.fractionBits + m) :
    x.significand = m ∧ x.exponent = e := by
  obtain ⟨k, hk⟩ : ∃ k : Nat, e = fmt.quantum + k := ⟨(e - fmt.quantum).toNat, by have := h.quantum_le; omega⟩
  have hto : (e - fmt.quantum).toNat = k := by omega
  have hlt := h.lt
  rw [Nat.pow_succ] at hlt
  rw [hto] at hcode
  have hpos : 0 < 2 ^ fmt.fractionBits := by positivity
  unfold exponent significand
  rw [twoPow_eq, hcode]
  by_cases hsmall : m < 2 ^ fmt.fractionBits
  · -- Below a full significand the exponent is the least one.
    obtain rfl : k = 0 := by
      by_contra hne
      exact absurd (h.full (by omega)) (by omega)
    rw [Nat.zero_mul, Nat.zero_add, if_pos hsmall, Nat.div_eq_of_lt hsmall]
    exact ⟨rfl, by omega⟩
  · obtain ⟨f, rfl⟩ := Nat.exists_eq_add_of_le (Nat.le_of_not_lt hsmall)
    have hsum : k * 2 ^ fmt.fractionBits + (2 ^ fmt.fractionBits + f) = 2 ^ fmt.fractionBits * (k + 1) + f := by ring
    have hf : f < 2 ^ fmt.fractionBits := by omega
    rw [hsum, Nat.mul_add_mod, Nat.mod_eq_of_lt hf, Nat.mul_add_div hpos, Nat.div_eq_of_lt hf, if_neg]
    · exact ⟨rfl, by omega⟩
    · have : 2 ^ fmt.fractionBits * 1 ≤ 2 ^ fmt.fractionBits * (k + 1) := Nat.mul_le_mul_left _ (by omega)
      omega

/-! ## Patterns -/

theorem bits_eq (x : Binary fmt) :
    x.bits.toNat = (if x.negative then 2 ^ fmt.magnitudeBits else 0) + x.code := by
  have hlt : x.bits.toNat < 2 ^ (fmt.magnitudeBits + 1) := x.bits.isLt
  rw [Nat.pow_succ] at hlt
  unfold negative code
  rw [twoPow_eq]
  by_cases h : 2 ^ fmt.magnitudeBits ≤ x.bits.toNat
  · rw [if_pos (by simpa using h), Nat.mod_eq_sub_mod h, Nat.mod_eq_of_lt (by omega)]
    omega
  · rw [if_neg (by simpa using h), Nat.mod_eq_of_lt (by omega)]
    omega

theorem ext_code (hcode : x.code = y.code) (hneg : x.negative = y.negative) : x = y := by
  have h : x.bits.toNat = y.bits.toNat := by rw [bits_eq, bits_eq, hcode, hneg]
  obtain ⟨bits⟩ := x
  obtain ⟨bits'⟩ := y
  congr 1
  exact BitVec.eq_of_toNat_eq h

theorem code_ofCode (negative : Bool) {code : Nat} (h : code < 2 ^ fmt.magnitudeBits) :
    (ofCode negative code : Binary fmt).code = code ∧ (ofCode negative code : Binary fmt).negative = negative := by
  have hbits : (ofCode negative code : Binary fmt).bits.toNat = (if negative then 2 ^ fmt.magnitudeBits else 0) + code := by
    unfold ofCode
    rw [BitVec.toNat_ofNat, twoPow_eq]
    refine Nat.mod_eq_of_lt ?_
    have hwidth : 2 ^ fmt.width = 2 ^ fmt.magnitudeBits * 2 := Nat.pow_succ ..
    cases negative
    · simp only [Bool.false_eq_true, if_false]
      omega
    · simp only [if_true]
      omega
  have hcode := code_lt (ofCode negative code : Binary fmt)
  have heq := bits_eq (ofCode negative code : Binary fmt)
  rw [hbits] at heq
  cases hn : (ofCode negative code : Binary fmt).negative <;> rw [hn] at heq <;> cases negative <;> simp at heq ⊢ <;> omega

/-- Equal magnitudes have equal codes. -/
theorem code_eq_of_magnitude_eq (h : x.magnitude = y.magnitude) : x.code = y.code := by
  obtain ⟨hm, he⟩ := x.fits.unique y.fits h
  rw [code_eq, code_eq y, hm, he]

end Binary

end ApiShape
