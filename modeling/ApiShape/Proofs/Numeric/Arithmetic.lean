/-
Arithmetic of the double format where nothing is rounded. A result that is a significand times a power of two, within
the range of the format, is the exact one. Halving a number above one, doubling one up to one, and taking one off a
number below two are of this kind, and comparisons of codes are those of magnitudes.
-/
import ApiShape.Numeric.Scaling
import ApiShape.Proofs.Numeric.Exact

namespace ApiShape

namespace Binary

/-! ## Order -/

section

variable {fmt : BinaryFormat} {x y : Binary fmt}

theorem magnitude_eq_of_code_eq (h : x.code = y.code) : x.magnitude = y.magnitude := by
  unfold magnitude significand exponent
  rw [h]

/-- Codes are in the order of the magnitudes. -/
theorem magnitude_lt_of_code_lt (h : x.code < y.code) : x.magnitude < y.magnitude := by
  have htwo : (2 : ℚ) ≠ 0 := by norm_num
  have hxlow := x.fits.quantum_le
  have hylow := y.fits.quantum_le
  have hxlt := x.fits.lt
  have hylt := y.fits.lt
  rw [code_eq, code_eq y] at h
  rcases lt_trichotomy x.exponent y.exponent with hlt | heq | hgt
  · -- The number with the greater exponent has a full significand.
    have hfull : ((2 ^ fmt.fractionBits : Nat) : ℚ) ≤ y.significand := by exact_mod_cast y.fits.full (by omega)
    have hbelow : (x.significand : ℚ) < (2 ^ (fmt.fractionBits + 1) : Nat) := by exact_mod_cast hxlt
    calc x.magnitude < (2 ^ (fmt.fractionBits + 1) : Nat) * 2 ^ x.exponent :=
          mul_lt_mul_of_pos_right hbelow (by positivity)
      _ = (2 ^ fmt.fractionBits : Nat) * 2 ^ (x.exponent + 1) := by
        rw [zpow_add₀ htwo]
        push_cast
        ring
      _ ≤ (2 ^ fmt.fractionBits : Nat) * 2 ^ y.exponent :=
        mul_le_mul_of_nonneg_left (zpow_le_zpow_right₀ (by norm_num) hlt) (by positivity)
      _ ≤ y.magnitude := mul_le_mul_of_nonneg_right hfull (by positivity)
  · rw [heq] at h
    have hsig : (x.significand : ℚ) < y.significand := by exact_mod_cast Nat.lt_of_add_lt_add_left h
    rw [magnitude, magnitude, heq]
    exact mul_lt_mul_of_pos_right hsig (by positivity)
  · -- A greater exponent makes for a greater code.
    have hfull := x.fits.full (by omega)
    have hsteps : ((y.exponent - fmt.quantum).toNat + 1) * 2 ^ fmt.fractionBits ≤
        (x.exponent - fmt.quantum).toNat * 2 ^ fmt.fractionBits := Nat.mul_le_mul_right _ (by omega)
    rw [Nat.add_mul, Nat.one_mul] at hsteps
    rw [Nat.pow_succ] at hylt
    omega

theorem code_lt_iff : x.code < y.code ↔ x.magnitude < y.magnitude := by
  refine ⟨magnitude_lt_of_code_lt, fun h => ?_⟩
  rcases Nat.lt_trichotomy x.code y.code with hlt | heq | hgt
  · exact hlt
  · exact absurd h (magnitude_eq_of_code_eq heq).not_lt
  · exact absurd h (magnitude_lt_of_code_lt hgt).asymm

theorem code_le_iff : x.code ≤ y.code ↔ x.magnitude ≤ y.magnitude := by
  rw [← Nat.not_lt, ← not_lt, code_lt_iff]

end

/-! ## Exact results -/

variable {x y : Binary64} {v w : ℚ}

/-- A significand that is not too large makes a number of the format with any exponent within its range. -/
theorem exists_fits {n : Nat} {e : Int} (hn : n ≠ 0) (hlt : n < 2 ^ 53) (hlow : -1074 ≤ e) (hhigh : e ≤ 971) :
    ∃ m f, m ≠ 0 ∧ BinaryFormat.double.Fits m f ∧ (m * 2 ^ f : ℚ) = n * 2 ^ e ∧
      (f - BinaryFormat.double.quantum).toNat * 2 ^ 52 + m < BinaryFormat.double.infinityCode := by
  have hquantum : BinaryFormat.double.quantum = -1074 := rfl
  have hinf : BinaryFormat.double.infinityCode = 2047 * 2 ^ 52 := rfl
  have hlog : n.log2 < 53 := (Nat.log2_lt hn).2 hlt
  -- The significand is moved up until it is full or the least exponent is reached.
  obtain ⟨s, hs⟩ : ∃ s, s = min (52 - n.log2) (e + 1074).toNat := ⟨_, rfl⟩
  have hup : n * 2 ^ s < 2 ^ 53 := by
    calc n * 2 ^ s < 2 ^ (n.log2 + 1) * 2 ^ s := Nat.mul_lt_mul_of_pos_right Nat.lt_log2_self (by positivity)
      _ = 2 ^ (n.log2 + 1 + s) := (Nat.pow_add ..).symm
      _ ≤ 2 ^ 53 := Nat.pow_le_pow_right (by norm_num) (by omega)
  have hfull : -1074 < e - s → 2 ^ 52 ≤ n * 2 ^ s := by
    intro habove
    calc 2 ^ 52 = 2 ^ n.log2 * 2 ^ s := by
          rw [← Nat.pow_add]
          congr 1
          omega
      _ ≤ n * 2 ^ s := Nat.mul_le_mul_right _ (Nat.log2_self_le hn)
  refine ⟨n * 2 ^ s, e - s, Nat.mul_ne_zero hn (by positivity), ⟨by omega, hup, hfull⟩, ?_, by omega⟩
  rw [zpow_sub₀ (by norm_num), zpow_natCast]
  push_cast
  field_simp

/-- A ratio that the format has is rounded to itself. -/
theorem ofCode_roundRatio (negative : Bool) (num den n : Nat) (e : Int) (hden : den ≠ 0) (hlt : n < 2 ^ 53)
    (hlow : -1074 ≤ e) (hhigh : e ≤ 971) (hratio : (num / den : ℚ) = n * 2 ^ e) :
    (ofCode negative (roundRatio .double num den) : Binary64).isFinite = true ∧
      (ofCode negative (roundRatio .double num den) : Binary64).negative = negative ∧
      (ofCode negative (roundRatio .double num den) : Binary64).magnitude = n * 2 ^ e := by
  by_cases hn : n = 0
  · subst hn
    have hnum : num = 0 := by
      have hden : (den : ℚ) ≠ 0 := by exact_mod_cast hden
      simpa [hden] using hratio
    have hround : roundRatio .double num den = 0 := by
      unfold roundRatio
      rw [if_pos hnum]
    rw [hround]
    obtain ⟨hcode, hneg⟩ := code_ofCode negative (show 0 < 2 ^ BinaryFormat.double.magnitudeBits by decide)
    refine ⟨?_, hneg, ?_⟩
    · unfold isFinite
      rw [hcode]
      decide
    · rw [magnitude_eq_zero hcode, Nat.cast_zero, zero_mul]
  · obtain ⟨m, f, hm, hfits, hvalue, hcode⟩ := exists_fits hn hlt hlow hhigh
    have hbits := hcode.trans (infinityCode_lt _)
    rw [roundRatio_eq hden hm hfits (hratio.trans hvalue.symm) hcode.le]
    obtain ⟨hofCode, hneg⟩ := code_ofCode negative hbits
    refine ⟨?_, hneg, (magnitude_ofCode hfits hbits).trans hvalue⟩
    unfold isFinite
    rw [decide_eq_true_eq]
    exact hofCode.trans_lt hcode

/-- A finite number that is not negative, and its magnitude. -/
structure Holds (x : Binary64) (v : ℚ) : Prop where
  isFinite : x.isFinite = true
  positive : x.negative = false
  magnitude : x.magnitude = v

theorem numerator_div_denominator (x : Binary64) : (x.numerator / x.denominator : ℚ) = x.magnitude :=
  ratio_eq_magnitude x

theorem denominator_ne_zero (x : Binary64) : x.denominator ≠ 0 := (powDen_pos (by norm_num) _).ne'

/-- Only small exponents make small numbers. -/
theorem exponent_le_of_magnitude_lt {k : Int} (hk : -1022 < k) (h : x.magnitude < 2 ^ k) : x.exponent + 52 < k := by
  have hquantum : BinaryFormat.double.quantum = -1074 := rfl
  by_contra hge
  have hfull : ((2 ^ 52 : Nat) : ℚ) ≤ x.significand := by exact_mod_cast x.fits.full (by omega)
  refine absurd h (not_lt.2 ?_)
  calc (2 : ℚ) ^ k ≤ 2 ^ (52 + x.exponent) := zpow_le_zpow_right₀ (by norm_num) (by omega)
    _ = (2 ^ 52 : Nat) * 2 ^ x.exponent := by
      rw [zpow_add₀ (by norm_num)]
      norm_num
    _ ≤ x.magnitude := mul_le_mul_of_nonneg_right hfull (by positivity)

/-- Only exponents that are not too small make numbers above one. -/
theorem le_exponent_of_one_lt (h : 1 < x.magnitude) : -53 < x.exponent := by
  have hlt : (x.significand : ℚ) < (2 ^ 53 : Nat) := by exact_mod_cast x.fits.lt
  have hpow : (2 : ℚ) ^ (0 : Int) < 2 ^ (53 + x.exponent) := by
    calc (2 : ℚ) ^ (0 : Int) < x.magnitude := by rwa [zpow_zero]
      _ < (2 ^ 53 : Nat) * 2 ^ x.exponent := mul_lt_mul_of_pos_right hlt (by positivity)
      _ = 2 ^ (53 + x.exponent) := by
        rw [zpow_add₀ (by norm_num)]
        norm_num
  have := (zpow_lt_zpow_iff_right₀ (by norm_num : (1 : ℚ) < 2)).1 hpow
  omega

namespace Holds

/-! ## Constants -/

theorem zero : Holds zero 0 := by
  obtain ⟨hcode, hneg⟩ := code_ofCode false (show 0 < 2 ^ BinaryFormat.double.magnitudeBits by decide)
  refine ⟨?_, hneg, magnitude_eq_zero hcode⟩
  unfold Binary.isFinite Binary.zero
  rw [hcode]
  decide

theorem one : Holds one 1 := by
  obtain ⟨hfinite, hneg, hmagnitude⟩ := ofCode_roundRatio false 1 1 1 0 (by norm_num) (by norm_num) (by norm_num)
    (by norm_num) (by norm_num)
  exact ⟨hfinite, hneg, hmagnitude.trans (by norm_num)⟩

theorem half : Holds half (1 / 2) := by
  obtain ⟨hfinite, hneg, hmagnitude⟩ := ofCode_roundRatio false 1 2 1 (-1) (by norm_num) (by norm_num) (by norm_num)
    (by norm_num) (by norm_num)
  exact ⟨hfinite, hneg, hmagnitude.trans (by norm_num)⟩

/-! ## Comparisons -/

theorem lt_iff (hx : Holds x v) (hy : Holds y w) : x.lt y = true ↔ v < w := by
  unfold lt place
  rw [isNaN_of_isFinite hx.isFinite, isNaN_of_isFinite hy.isFinite, hx.positive, hy.positive, ← hx.magnitude,
    ← hy.magnitude, ← code_lt_iff]
  simp

theorem le_iff (hx : Holds x v) (hy : Holds y w) : x.le y = true ↔ v ≤ w := by
  unfold le place
  rw [isNaN_of_isFinite hx.isFinite, isNaN_of_isFinite hy.isFinite, hx.positive, hy.positive, ← hx.magnitude,
    ← hy.magnitude, ← code_le_iff]
  simp

theorem same_zero_iff (hx : Holds x v) : x.same Binary.zero = true ↔ v = 0 := by
  rw [same_iff_magnitude (isNaN_of_isFinite hx.isFinite) (isNaN_of_isFinite zero.isFinite), hx.magnitude,
    zero.magnitude]
  simp +contextual

/-! ## Steps of the scaling -/

/-- Halving a number above one rounds nothing. -/
theorem halve (hx : Holds x v) (h : 1 < v) : Holds x.halve (v / 2) := by
  rw [← hx.magnitude] at h ⊢
  have hlow := le_exponent_of_one_lt h
  have hhigh : x.exponent + (52 : Nat) < 2 ^ 10 := exponent_add_lt (by decide) hx.isFinite
  have hvalue : x.magnitude / 2 = x.significand * 2 ^ (x.exponent - 1) := by
    rw [zpow_sub_one₀ (by norm_num), Binary.magnitude]
    ring
  have hratio : (x.numerator / (2 * x.denominator : Nat) : ℚ) = x.significand * 2 ^ (x.exponent - 1) := by
    rw [← hvalue, ← numerator_div_denominator]
    push_cast
    field_simp
  obtain ⟨hfinite, hneg, hmagnitude⟩ := ofCode_roundRatio x.negative _ _ _ _
    (Nat.mul_ne_zero (by norm_num) x.denominator_ne_zero) x.fits.lt (by omega) (by omega) hratio
  unfold Binary.halve
  rw [if_pos hx.isFinite]
  exact ⟨hfinite, hneg.trans hx.positive, hmagnitude.trans hvalue.symm⟩

/-- Doubling a number up to one rounds nothing. -/
theorem twice (hx : Holds x v) (h : v ≤ 1) : Holds x.twice (2 * v) := by
  rw [← hx.magnitude] at h ⊢
  have hquantum : BinaryFormat.double.quantum = -1074 := rfl
  have hlow := x.fits.quantum_le
  have hhigh : x.exponent + 52 < 1 := exponent_le_of_magnitude_lt (by norm_num) (h.trans_lt (by norm_num))
  have hvalue : 2 * x.magnitude = x.significand * 2 ^ (x.exponent + 1) := by
    rw [zpow_add_one₀ (by norm_num), Binary.magnitude]
    ring
  have hratio : ((2 * x.numerator : Nat) / x.denominator : ℚ) = x.significand * 2 ^ (x.exponent + 1) := by
    rw [← hvalue, ← numerator_div_denominator]
    push_cast
    ring
  obtain ⟨hfinite, hneg, hmagnitude⟩ := ofCode_roundRatio x.negative _ _ _ _ x.denominator_ne_zero x.fits.lt
    (by omega) (by omega) hratio
  unfold Binary.twice
  rw [if_pos hx.isFinite]
  exact ⟨hfinite, hneg.trans hx.positive, hmagnitude.trans hvalue.symm⟩

/-- Taking one off a number below two rounds nothing. -/
theorem lessOne (hx : Holds x v) (hone : 1 ≤ v) (htwo : v < 2) : Holds x.lessOne (v - 1) := by
  rw [← hx.magnitude] at hone htwo ⊢
  have hquantum : BinaryFormat.double.quantum = -1074 := rfl
  have hlow := x.fits.quantum_le
  have hhigh : x.exponent + 52 < 1 := exponent_le_of_magnitude_lt (by norm_num) (htwo.trans_eq (zpow_one _).symm)
  have hden : (x.denominator : ℚ) ≠ 0 := by exact_mod_cast x.denominator_ne_zero
  have hpos : (0 : ℚ) < x.denominator := by exact_mod_cast Nat.pos_of_ne_zero x.denominator_ne_zero
  -- The number is a whole number of denominators, the first of which is one.
  have hnum : x.numerator = x.significand := by
    unfold numerator
    rw [powNum_of_nonpos 2 (by omega), Nat.mul_one]
  rw [← numerator_div_denominator, le_div_iff₀ hpos, one_mul] at hone
  have hle : x.denominator ≤ x.numerator := by exact_mod_cast hone
  have hscale : (x.denominator : ℚ) * 2 ^ x.exponent = 1 := by
    have hpow := powNum_div_powDen 2 (by norm_num) x.exponent
    rw [powNum_of_nonpos 2 (by omega)] at hpow
    push_cast at hpow
    rw [← hpow]
    exact mul_one_div_cancel hden
  have hvalue : x.magnitude - 1 = (x.numerator - x.denominator : Nat) * 2 ^ x.exponent := by
    rw [Nat.cast_sub hle, sub_mul, hscale, hnum, Binary.magnitude]
  have hratio : ((x.numerator - x.denominator : Nat) / x.denominator : ℚ) =
      (x.numerator - x.denominator : Nat) * 2 ^ x.exponent := by
    rw [div_eq_iff hden, mul_assoc, mul_comm ((2 : ℚ) ^ x.exponent), hscale, mul_one]
  have hlt := x.fits.lt
  obtain ⟨hfinite, hneg, hmagnitude⟩ := ofCode_roundRatio false _ _ _ _ x.denominator_ne_zero
    (by rw [hnum]; exact (Nat.sub_le _ _).trans_lt hlt) (by omega) (by omega) hratio
  have hdifference : (x.numerator : Int) - x.denominator = (x.numerator - x.denominator : Nat) := by omega
  unfold Binary.lessOne
  rw [if_pos hx.isFinite, hx.positive]
  simp only [Bool.false_eq_true, if_false]
  rw [hdifference, Int.natAbs_natCast, decide_eq_false (by omega)]
  exact ⟨hfinite, hneg, hmagnitude.trans hvalue.symm⟩

end Holds

/-! ## Comparisons with zero -/

theorem place_zero : (zero : Binary64).place = 0 := by
  have hcode : (zero : Binary64).code = 0 := (code_ofCode false (by decide)).1
  unfold place
  rw [Holds.zero.positive, hcode]
  rfl

/-- A number other than zero is below zero when its sign says so, and otherwise above. -/
theorem compare_zero (hnan : x.isNaN = false) (hzero : x.isZero = false) :
    x.lt zero = x.negative ∧ zero.lt x = !x.negative := by
  have hcode : x.code ≠ 0 := of_decide_eq_false hzero
  unfold lt
  rw [hnan, isNaN_of_isFinite Holds.zero.isFinite, place_zero]
  unfold place
  cases x.negative
  · simp [Nat.pos_of_ne_zero hcode]
  · simp [Nat.pos_of_ne_zero hcode]

theorem same_zero (hnan : x.isNaN = false) : x.same zero = x.isZero := by
  rw [Bool.eq_iff_iff, same_iff_magnitude hnan (isNaN_of_isFinite Holds.zero.isFinite), Holds.zero.magnitude,
    isZero_iff_magnitude]
  exact ⟨fun h => h.1, fun h => ⟨h, .inr h⟩⟩

/-- Without its sign a finite number is its magnitude. -/
theorem Holds.neg (hfinite : x.isFinite = true) (hneg : x.negative = true) : Holds x.neg x.magnitude := by
  obtain ⟨hcode, hsign⟩ := code_ofCode (!x.negative) x.code_lt
  refine ⟨?_, ?_, magnitude_eq_of_code_eq hcode⟩
  · unfold Binary.isFinite at hfinite ⊢
    rwa [Binary.neg, hcode]
  · rw [Binary.neg, hsign, hneg]
    rfl

end Binary

end ApiShape
