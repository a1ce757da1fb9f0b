/-
Rounding is exact on the numbers that a format has: the ratio of a significand and an exponent that
fit rounds to their own code. A conversion to a wider format therefore keeps the number.
-/
import ApiShape.Proofs.Numeric.Normalized

namespace ApiShape

namespace Binary

/-! ## Binary logarithm of a ratio -/

theorem log2_bounds {n : Nat} (h : n ≠ 0) : (2 : ℚ) ^ (n.log2 : Int) ≤ n ∧ (n : ℚ) < 2 ^ ((n.log2 : Int) + 1) := by
  refine ⟨?_, ?_⟩
  · rw [zpow_natCast]
    exact_mod_cast Nat.log2_self_le h
  · have hlt : n < 2 ^ (n.log2 + 1) := Nat.lt_log2_self
    rw [show (n.log2 : Int) + 1 = ((n.log2 + 1 : Nat) : Int) by push_cast; ring, zpow_natCast]
    exact_mod_cast hlt

/-- The comparison that the definition makes, as one of rationals. -/
theorem mul_powNum_le_iff {num den : Nat} (hden : den ≠ 0) (k : Int) :
    den * powNum 2 k ≤ num * powDen 2 k ↔ (2 : ℚ) ^ k ≤ num / den := by
  have hden : (0 : ℚ) < den := by exact_mod_cast Nat.pos_of_ne_zero hden
  have hpow : (0 : ℚ) < powDen 2 k := by exact_mod_cast powDen_pos (by norm_num) k
  have hk := powNum_div_powDen 2 (by norm_num) k
  rw [show (2 : ℚ) ^ k = powNum 2 k / powDen 2 k by rw [hk]; norm_num, div_le_div_iff₀ hpow hden]
  rw [mul_comm (powNum 2 k : ℚ)]
  exact_mod_cast Iff.rfl

/-- The binade of a ratio, which the lengths of its parts give up to one. -/
theorem ratioLog2_spec {num den : Nat} (hnum : num ≠ 0) (hden : den ≠ 0) :
    (2 : ℚ) ^ ratioLog2 num den ≤ num / den ∧ (num / den : ℚ) < 2 ^ (ratioLog2 num den + 1) := by
  have htwo : (2 : ℚ) ≠ 0 := by norm_num
  have hdenpos : (0 : ℚ) < den := by exact_mod_cast Nat.pos_of_ne_zero hden
  obtain ⟨hnumle, hnumlt⟩ := log2_bounds hnum
  obtain ⟨hdenle, hdenlt⟩ := log2_bounds hden
  unfold ratioLog2
  simp only
  split
  · rename_i hle
    refine ⟨(mul_powNum_le_iff hden _).1 hle, ?_⟩
    rw [div_lt_iff₀ hdenpos]
    calc (num : ℚ) < 2 ^ ((num.log2 : Int) + 1) := hnumlt
      _ = 2 ^ ((num.log2 : Int) - den.log2 + 1) * 2 ^ (den.log2 : Int) := by
        rw [← zpow_add₀ htwo]
        congr 1
        ring
      _ ≤ 2 ^ ((num.log2 : Int) - den.log2 + 1) * den := mul_le_mul_of_nonneg_left hdenle (by positivity)
  · rename_i hlt
    rw [mul_powNum_le_iff hden, not_le] at hlt
    refine ⟨?_, by rwa [sub_add_cancel]⟩
    rw [le_div_iff₀ hdenpos]
    calc (2 : ℚ) ^ ((num.log2 : Int) - den.log2 - 1) * den
        ≤ 2 ^ ((num.log2 : Int) - den.log2 - 1) * 2 ^ ((den.log2 : Int) + 1) :=
          mul_le_mul_of_nonneg_left hdenlt.le (by positivity)
      _ = 2 ^ (num.log2 : Int) := by
        rw [← zpow_add₀ htwo]
        congr 1
        ring
      _ ≤ num := hnumle

/-- Only one exponent puts a number into its binade. -/
theorem binade_unique {r : ℚ} {j k : Int} (hj : (2 : ℚ) ^ j ≤ r ∧ r < 2 ^ (j + 1))
    (hk : (2 : ℚ) ^ k ≤ r ∧ r < 2 ^ (k + 1)) : j = k := by
  have hjk : j < k + 1 := (zpow_lt_zpow_iff_right₀ (by norm_num : (1 : ℚ) < 2)).1 (hj.1.trans_lt hk.2)
  have hkj : k < j + 1 := (zpow_lt_zpow_iff_right₀ (by norm_num : (1 : ℚ) < 2)).1 (hk.1.trans_lt hj.2)
  omega

/-! ## Rounding of representable numbers -/

theorem roundHalfEven_mul {m d : Nat} (hd : 0 < d) : roundHalfEven (m * d) d = m := by
  unfold roundHalfEven
  simp only
  rw [Nat.mul_mod_left, Nat.mul_div_cancel m hd, if_pos (by omega)]

variable {fmt : BinaryFormat} {x y : Binary fmt}

/-- The ratio of a significand and an exponent that fit rounds to the code composed of them. -/
theorem roundRatio_eq {num den m : Nat} {e : Int} (hden : den ≠ 0) (hm : m ≠ 0) (hfits : fmt.Fits m e)
    (hratio : (num / den : ℚ) = m * 2 ^ e)
    (hcode : (e - fmt.quantum).toNat * 2 ^ fmt.fractionBits + m ≤ fmt.infinityCode) :
    roundRatio fmt num den = (e - fmt.quantum).toNat * 2 ^ fmt.fractionBits + m := by
  have htwo : (2 : ℚ) ≠ 0 := by norm_num
  have hdenpos : (0 : ℚ) < den := by exact_mod_cast Nat.pos_of_ne_zero hden
  have hratiopos : (0 : ℚ) < num / den := by
    rw [hratio]
    have : (0 : ℚ) < m := by exact_mod_cast Nat.pos_of_ne_zero hm
    positivity
  have hnum : num ≠ 0 := by
    rintro rfl
    simp at hratiopos
  obtain ⟨hmle, hmlt⟩ := log2_bounds hm
  -- The binade of the ratio is that of the significand, moved by the exponent.
  have hlog : ratioLog2 num den = m.log2 + e := by
    refine binade_unique (ratioLog2_spec hnum hden) ⟨?_, ?_⟩
    · rw [hratio, zpow_add₀ htwo]
      exact mul_le_mul_of_nonneg_right hmle (by positivity)
    · rw [hratio, show (m.log2 : Int) + e + 1 = m.log2 + 1 + e by ring, zpow_add₀ htwo]
      exact mul_lt_mul_of_pos_right hmlt (by positivity)
  have hlt : m.log2 < fmt.fractionBits + 1 := (Nat.log2_lt hm).2 hfits.lt
  have hexp : max (ratioLog2 num den - fmt.fractionBits) fmt.quantum = e := by
    have hle := hfits.quantum_le
    rcases lt_or_ge fmt.quantum e with hgt | hge
    · have hfull : fmt.fractionBits ≤ m.log2 := (Nat.le_log2 hm).2 (hfits.full hgt)
      omega
    · omega
  have hscaled : num * powDen 2 e = m * (den * powNum 2 e) := by
    have hpow := powNum_div_powDen 2 (by norm_num) e
    have hpd : (powDen 2 e : ℚ) ≠ 0 := by exact_mod_cast (powDen_pos (b := 2) (by norm_num) e).ne'
    push_cast at hpow
    rw [← hpow] at hratio
    field_simp at hratio
    have hratio : (num * powDen 2 e : ℚ) = m * (den * powNum 2 e) := by linarith
    exact_mod_cast hratio
  have hpos : 0 < den * powNum 2 e := Nat.mul_pos (Nat.pos_of_ne_zero hden) (Nat.pow_pos (by norm_num))
  unfold roundRatio
  rw [if_neg hnum]
  simp only
  rw [hexp, hscaled, roundHalfEven_mul hpos, twoPow_eq, Nat.min_eq_left hcode]

theorem ratio_eq_magnitude (x : Binary fmt) :
    ((x.significand * powNum 2 x.exponent : Nat) / (powDen 2 x.exponent : Nat) : ℚ) = x.magnitude := by
  have hpow := powNum_div_powDen 2 (by norm_num) x.exponent
  push_cast at hpow ⊢
  rw [mul_div_assoc, hpow, magnitude]

/-! ## From single to double -/

/-- A significand of the single format, moved up to a full one of the double format. -/
theorem fits_double {m : Nat} {e : Int} (hm : m ≠ 0) (h : BinaryFormat.single.Fits m e) (he : e ≤ 104) :
    BinaryFormat.double.Fits (m * 2 ^ (52 - m.log2)) (e - (52 - m.log2 : Nat)) ∧
      (e - (52 - m.log2 : Nat) - BinaryFormat.double.quantum).toNat * 2 ^ 52 + m * 2 ^ (52 - m.log2) <
        BinaryFormat.double.infinityCode := by
  have hquantum : BinaryFormat.double.quantum = -1074 := rfl
  have hinf : BinaryFormat.double.infinityCode = 2047 * 2 ^ 52 := rfl
  have hle : (-149 : Int) ≤ e := h.quantum_le
  have hlog : m.log2 < 24 := (Nat.log2_lt hm).2 h.lt
  have hup : m * 2 ^ (52 - m.log2) < 2 ^ 53 := by
    calc m * 2 ^ (52 - m.log2) < 2 ^ (m.log2 + 1) * 2 ^ (52 - m.log2) :=
          Nat.mul_lt_mul_of_pos_right Nat.lt_log2_self (by positivity)
      _ = 2 ^ 53 := by
        rw [← Nat.pow_add]
        congr 1
        omega
  have hlow : 2 ^ 52 ≤ m * 2 ^ (52 - m.log2) := by
    calc 2 ^ 52 = 2 ^ m.log2 * 2 ^ (52 - m.log2) := by
          rw [← Nat.pow_add]
          congr 1
          omega
      _ ≤ m * 2 ^ (52 - m.log2) := Nat.mul_le_mul_right _ (Nat.log2_self_le hm)
  refine ⟨⟨by omega, hup, fun _ => hlow⟩, ?_⟩
  rw [hinf]
  omega

/-- The exponent of a finite number leaves room for a full significand below the power of two at which the format
overflows. -/
theorem exponent_add_lt (hfmt : 2 ≤ fmt.exponentBits) (h : x.isFinite = true) :
    x.exponent + fmt.fractionBits < 2 ^ (fmt.exponentBits - 1) := by
  obtain ⟨half, hhalf⟩ : ∃ half, 2 ^ (fmt.exponentBits - 1) = half + 2 := by
    have hone : 2 ^ 1 ≤ 2 ^ (fmt.exponentBits - 1) := Nat.pow_le_pow_right (by norm_num) (by omega)
    exact ⟨2 ^ (fmt.exponentBits - 1) - 2, by omega⟩
  have hwhole : 2 ^ fmt.exponentBits = 2 * (half + 2) := by
    rw [← hhalf, ← Nat.pow_succ', Nat.succ_eq_add_one, Nat.sub_add_cancel (by omega)]
  have hcode : x.code < (2 ^ fmt.exponentBits - 1) * 2 ^ fmt.fractionBits := of_decide_eq_true h
  have hdiv : x.code / 2 ^ fmt.fractionBits < 2 ^ fmt.exponentBits - 1 :=
    Nat.div_lt_of_lt_mul (by rwa [Nat.mul_comm])
  have hhalf' : (2 : Int) ^ (fmt.exponentBits - 1) = half + 2 := by exact_mod_cast hhalf
  rw [hwhole] at hdiv
  unfold exponent BinaryFormat.quantum
  rw [twoPow_eq, twoPow_eq, hhalf, hhalf']
  push_cast
  omega

theorem exponent_le_of_single {x : Binary32} (h : x.isFinite = true) : x.exponent ≤ 104 := by
  have hlt : x.exponent + (23 : Nat) < 2 ^ 7 := exponent_add_lt (by decide) h
  omega

theorem infinityCode_lt (fmt : BinaryFormat) : fmt.infinityCode < 2 ^ fmt.magnitudeBits := by
  unfold BinaryFormat.infinityCode BinaryFormat.magnitudeBits
  rw [twoPow_eq, twoPow_eq, Nat.pow_add]
  refine Nat.mul_lt_mul_of_pos_right (Nat.sub_lt ?_ Nat.one_pos) ?_ <;> positivity

theorem magnitude_eq_zero (h : x.code = 0) : x.magnitude = 0 := by
  have hsig : x.significand = 0 := by
    have := code_eq x
    omega
  rw [magnitude, hsig]
  simp

/-- A pattern composed of a significand and an exponent that fit is the number they denote. -/
theorem magnitude_ofCode {m : Nat} {e : Int} {negative : Bool} (h : fmt.Fits m e)
    (hlt : (e - fmt.quantum).toNat * 2 ^ fmt.fractionBits + m < 2 ^ fmt.magnitudeBits) :
    (ofCode negative ((e - fmt.quantum).toNat * 2 ^ fmt.fractionBits + m) : Binary fmt).magnitude = m * 2 ^ e := by
  obtain ⟨hsig, hexp⟩ := eq_of_code_eq_add h (code_ofCode negative hlt).1
  rw [magnitude, hsig, hexp]

/-- A finite number keeps its sign and magnitude. -/
theorem convert_double_of_isFinite {x : Binary32} (h : x.isFinite = true) :
    (x.convert .double).negative = x.negative ∧ (x.convert .double).isFinite = true ∧
      (x.convert .double).magnitude = x.magnitude := by
  have hden : powDen 2 x.exponent ≠ 0 := (powDen_pos (by norm_num) _).ne'
  unfold convert
  rw [isNaN_of_isFinite h, isInfinite_of_isFinite h, if_neg (by simp), if_neg (by simp)]
  by_cases hm : x.significand = 0
  · have hround : roundRatio .double (x.significand * powNum 2 x.exponent) (powDen 2 x.exponent) = 0 := by
      unfold roundRatio
      rw [hm, Nat.zero_mul, if_pos rfl]
    have hzero : x.magnitude = 0 := by
      rw [magnitude, hm]
      simp
    rw [hround, hzero]
    obtain ⟨hcode, hneg⟩ := code_ofCode x.negative (show 0 < 2 ^ BinaryFormat.double.magnitudeBits by decide)
    refine ⟨hneg, ?_, magnitude_eq_zero hcode⟩
    unfold isFinite
    rw [hcode]
    decide
  · obtain ⟨hfits, hlt⟩ := fits_double hm x.fits (exponent_le_of_single h)
    have hmagnitude : ((x.significand * 2 ^ (52 - x.significand.log2) : Nat) : ℚ) *
        2 ^ (x.exponent - (52 - x.significand.log2 : Nat)) = x.magnitude := by
      rw [magnitude, zpow_sub₀ (by norm_num), zpow_natCast]
      push_cast
      field_simp
    have hround := roundRatio_eq hden (Nat.mul_ne_zero hm (by positivity)) hfits
      (by rw [ratio_eq_magnitude, hmagnitude]) hlt.le
    have hbits := hlt.trans (infinityCode_lt _)
    obtain ⟨hcode, hneg⟩ := code_ofCode x.negative hbits
    rw [hround]
    refine ⟨hneg, ?_, ?_⟩
    · unfold isFinite
      rw [decide_eq_true_eq]
      exact hcode.trans_lt hlt
    · rw [← hmagnitude]
      exact magnitude_ofCode hfits hbits

theorem convert_double_of_isNaN {x : Binary32} (h : x.isNaN = true) : (x.convert .double).isNaN = true := by
  unfold convert
  rw [if_pos h]
  unfold isNaN
  rw [(code_ofCode x.negative (by decide)).1]
  decide

theorem convert_double_of_isInfinite {x : Binary32} (h : x.isInfinite = true) (hnan : x.isNaN = false) :
    (x.convert .double).negative = x.negative ∧ (x.convert .double).isInfinite = true ∧
      (x.convert .double).isNaN = false := by
  obtain ⟨hcode, hneg⟩ := code_ofCode x.negative (infinityCode_lt _)
  unfold convert
  rw [hnan, if_neg (by simp), if_pos h]
  refine ⟨hneg, ?_, ?_⟩
  · unfold isInfinite
    rw [hcode]
    exact decide_eq_true rfl
  · unfold isNaN
    rw [hcode]
    exact decide_eq_false (Nat.lt_irrefl _)

/-! ## Equal numbers and their conversions -/

theorem isZero_iff_magnitude : x.isZero = true ↔ x.magnitude = 0 := by
  rw [← significand_eq_zero_iff, magnitude]
  have hpos : (2 : ℚ) ^ x.exponent ≠ 0 := by positivity
  simp [hpos]

/-- Patterns other than NaN are one number when they agree in magnitude and, unless it is zero, in sign. -/
theorem same_iff_magnitude (hx : x.isNaN = false) (hy : y.isNaN = false) :
    x.same y = true ↔ x.magnitude = y.magnitude ∧ (x.negative = y.negative ∨ x.magnitude = 0) := by
  unfold same
  simp only [hx, hy, Bool.not_false, Bool.true_and, Bool.or_eq_true, beq_iff_eq, Bool.and_eq_true,
    isZero_iff_magnitude]
  constructor
  · rintro (h | ⟨hx, hy⟩)
    · rw [show x = y from congrArg Binary.mk h]
      exact ⟨rfl, .inl rfl⟩
    · exact ⟨hx.trans hy.symm, .inr hx⟩
  · rintro ⟨h, hneg | hzero⟩
    · exact .inl (congrArg Binary.bits (ext_code (code_eq_of_magnitude_eq h) hneg))
    · exact .inr ⟨hzero, h ▸ hzero⟩

theorem code_eq_of_same (h : x.same y = true) : x.code = y.code := by
  obtain ⟨hx, hy⟩ := isNaN_of_same h
  exact code_eq_of_magnitude_eq ((same_iff_magnitude hx hy).1 h).1

theorem isFinite_eq_of_same (h : x.same y = true) : x.isFinite = y.isFinite := by
  unfold isFinite
  rw [code_eq_of_same h]

/-- The infinities are told apart by their sign. -/
theorem same_iff_of_isInfinite (hfmt : 0 < fmt.infinityCode) (hx : x.isInfinite = true) (hy : y.isInfinite = true)
    (hxnan : x.isNaN = false) (hynan : y.isNaN = false) : x.same y = true ↔ x.negative = y.negative := by
  have hcode : x.code = fmt.infinityCode := of_decide_eq_true hx
  have hzero : x.isZero = false := decide_eq_false (by omega)
  refine ⟨fun h => ?_, same_of_isInfinite hx hy hxnan⟩
  refine ((same_iff_magnitude hxnan hynan).1 h).2.resolve_right fun hmag => ?_
  rw [isZero_iff_magnitude.2 hmag] at hzero
  cases hzero

theorem isFinite_of_isInfinite (h : x.isInfinite = true) : x.isFinite = false := by
  unfold isInfinite at h
  unfold isFinite
  simp only [decide_eq_true_eq, decide_eq_false_iff_not] at h ⊢
  omega

/-- Two single numbers are one number exactly when their conversions are. -/
theorem same_convert_double {x y : Binary32} (hx : x.isNaN = false) (hy : y.isNaN = false) :
    (x.convert .double).same (y.convert .double) = true ↔ x.same y = true := by
  have hmixed : ∀ x y : Binary32, x.isFinite = true → y.isInfinite = true → y.isNaN = false →
      (x.same y = false ∧ y.same x = false) ∧
        (x.convert .double).same (y.convert .double) = false ∧ (y.convert .double).same (x.convert .double) = false := by
    intro x y hx hyinf hy
    have hx' := (convert_double_of_isFinite hx).2.1
    have hyinf' := isFinite_of_isInfinite (convert_double_of_isInfinite hyinf hy).2.1
    have hyfin := isFinite_of_isInfinite hyinf
    refine ⟨⟨?_, ?_⟩, ?_, ?_⟩ <;> refine eq_false_of_ne_true fun h => ?_
    · simp [isFinite_eq_of_same h, hyfin] at hx
    · simp [← isFinite_eq_of_same h, hyfin] at hx
    · simp [isFinite_eq_of_same h, hyinf'] at hx'
    · simp [← isFinite_eq_of_same h, hyinf'] at hx'
  rcases x.isFinite_or with hxfin | ⟨hxinf, -⟩ | hxnan
  · obtain ⟨hxneg, hxfin', hxmag⟩ := convert_double_of_isFinite hxfin
    rcases y.isFinite_or with hyfin | ⟨hyinf, -⟩ | hynan
    · obtain ⟨hyneg, hyfin', hymag⟩ := convert_double_of_isFinite hyfin
      rw [same_iff_magnitude (isNaN_of_isFinite hxfin') (isNaN_of_isFinite hyfin'), same_iff_magnitude hx hy,
        hxneg, hyneg, hxmag, hymag]
    · obtain ⟨⟨h, -⟩, h', -⟩ := hmixed x y hxfin hyinf hy
      rw [h, h']
    · rw [hynan] at hy
      cases hy
  · obtain ⟨hxneg, hxinf', hxnan'⟩ := convert_double_of_isInfinite hxinf hx
    rcases y.isFinite_or with hyfin | ⟨hyinf, -⟩ | hynan
    · obtain ⟨⟨-, h⟩, -, h'⟩ := hmixed y x hyfin hxinf hx
      rw [h, h']
    · obtain ⟨hyneg, hyinf', hynan'⟩ := convert_double_of_isInfinite hyinf hy
      rw [same_iff_of_isInfinite (by decide) hxinf' hyinf' hxnan' hynan',
        same_iff_of_isInfinite (by decide) hxinf hyinf hx hy, hxneg, hyneg]
    · rw [hynan] at hy
      cases hy
  · rw [hxnan] at hx
    cases hx

theorem isNaN_convert_double (x : Binary32) : (x.convert .double).isNaN = x.isNaN := by
  rcases x.isFinite_or with h | ⟨hinf, hnan⟩ | hnan
  · rw [isNaN_of_isFinite h, isNaN_of_isFinite (convert_double_of_isFinite h).2.1]
  · rw [hnan, (convert_double_of_isInfinite hinf hnan).2.2]
  · rw [hnan, convert_double_of_isNaN hnan]

/-- The text of a single number, through the double format, identifies the number. -/
theorem normalized_convert_eq_iff {x y : Binary32} :
    (x.convert .double).normalized = (y.convert .double).normalized ↔ x.Alike y := by
  rw [normalized_eq_iff (by decide)]
  unfold Alike
  rw [isNaN_convert_double, isNaN_convert_double]
  cases hx : x.isNaN with
  | true => simp [same_eq_false (.inl hx), same_eq_false (.inl (convert_double_of_isNaN hx))]
  | false =>
    cases hy : y.isNaN with
    | true => simp [same_eq_false (.inr hy), same_eq_false (.inr (convert_double_of_isNaN hy))]
    | false => simp [same_convert_double hx hy]

end Binary

end ApiShape
