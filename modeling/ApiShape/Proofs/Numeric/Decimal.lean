/-
The shortest decimal of a finite number reads back as the number. Rounding looks at the ratio of its two
arguments only, so that zeros moved between a coefficient and its exponent do not matter; every decimal that
the search takes from a grid was checked to read back, and the exact value, which is what remains when no
grid has one, rounds to the number itself.
-/
import ApiShape.Numeric.Decimal
import ApiShape.Proofs.Numeric.Exact

namespace ApiShape

namespace Binary

/-! ## Ratios -/

theorem roundHalfEven_mul_mul (a b : Nat) {k : Nat} (hk : 0 < k) :
    roundHalfEven (a * k) (b * k) = roundHalfEven a b := by
  have hlt : ∀ i j : Nat, i * k < j * k ↔ i < j := fun i j => Nat.mul_lt_mul_right hk
  unfold roundHalfEven
  rw [Nat.mul_div_mul_right a b hk, Nat.mul_mod_mul_right, ← Nat.mul_assoc]
  simp only [hlt]

theorem ratioLog2_mul_mul {num den k : Nat} (hnum : num ≠ 0) (hden : den ≠ 0) (hk : k ≠ 0) :
    ratioLog2 (num * k) (den * k) = ratioLog2 num den := by
  have hratio : ((num * k : Nat) : ℚ) / (den * k : Nat) = num / den := by
    have hk : (k : ℚ) ≠ 0 := by exact_mod_cast hk
    push_cast
    exact mul_div_mul_right _ _ hk
  have hspec := ratioLog2_spec (Nat.mul_ne_zero hnum hk) (Nat.mul_ne_zero hden hk)
  rw [hratio] at hspec
  exact binade_unique hspec (ratioLog2_spec hnum hden)

theorem roundRatio_mul_mul (fmt : BinaryFormat) (num : Nat) {den k : Nat} (hden : den ≠ 0) (hk : k ≠ 0) :
    roundRatio fmt (num * k) (den * k) = roundRatio fmt num den := by
  by_cases hnum : num = 0
  · rw [hnum, Nat.zero_mul]
    rfl
  · unfold roundRatio
    rw [if_neg hnum, if_neg (Nat.mul_ne_zero hnum hk), ratioLog2_mul_mul hnum hden hk]
    dsimp only
    rw [Nat.mul_right_comm, Nat.mul_right_comm den, roundHalfEven_mul_mul _ _ (Nat.pos_of_ne_zero hk)]

/-- Rounding looks at the ratio only. -/
theorem roundRatio_congr (fmt : BinaryFormat) {num den num' den' : Nat} (hden : den ≠ 0) (hden' : den' ≠ 0)
    (h : (num / den : ℚ) = num' / den') : roundRatio fmt num den = roundRatio fmt num' den' := by
  have hcross : num * den' = num' * den := by
    have hden : (den : ℚ) ≠ 0 := by exact_mod_cast hden
    have hden' : (den' : ℚ) ≠ 0 := by exact_mod_cast hden'
    rw [div_eq_div_iff hden hden'] at h
    exact_mod_cast h
  rw [← roundRatio_mul_mul fmt num hden hden', ← roundRatio_mul_mul fmt num' hden' hden, hcross, Nat.mul_comm den]

end Binary

/-! ## Digits -/

theorem digitCount_pos (n : Nat) : 0 < digitCount n := Nat.length_toDigits_pos

theorem lt_pow_digitCount (n : Nat) : n < 10 ^ digitCount n :=
  (Nat.length_toDigits_le_iff (by norm_num) (digitCount_pos n)).1 (Nat.le_refl _)

theorem pow_le_of_digitCount {n : Nat} (h : n ≠ 0) : 10 ^ (digitCount n - 1) ≤ n := by
  rcases Nat.eq_zero_or_pos (digitCount n - 1) with hone | hpos
  · rw [hone]
    exact Nat.pos_of_ne_zero h
  · by_contra hlt
    have hle := (Nat.length_toDigits_le_iff (by norm_num) hpos).2 (Nat.not_le.1 hlt)
    change digitCount n ≤ digitCount n - 1 at hle
    omega

theorem digitCount_mul_ten {n : Nat} (h : n ≠ 0) : digitCount (n * 10) = digitCount n + 1 := by
  have happend := Nat.toDigits_append_toDigits (by norm_num : 1 < 10) (Nat.pos_of_ne_zero h) (by norm_num : 0 < 10)
  have hlength := congrArg List.length happend
  rw [List.length_append, Nat.add_zero, Nat.mul_comm 10] at hlength
  exact hlength.symm

theorem digitCount_mul_pow {n : Nat} (h : n ≠ 0) (k : Nat) : digitCount (n * 10 ^ k) = digitCount n + k := by
  induction k with
  | zero => rw [Nat.pow_zero, Nat.mul_one, Nat.add_zero]
  | succ k ih =>
    have hne : n * 10 ^ k ≠ 0 := Nat.mul_ne_zero h (by positivity)
    rw [Nat.pow_succ, ← Nat.mul_assoc, digitCount_mul_ten hne, ih, Nat.add_assoc]

/-- A decimal lies between the powers of ten that its digits and its exponent say. -/
theorem decimal_bounds {c : Nat} (hc : c ≠ 0) (p : Int) :
    (10 : ℚ) ^ (p + digitCount c - 1) ≤ c * 10 ^ p ∧ (c : ℚ) * 10 ^ p < 10 ^ (p + digitCount c) := by
  have hpow : (0 : ℚ) < 10 ^ p := by positivity
  have hcount := digitCount_pos c
  have hlow : (10 : ℚ) ^ (digitCount c - 1) ≤ c := by exact_mod_cast pow_le_of_digitCount hc
  have hhigh : (c : ℚ) < 10 ^ digitCount c := by exact_mod_cast lt_pow_digitCount c
  rw [show p + digitCount c - 1 = ((digitCount c - 1 : Nat) : Int) + p by omega, add_comm p, zpow_add₀ (by norm_num),
    zpow_add₀ (by norm_num), zpow_natCast, zpow_natCast]
  exact ⟨mul_le_mul_of_nonneg_right hlow hpow.le, mul_lt_mul_of_pos_right hhigh hpow⟩

/-! ## Decimals of one value -/

namespace Binary

theorem ratio_eq_scaled (c : Nat) (p : Int) :
    ((c * powNum 10 p : Nat) / (powDen 10 p : Nat) : ℚ) = c * 10 ^ p := by
  have hpow := powNum_div_powDen 10 (by norm_num) p
  push_cast at hpow ⊢
  rw [mul_div_assoc, hpow]

/-- Zeros at the end of a coefficient count as much as the exponent. -/
theorem roundDecimal_mul_pow (fmt : BinaryFormat) (c k : Nat) (p : Int) :
    roundDecimal fmt (c * 10 ^ k) p = roundDecimal fmt c (p + k) := by
  by_cases hc : c = 0
  · rw [hc, Nat.zero_mul]
    rfl
  · have hne : c * 10 ^ k ≠ 0 := Nat.mul_ne_zero hc (by positivity)
    have htop : p + (digitCount (c * 10 ^ k) : Int) = p + k + digitCount c := by
      rw [digitCount_mul_pow hc]
      push_cast
      ring
    have hscaled : roundScaled fmt (c * 10 ^ k) p = roundScaled fmt c (p + k) := by
      refine roundRatio_congr fmt (powDen_pos (by norm_num) _).ne' (powDen_pos (by norm_num) _).ne' ?_
      rw [ratio_eq_scaled, ratio_eq_scaled, zpow_add₀ (by norm_num), zpow_natCast]
      push_cast
      ring
    unfold roundDecimal
    dsimp only
    rw [if_neg hc, if_neg hne, htop, hscaled]

variable {fmt : BinaryFormat} {x : Binary fmt}

/-- The magnitude of a finite number is below the power of two at which the format overflows. -/
theorem magnitude_lt (hfmt : 2 ≤ fmt.exponentBits) (h : x.isFinite = true) :
    x.magnitude < 2 ^ twoPow (fmt.exponentBits - 1) := by
  have hexponent : x.exponent + fmt.fractionBits < ((twoPow (fmt.exponentBits - 1) : Nat) : Int) := by
    rw [twoPow_eq]
    exact_mod_cast exponent_add_lt hfmt h
  calc x.magnitude = x.significand * 2 ^ x.exponent := rfl
    _ < 2 ^ (fmt.fractionBits + 1) * 2 ^ x.exponent :=
      mul_lt_mul_of_pos_right (by exact_mod_cast x.fits.lt) (by positivity)
    _ = 2 ^ (((fmt.fractionBits + 1 : Nat) : Int) + x.exponent) := by rw [zpow_add₀ (by norm_num), zpow_natCast]
    _ ≤ 2 ^ ((twoPow (fmt.exponentBits - 1) : Nat) : Int) := zpow_le_zpow_right₀ (by norm_num) (by omega)
    _ = 2 ^ twoPow (fmt.exponentBits - 1) := zpow_natCast _ _

/-- The magnitude of a number that is not zero is at least the least one. -/
theorem le_magnitude (h : x.isZero = false) : (2 : ℚ) ^ fmt.quantum ≤ x.magnitude := by
  have hsig : 1 ≤ x.significand := by
    rw [Nat.one_le_iff_ne_zero, ne_eq, significand_eq_zero_iff, h]
    exact Bool.false_ne_true
  calc (2 : ℚ) ^ fmt.quantum ≤ 2 ^ x.exponent := zpow_le_zpow_right₀ (by norm_num) x.fits.quantum_le
    _ ≤ x.significand * 2 ^ x.exponent := le_mul_of_one_le_left (by positivity) (by exact_mod_cast hsig)

/-- The digit count of a decimal that is a number of the format settles it neither as infinite nor as too small. -/
theorem top_of_magnitude (hfmt : 2 ≤ fmt.exponentBits) (hfinite : x.isFinite = true) (hzero : x.isZero = false) {c : Nat}
    {p : Int} (hc : c ≠ 0) (hvalue : (c : ℚ) * 10 ^ p = x.magnitude) :
    p + digitCount c ≤ (twoPow (fmt.exponentBits - 1) : Nat) ∧ fmt.quantum ≤ p + digitCount c := by
  have htwo : 2 ^ 1 ≤ twoPow (fmt.exponentBits - 1) := by
    rw [twoPow_eq]
    exact Nat.pow_le_pow_right (by norm_num) (by omega)
  obtain ⟨hlow, hhigh⟩ := decimal_bounds hc p
  rw [hvalue] at hlow hhigh
  constructor
  · -- A decimal above the largest power of two would be above every finite number.
    by_contra hlt
    refine absurd (magnitude_lt hfmt hfinite) (not_lt.2 ?_)
    calc (2 : ℚ) ^ twoPow (fmt.exponentBits - 1) ≤ 10 ^ twoPow (fmt.exponentBits - 1) :=
          pow_le_pow_left₀ (by norm_num) (by norm_num) _
      _ = 10 ^ ((twoPow (fmt.exponentBits - 1) : Nat) : Int) := (zpow_natCast _ _).symm
      _ ≤ 10 ^ (p + digitCount c - 1) := zpow_le_zpow_right₀ (by norm_num) (by omega)
      _ ≤ x.magnitude := hlow
  · -- One below the least number would be below every number but zero.
    by_contra hlt
    have hquantum : fmt.quantum ≤ 0 := by
      unfold BinaryFormat.quantum
      omega
    obtain ⟨n, hn⟩ : ∃ n : Nat, p + digitCount c = -(n : Int) := ⟨(-(p + digitCount c)).toNat, by omega⟩
    refine absurd (le_magnitude hzero) (not_le.2 ?_)
    calc x.magnitude < 10 ^ (p + digitCount c) := hhigh
      _ = ((10 : ℚ) ^ n)⁻¹ := by rw [hn, zpow_neg, zpow_natCast]
      _ ≤ ((2 : ℚ) ^ n)⁻¹ := inv_anti₀ (by positivity) (pow_le_pow_left₀ (by norm_num) (by norm_num) _)
      _ = 2 ^ (p + digitCount c) := by rw [hn, zpow_neg, zpow_natCast]
      _ ≤ 2 ^ fmt.quantum := zpow_le_zpow_right₀ (by norm_num) (by omega)

/-- A decimal whose value is a number of the format rounds to it. -/
theorem roundDecimal_of_magnitude (hfmt : 2 ≤ fmt.exponentBits) (hfinite : x.isFinite = true) (hzero : x.isZero = false)
    {c : Nat} {p : Int} (hvalue : (c : ℚ) * 10 ^ p = x.magnitude) : roundDecimal fmt c p = x.code := by
  have hc : c ≠ 0 := by
    rintro rfl
    have hlow := le_magnitude hzero
    rw [← hvalue, Nat.cast_zero, zero_mul] at hlow
    exact absurd hlow (not_le.2 (by positivity))
  have hsig : x.significand ≠ 0 := by
    rw [ne_eq, significand_eq_zero_iff, hzero]
    exact Bool.false_ne_true
  obtain ⟨htop, hbottom⟩ := top_of_magnitude hfmt hfinite hzero hc hvalue
  have hcode : x.code ≤ fmt.infinityCode := (of_decide_eq_true hfinite : x.code < _).le
  have hround := roundRatio_eq (powDen_pos (by norm_num : 0 < 10) p).ne' hsig x.fits (by rw [ratio_eq_scaled]; exact hvalue)
    (by rw [← code_eq]; exact hcode)
  unfold roundDecimal
  dsimp only
  rw [if_neg hc, if_neg (not_lt.2 htop), if_neg (not_lt.2 hbottom)]
  exact hround.trans x.code_eq.symm

theorem exactDecimal_eq_magnitude (x : Binary fmt) : (x.exactDecimal.1 : ℚ) * 10 ^ x.exactDecimal.2 = x.magnitude := by
  have htwo := powNum_div_powDen 2 (by norm_num) x.exponent
  have hfive := powNum_div_powDen 5 (by norm_num) x.exponent
  unfold exactDecimal magnitude
  rcases le_total 0 x.exponent with hnonneg | hneg
  · rw [powDen_of_nonneg 2 hnonneg] at htwo
    rw [powDen_of_nonneg 5 hnonneg, min_eq_right hnonneg, zpow_zero]
    push_cast at htwo ⊢
    rw [← htwo]
    ring
  · -- Ten to a negative exponent is two to it, times five to it, which the coefficient makes up for.
    have hpos : (powDen 5 x.exponent : ℚ) ≠ 0 := by exact_mod_cast (powDen_pos (by norm_num) x.exponent).ne'
    rw [powNum_of_nonpos 5 hneg] at hfive
    rw [powNum_of_nonpos 2 hneg, min_eq_left hneg, show (10 : ℚ) = 2 * 5 by norm_num, mul_zpow]
    push_cast at hfive ⊢
    rw [← hfive]
    field_simp

end Binary

/-! ## The search -/

section

variable {fmt : BinaryFormat} {code num den : Nat}

theorem nearer_eq (num den low : Nat) : nearer num den low = low ∨ nearer num den low = low + 1 := by
  unfold nearer
  dsimp only
  split
  · exact .inl rfl
  · split
    · exact .inr rfl
    · omega

/-- What a grid offers was checked to read back. -/
theorem roundDecimal_of_onGrid? {p : Int} {c : Nat} (h : onGrid? fmt code num den p = some c) :
    Binary.roundDecimal fmt c p = code := by
  unfold onGrid? at h
  dsimp only at h
  split at h
  · rename_i hboth
    obtain ⟨hbelow, habove⟩ := Bool.and_eq_true_iff.1 hboth
    cases h
    rcases nearer_eq (num * powDen 10 p) (den * powNum 10 p) (num * powDen 10 p / (den * powNum 10 p)) with h | h
    · rw [h, of_decide_eq_true hbelow]
    · rw [h, of_decide_eq_true habove]
  · split at h
    · rename_i hbelow
      cases h
      exact hbelow
    · split at h
      · rename_i habove
        cases h
        exact habove
      · cases h

theorem roundDecimal_searchGrids {exact : Nat × Int} (hexact : Binary.roundDecimal fmt exact.1 exact.2 = code)
    (count : Nat) : ∀ p, Binary.roundDecimal fmt (searchGrids fmt code num den exact count p).1
      (searchGrids fmt code num den exact count p).2 = code := by
  induction count with
  | zero => exact fun p => hexact
  | succ count ih =>
    intro p
    unfold searchGrids
    cases hgrid : onGrid? fmt code num den p with
    | none => exact ih (p - 1)
    | some c => exact roundDecimal_of_onGrid? hgrid

theorem roundDecimal_dropZeros (fmt : BinaryFormat) (count : Nat) : ∀ c p,
    Binary.roundDecimal fmt (dropZeros count c p).1 (dropZeros count c p).2 = Binary.roundDecimal fmt c p := by
  induction count with
  | zero => exact fun c p => rfl
  | succ count ih =>
    intro c p
    unfold dropZeros
    split
    · rename_i hzero
      have hc : c / 10 * 10 ^ 1 = c := by omega
      have hmoved := Binary.roundDecimal_mul_pow fmt (c / 10) 1 p
      rw [hc] at hmoved
      exact (ih _ _).trans hmoved.symm
    · rfl

theorem Binary.roundDecimal_shortest (hfmt : 2 ≤ fmt.exponentBits) {x : Binary fmt} (hfinite : x.isFinite = true)
    (hzero : x.isZero = false) : roundDecimal fmt x.shortest.1 x.shortest.2 = x.code := by
  unfold shortest
  dsimp only
  rw [roundDecimal_dropZeros]
  exact roundDecimal_searchGrids (roundDecimal_of_magnitude hfmt hfinite hzero x.exactDecimal_eq_magnitude) _ _

end

/-! ## Written and read back -/

namespace DecimalLayout

theorem negative_decimal (layout : DecimalLayout) (negative : Bool) (c : Nat) (p : Int) :
    (layout.decimal negative c p).negative = negative := by
  unfold decimal
  dsimp only
  split
  · split <;> rfl
  · rfl

/-- However a decimal is laid out, its value is rounded in the same way. -/
theorem roundDecimal_decimal (fmt : BinaryFormat) (layout : DecimalLayout) (negative : Bool) (c : Nat) (p : Int) :
    Binary.roundDecimal fmt (layout.decimal negative c p).coefficient
      ((layout.decimal negative c p).exponent - (layout.decimal negative c p).scale) = Binary.roundDecimal fmt c p := by
  unfold decimal
  dsimp only
  split
  · split
    · rename_i hneg
      congr 1
      dsimp only
      omega
    · rename_i hnonneg
      have hmoved := Binary.roundDecimal_mul_pow fmt c (p + 1).toNat (0 - (1 : Nat))
      rwa [show (0 - (1 : Nat) : Int) + (p + 1).toNat = p by omega] at hmoved
  · have := digitCount_pos c
    congr 1
    dsimp only
    omega

/-- A finite number, written as its shortest decimal, is read back as it was, the sign of a zero included. -/
theorem toBinary?_ofBinary {fmt : BinaryFormat} (hfmt : 2 ≤ fmt.exponentBits) (layout : DecimalLayout) {x : Binary fmt}
    (hfinite : x.isFinite = true) : (layout.ofBinary x).toBinary? fmt = some x := by
  have hlt : x.code < fmt.infinityCode := of_decide_eq_true hfinite
  obtain ⟨hcode, hnegative⟩ := Binary.code_ofCode x.negative x.code_lt
  have hself : Binary.ofCode x.negative x.code = x := Binary.ext_code hcode hnegative
  have hread : ∀ d : Decimal, d.negative = x.negative →
      Binary.roundDecimal fmt d.coefficient (d.exponent - d.scale) = x.code → d.toBinary? fmt = some x := by
    intro d hneg hround
    unfold Decimal.toBinary?
    dsimp only
    rw [hround, hneg, if_pos hlt, hself]
  unfold ofBinary
  split
  · rename_i hzero
    refine hread _ rfl ?_
    rw [show x.code = 0 from of_decide_eq_true hzero]
    rfl
  · rename_i hzero
    refine hread _ (layout.negative_decimal x.negative _ _) ?_
    rw [roundDecimal_decimal]
    exact Binary.roundDecimal_shortest hfmt hfinite (eq_false_of_ne_true hzero)

end DecimalLayout

end ApiShape
