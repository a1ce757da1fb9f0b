/-
The normalized text is what the scaling loops write, and it denotes the number. Each round of the first two loops keeps
the magnitude times the power of two counted so far, and each round of the last one moves a digit from the number to
the text, so that all three end for every pattern. What they end with is the one scale that brings the magnitude above
one half and up to one, and its digits.
-/
import ApiShape.Proofs.Evidence.Reading
import ApiShape.Proofs.Numeric.Arithmetic
import Mathlib.Algebra.BigOperators.Fin
import Mathlib.Algebra.BigOperators.Field
import Mathlib.Algebra.Order.Archimedean.Basic
import Mathlib.Logic.Function.Iterate

namespace ApiShape

/-! ## Digits and scales -/

/-- The digits are places after the unit, each worth half of the one before it. -/
theorem digitsValue_eq_sum (digits : List Bool) :
    digitsValue digits = ∑ i : Fin digits.length, (digits[i].toNat / 2 ^ (i : Nat) : ℚ) := by
  induction digits with
  | nil => simp [digitsValue]
  | cons one rest ih =>
    rw [digitsValue, ih, Finset.sum_div]
    refine Eq.trans ?_ (Fin.sum_univ_succ (n := rest.length) _).symm
    cases one <;> simp [pow_succ, div_div]

theorem fractionDigits_zero (k : Nat) : fractionDigits k 0 = [] := by
  cases k <;> rfl

/-- Digits are taken up to the last one. -/
theorem getLast?_fractionDigits {k n : Nat} (hn : n ≠ 0) (hlt : n < 2 ^ (k + 1)) :
    (fractionDigits k n).getLast? = some true := by
  induction k generalizing n with
  | zero =>
    unfold fractionDigits
    rw [if_neg hn]
    rfl
  | succ k ih =>
    unfold fractionDigits
    rw [if_neg hn, twoPow_eq]
    by_cases hrest : n % 2 ^ (k + 1) = 0
    · have hle : 2 ^ (k + 1) ≤ n := Nat.le_of_dvd (Nat.pos_of_ne_zero hn) (Nat.dvd_of_mod_eq_zero hrest)
      rw [hrest, fractionDigits_zero, decide_eq_true hle]
      rfl
    · rw [List.getLast?_cons_of_ne_nil (fractionDigits_ne_nil hrest)]
      exact ih hrest (Nat.mod_lt _ (by positivity))

/-- The power of two next to a number, from above. -/
theorem ceilLog2_bounds {m : Nat} (hm : m ≠ 0) : m ≤ 2 ^ ceilLog2 m ∧ 2 ^ ceilLog2 m < 2 * m := by
  have hle := Nat.log2_self_le hm
  have hlt : m < 2 ^ (m.log2 + 1) := Nat.lt_log2_self
  unfold ceilLog2
  rw [twoPow_eq]
  rw [Nat.pow_succ] at hlt
  split
  · omega
  · rw [Nat.pow_succ]
    omega

/-- Only one scale brings a number above one half and up to one. -/
theorem scale_unique {v : ℚ} {e f : Int} (he : 1 / 2 < v / 2 ^ e ∧ v / 2 ^ e ≤ 1)
    (hf : 1 / 2 < v / 2 ^ f ∧ v / 2 ^ f ≤ 1) : e = f := by
  have hbounds : ∀ e : Int, 1 / 2 < v / 2 ^ e ∧ v / 2 ^ e ≤ 1 → (2 : ℚ) ^ (e - 1) < v ∧ v ≤ 2 ^ e := by
    intro e he
    have hpos : (0 : ℚ) < 2 ^ e := by positivity
    rw [lt_div_iff₀ hpos, div_le_iff₀ hpos, one_mul] at he
    refine ⟨?_, he.2⟩
    rw [zpow_sub_one₀ (by norm_num)]
    linarith [he.1]
  obtain ⟨hle, hge⟩ := hbounds e he
  obtain ⟨hlf, hgf⟩ := hbounds f hf
  have hef := (zpow_lt_zpow_iff_right₀ (by norm_num : (1 : ℚ) < 2)).1 (hle.trans_le hgf)
  have hfe := (zpow_lt_zpow_iff_right₀ (by norm_num : (1 : ℚ) < 2)).1 (hlf.trans_le hge)
  omega

namespace Binary

section

variable {fmt : BinaryFormat} {x y : Binary fmt}

theorem magnitude_div_scale (x : Binary fmt) :
    x.magnitude / 2 ^ x.scale = x.significand / 2 ^ ceilLog2 x.significand := by
  unfold magnitude scale
  rw [zpow_add₀ (by norm_num), zpow_natCast]
  field_simp

theorem significand_ne_zero (h : x.isZero = false) : x.significand ≠ 0 := by
  rw [ne_eq, significand_eq_zero_iff, h]
  exact Bool.false_ne_true

theorem scale_bounds (h : x.isZero = false) : 1 / 2 < x.magnitude / 2 ^ x.scale ∧ x.magnitude / 2 ^ x.scale ≤ 1 := by
  obtain ⟨hle, hlt⟩ := ceilLog2_bounds (significand_ne_zero h)
  have hpos : (0 : ℚ) < 2 ^ ceilLog2 x.significand := by positivity
  rw [magnitude_div_scale, lt_div_iff₀ hpos, div_le_iff₀ hpos]
  have hle : (x.significand : ℚ) ≤ 2 ^ ceilLog2 x.significand := by exact_mod_cast hle
  have hlt : (2 : ℚ) ^ ceilLog2 x.significand < 2 * x.significand := by exact_mod_cast hlt
  constructor <;> linarith

/-- The numbers and NaN are what their readings are. -/
theorem alike_iff_reading (hfmt : 0 < fmt.infinityCode) : x.Alike y ↔ x.reading = y.reading := by
  have hnan : ∀ z : Binary fmt, z.reading = .nan → z.isNaN = true := by
    intro z h
    rcases z.isFinite_or with hz | ⟨hz, hnan⟩ | hz
    · rw [reading_of_isFinite hz] at h
      cases h
    · rw [reading_of_isInfinite hz hnan] at h
      cases h
    · exact hz
  constructor
  · rintro (h | ⟨hx, hy⟩)
    · exact ((same_iff_reading hfmt).1 h).1
    · rw [reading_of_isNaN hx, reading_of_isNaN hy]
  · intro h
    by_cases hx : x.reading = .nan
    · exact .inr ⟨hnan x hx, hnan y (h.symm.trans hx)⟩
    · exact .inl ((same_iff_reading hfmt).2 ⟨h, hx⟩)

end

namespace Scaling

/-! ## Rounds -/

section

variable {fmt : BinaryFormat} {s t u : Scaling fmt}

/-- Some rounds lead from one state to another. -/
def Reaches (s t : Scaling fmt) : Prop := ∃ n, step^[n] s = t

theorem reaches_of_eq (h : s = t) : Reaches s t := ⟨0, h⟩

theorem Reaches.of_step (h : step s = t) : Reaches s t := ⟨1, h⟩

theorem Reaches.head (h : step s = t) (h' : Reaches t u) : Reaches s u := by
  obtain ⟨n, rfl⟩ := h'
  exact ⟨n + 1, congrArg step^[n] h⟩

theorem Reaches.trans (h : Reaches s t) (h' : Reaches t u) : Reaches s u := by
  obtain ⟨m, rfl⟩ := h
  obtain ⟨n, rfl⟩ := h'
  exact ⟨n + m, Function.iterate_add_apply step n m s⟩

end

variable {x : Binary64} {v : ℚ} {sign text : String} {e : Int}

theorem step_down_of_lt (hx : Holds x v) (h : 1 < v) : step (.down sign x e) = .down sign x.halve (e + 1) :=
  if_pos ((Holds.one.lt_iff hx).2 h)

theorem step_down_of_le (hx : Holds x v) (h : v ≤ 1) : step (.down sign x e) = .up sign x e :=
  if_neg (mt (Holds.one.lt_iff hx).1 h.not_gt)

theorem step_up_of_le (hx : Holds x v) (h : v ≤ 1 / 2) : step (.up sign x e) = .up sign x.twice (e - 1) :=
  if_pos ((hx.le_iff Holds.half).2 h)

theorem step_up_of_lt (hx : Holds x v) (h : 1 / 2 < v) :
    step (.up sign x e) = .digits x (sign ++ toString e ++ ":") :=
  if_neg (mt (hx.le_iff Holds.half).1 h.not_ge)

theorem step_digits_of_zero (hx : Holds x v) (h : v = 0) : step (.digits x text) = .done text :=
  if_pos (hx.same_zero_iff.2 h)

theorem step_digits_of_le (hx : Holds x v) (h : 1 ≤ v) :
    step (.digits x text) = .digits x.lessOne.twice (text.push '1') := by
  have hzero : v ≠ 0 := by linarith
  exact (if_neg (mt hx.same_zero_iff.1 hzero)).trans (if_pos ((Holds.one.le_iff hx).2 h))

theorem step_digits_of_lt (hx : Holds x v) (hzero : v ≠ 0) (h : v < 1) :
    step (.digits x text) = .digits x.twice (text.push '0') :=
  (if_neg (mt hx.same_zero_iff.1 hzero)).trans (if_neg (mt (Holds.one.le_iff hx).1 h.not_ge))

/-! ## Loops -/

/-- The first loop ends with a number up to one. Halving and counting keep the value. -/
theorem reaches_up (sign : String) (k : Nat) (hx : Holds x v) (hpos : 0 < v) (hk : v ≤ 2 ^ k) :
    ∃ y w f, Reaches (.down sign x e) (.up sign y f) ∧ Holds y w ∧ 0 < w ∧ w ≤ 1 ∧ w * 2 ^ f = v * 2 ^ e := by
  -- by a bound on the rounds that are left; `v * 2 ^ e` is the same in all of them
  induction k generalizing x v e with
  | zero =>
    rw [pow_zero] at hk
    exact ⟨x, v, e, .of_step (step_down_of_le hx hk), hx, hpos, hk, rfl⟩
  | succ k ih =>
    rcases le_or_gt v 1 with hle | hgt
    · exact ⟨x, v, e, .of_step (step_down_of_le hx hle), hx, hpos, hle, rfl⟩
    · rw [pow_succ] at hk
      obtain ⟨y, w, f, hreach, hy, hwpos, hwle, hvalue⟩ := ih (e := e + 1) (hx.halve hgt) (by linarith) (by linarith)
      refine ⟨y, w, f, .head (step_down_of_lt hx hgt) hreach, hy, hwpos, hwle, ?_⟩
      rw [hvalue, zpow_add_one₀ (by norm_num)]
      ring

/-- The second loop ends with a number above one half. Doubling and counting keep the value. -/
theorem reaches_digits (k : Nat) (hx : Holds x v) (hle : v ≤ 1) (hk : 1 / 2 < v * 2 ^ k) :
    ∃ (y : Binary64) (w : ℚ) (f : Int), Reaches (.up sign x e) (.digits y (sign ++ toString f ++ ":")) ∧ Holds y w ∧
      1 / 2 < w ∧ w ≤ 1 ∧ w * 2 ^ f = v * 2 ^ e := by
  induction k generalizing x v e with
  | zero =>
    rw [pow_zero, mul_one] at hk
    exact ⟨x, v, e, .of_step (step_up_of_lt hx hk), hx, hk, hle, rfl⟩
  | succ k ih =>
    rcases le_or_gt v (1 / 2) with hhalf | hgt
    · rw [pow_succ] at hk
      obtain ⟨y, w, f, hreach, hy, hwgt, hwle, hvalue⟩ := ih (e := e - 1) (hx.twice hle) (by linarith) (by linarith)
      refine ⟨y, w, f, .head (step_up_of_le hx hhalf) hreach, hy, hwgt, hwle, ?_⟩
      rw [hvalue, zpow_sub_one₀ (by norm_num)]
      ring
    · exact ⟨x, v, e, .of_step (step_up_of_lt hx hgt), hx, hgt, hle, rfl⟩

/-- What is left of a number up to two when its unit is taken off, in the next place. -/
theorem next_of_le {k n : Nat} (hle : 2 ^ (k + 1) ≤ n) (hlt : n < 2 ^ (k + 2)) :
    2 * (n / 2 ^ (k + 1) - 1 : ℚ) = (n % 2 ^ (k + 1) : Nat) / 2 ^ k := by
  have hmod : n % 2 ^ (k + 1) = n - 2 ^ (k + 1) := by
    rw [Nat.mod_eq_sub_mod hle, Nat.mod_eq_of_lt]
    rw [pow_succ] at hlt
    omega
  rw [hmod, Nat.cast_sub hle]
  push_cast
  field_simp
  ring

theorem next_of_lt {k n : Nat} (hlt : n < 2 ^ (k + 1)) :
    2 * (n / 2 ^ (k + 1) : ℚ) = (n % 2 ^ (k + 1) : Nat) / 2 ^ k := by
  rw [Nat.mod_eq_of_lt hlt]
  field_simp
  ring

/-- The text of digits. -/
def bitText (digits : List Bool) : String := String.ofList (digits.map (fun one => if one then '1' else '0'))

theorem bitText_cons (text : String) (one : Bool) (rest : List Bool) :
    text ++ bitText (one :: rest) = text.push (if one then '1' else '0') ++ bitText rest := by
  rw [← String.toList_inj]
  simp [bitText]

/-- Nothing is written of what is zero. -/
theorem reaches_done_of_zero (hx : Holds x 0) : Reaches (.digits x text) (.done (text ++ bitText [])) :=
  .of_step ((step_digits_of_zero hx rfl).trans (congrArg done String.append_empty.symm))

/-- The last loop writes the digits of the number that is left, one in each round, and ends. -/
theorem reaches_done {k n : Nat} (hx : Holds x (n / 2 ^ k)) (hlt : n < 2 ^ (k + 1)) :
    Reaches (.digits x text) (.done (text ++ bitText (fractionDigits k n))) := by
  -- by the number of places after the point, one of which each round uses up
  induction k generalizing x n text with
  | zero =>
    rw [pow_zero, div_one] at hx
    obtain rfl | rfl : n = 0 ∨ n = 1 := by omega
    · exact reaches_done_of_zero (by rwa [Nat.cast_zero] at hx)
    · rw [Nat.cast_one] at hx
      have hrest : Holds x.lessOne.twice 0 := by simpa using (hx.lessOne le_rfl (by norm_num)).twice (by norm_num)
      exact .head (step_digits_of_le hx le_rfl) (bitText_cons text true [] ▸ reaches_done_of_zero hrest)
  | succ k ih =>
    have hpow : (0 : ℚ) < 2 ^ (k + 1) := by positivity
    have hmod : n % 2 ^ (k + 1) < 2 ^ (k + 1) := Nat.mod_lt _ (by positivity)
    by_cases hn : n = 0
    · subst hn
      exact reaches_done_of_zero (by rwa [Nat.cast_zero, zero_div] at hx)
    · have hzero : (n / 2 ^ (k + 1) : ℚ) ≠ 0 := div_ne_zero (by exact_mod_cast hn) hpow.ne'
      unfold fractionDigits
      rw [if_neg hn, twoPow_eq, bitText_cons]
      by_cases hle : 2 ^ (k + 1) ≤ n
      · -- the unit is one, and comes off before the rest is doubled
        have hone : (1 : ℚ) ≤ n / 2 ^ (k + 1) := by
          rw [le_div_iff₀ hpow, one_mul]
          exact_mod_cast hle
        have htwo : (n / 2 ^ (k + 1) : ℚ) < 2 := by
          rw [div_lt_iff₀ hpow, ← pow_succ']
          exact_mod_cast hlt
        have hrest := (hx.lessOne hone htwo).twice (by linarith)
        rw [decide_eq_true hle]
        exact .head (step_digits_of_le hx hone) (ih (next_of_le hle hlt ▸ hrest) hmod)
      · have hbelow : n < 2 ^ (k + 1) := Nat.lt_of_not_le hle
        have hone : (n / 2 ^ (k + 1) : ℚ) < 1 := by
          rw [div_lt_iff₀ hpow, one_mul]
          exact_mod_cast hbelow
        rw [decide_eq_false hle]
        exact .head (step_digits_of_lt hx hzero hone) (ih (next_of_lt hbelow ▸ hx.twice hone.le) hmod)

/-! ## Texts -/

/-- For a finite number other than zero the loops begin with its magnitude. -/
theorem start_of_isFinite (hfinite : x.isFinite = true) (hzero : x.isZero = false) :
    ∃ y, start x = .down (if x.negative then "-" else "+") y 0 ∧ Holds y x.magnitude := by
  have hnan := isNaN_of_isFinite hfinite
  unfold start
  rw [hnan, isInfinite_of_isFinite hfinite, same_zero hnan, hzero, (compare_zero hnan hzero).1]
  cases hneg : x.negative with
  | true => exact ⟨x.neg, rfl, Holds.neg hfinite hneg⟩
  | false => exact ⟨x, rfl, hfinite, hneg, rfl⟩

/-- From the magnitude of a number the loops come to its scale and its digits. -/
theorem reaches_parts (hfinite : x.isFinite = true) (hzero : x.isZero = false) : Reaches (start x)
    (.done ((if x.negative then "-" else "+") ++ toString x.scale ++ ":" ++ bitText x.scaledDigits)) := by
  obtain ⟨y, hstart, hy⟩ := start_of_isFinite hfinite hzero
  have hpos : 0 < x.magnitude := by
    refine lt_of_le_of_ne x.magnitude_nonneg fun h => ?_
    rw [isZero_iff_magnitude.2 h.symm] at hzero
    cases hzero
  obtain ⟨k, hk⟩ := pow_unbounded_of_one_lt x.magnitude (by norm_num : (1 : ℚ) < 2)
  obtain ⟨y₁, w₁, e₁, hdown, hy₁, hpos₁, hle₁, hvalue₁⟩ := reaches_up (e := 0)
    (if x.negative then "-" else "+") k hy hpos hk.le
  obtain ⟨l, hl⟩ := pow_unbounded_of_one_lt (1 / (2 * w₁)) (by norm_num : (1 : ℚ) < 2)
  have hl : 1 / 2 < w₁ * 2 ^ l := by
    rw [div_lt_iff₀ (by positivity)] at hl
    linarith
  obtain ⟨y₂, w₂, e₂, hup, hy₂, hgt₂, hle₂, hvalue₂⟩ := reaches_digits l hy₁ hle₁ hl
  -- only the scale of the number brings its magnitude to where the loops have brought it
  have hw₂ : w₂ = x.magnitude / 2 ^ e₂ := by
    rw [eq_div_iff (by positivity), hvalue₂, hvalue₁, zpow_zero, mul_one]
  have he₂ : e₂ = x.scale := scale_unique (hw₂ ▸ ⟨hgt₂, hle₂⟩) (scale_bounds hzero)
  rw [he₂, magnitude_div_scale] at hw₂
  rw [hw₂] at hy₂
  rw [he₂] at hup
  rw [hstart]
  exact hdown.trans (hup.trans (reaches_done hy₂ (lt_ceilLog2 _)))

/-- The loops end for every pattern, with its normalized text. -/
theorem reaches_normalized (x : Binary64) : Reaches (start x) (.done x.normalized) := by
  rcases x.isFinite_or with hfinite | ⟨hinf, hnan⟩ | hnan
  · cases hzero : x.isZero with
    | true =>
      -- zero is written before the first round, and so are the infinities and NaN below
      refine reaches_of_eq ?_
      unfold start normalized
      rw [isNaN_of_isFinite hfinite, isInfinite_of_isFinite hfinite, same_zero (isNaN_of_isFinite hfinite), hzero]
      rfl
    | false =>
      have htext := reaches_parts hfinite hzero
      rw [normalized_of_isFinite hfinite, parts, hzero]
      exact htext
  · have hzero : x.isZero = false := by
      unfold isInfinite at hinf
      unfold isZero
      rw [of_decide_eq_true hinf]
      decide
    refine reaches_of_eq ?_
    rw [normalized_of_isInfinite hinf hnan]
    unfold start
    rw [hnan, hinf, (compare_zero hnan hzero).2]
    cases x.negative <;> rfl
  · refine reaches_of_eq ?_
    rw [normalized_of_isNaN hnan]
    unfold start
    rw [hnan]
    rfl

end Scaling

/-! ## Numbers -/

variable {x : Binary64}

theorem signed_eq_sum (x : Binary64) : x.signed = (if x.negative then -1 else 1) * 2 ^ x.scale *
    ∑ i : Fin x.scaledDigits.length, (x.scaledDigits[i].toNat / 2 ^ (i : Nat) : ℚ) := by
  rw [← digitsValue_eq_sum, mul_assoc, ← magnitude_eq]
  unfold signed
  cases x.negative <;> simp

theorem scale_range (h : x.isFinite = true) (hzero : x.isZero = false) : -1074 ≤ x.scale ∧ x.scale ≤ 1024 := by
  have hlow : (-1074 : Int) ≤ x.exponent := x.fits.quantum_le
  have hhigh : x.exponent + (52 : Nat) < 2 ^ 10 := exponent_add_lt (by decide) h
  -- the significand has at most 53 bits
  have hpow : 2 ^ ceilLog2 x.significand < 2 ^ 54 := by
    have hlt : x.significand < 2 ^ 53 := x.fits.lt
    have := (ceilLog2_bounds (significand_ne_zero hzero)).2
    omega
  have hceil := (Nat.pow_lt_pow_iff_right (by norm_num)).1 hpow
  unfold scale
  omega

/--
For every pattern the scaling loops end, with its normalized text. For a finite number other than zero this is a sign,
an exponent, a colon and digits up to a last one that is not zero, and the number is what they denote: the sign, times
two to the exponent, times the sum of the digits in their places. The exponent brings the magnitude above one half and
up to one. Two patterns have one text exactly when they stand for one number, or when both are no number.
-/
theorem normalized_by_scaling (x : Binary64) :
    Scaling.Reaches (Scaling.start x) (.done x.normalized) ∧
    (x.isFinite = true → x.isZero = false → ∃ (e : Int) (digits : List Bool),
      x.normalized = (if x.negative then "-" else "+") ++ toString e ++ ":" ++
        String.ofList (digits.map (fun one => if one then '1' else '0')) ∧
      digits.getLast? = some true ∧
      x.signed = (if x.negative then -1 else 1) * 2 ^ e *
        ∑ i : Fin digits.length, (digits[i].toNat / 2 ^ (i : Nat) : ℚ) ∧
      1 / 2 < |x.signed| / 2 ^ e ∧ |x.signed| / 2 ^ e ≤ 1 ∧ -1074 ≤ e ∧ e ≤ 1024) ∧
    ∀ y : Binary64, x.normalized = y.normalized ↔ x.reading = y.reading := by
  refine ⟨Scaling.reaches_normalized x, fun hfinite hzero => ?_, fun y => ?_⟩
  · obtain ⟨hgt, hle⟩ := scale_bounds hzero
    obtain ⟨hlow, hhigh⟩ := scale_range hfinite hzero
    rw [← magnitude_eq_abs]
    refine ⟨x.scale, x.scaledDigits, ?_, getLast?_fractionDigits (significand_ne_zero hzero) (lt_ceilLog2 _),
      signed_eq_sum x, hgt, hle, hlow, hhigh⟩
    rw [normalized_of_isFinite hfinite, parts, hzero]
    rfl
  · rw [normalized_eq_iff (by decide), alike_iff_reading (by decide)]

/-- One and a half with a sign is halved once, to three quarters. -/
theorem normalized_by_scaling_fraction : ∃ x : Binary64, x.signed = -3 / 2 ∧
    Scaling.Reaches (Scaling.start x) (.done "-1:011") ∧
    ∃ (e : Int) (digits : List Bool),
      "-1:011" = "-" ++ toString e ++ ":" ++ String.ofList (digits.map (fun one => if one then '1' else '0')) ∧
      digits.getLast? = some true ∧
      (-3 / 2 : ℚ) = -1 * 2 ^ e * ∑ i : Fin digits.length, (digits[i].toNat / 2 ^ (i : Nat) : ℚ) := by
  obtain ⟨x, hx⟩ : ∃ x : Binary64, x = ⟨0xBFF8000000000000#64⟩ := ⟨_, rfl⟩
  have htext : x.normalized = "-1:011" := by
    subst hx
    rfl
  have hneg : x.negative = true := by
    subst hx
    rfl
  have hsigned : x.signed = -3 / 2 := by
    have hsig : x.significand = 3 * 2 ^ 51 := by
      subst hx
      rfl
    have hexp : x.exponent = -52 := by
      subst hx
      rfl
    rw [signed, magnitude, hsig, hexp, hneg]
    norm_num
  obtain ⟨hreaches, hparts, -⟩ := normalized_by_scaling x
  obtain ⟨e, digits, hdigits, hlast, hsum, -⟩ := hparts (by subst hx; rfl) (by subst hx; rfl)
  rw [htext] at hreaches hdigits
  rw [hsigned, hneg] at hsum
  rw [hneg] at hdigits
  exact ⟨x, hsigned, hreaches, e, digits, hdigits, hlast, hsum⟩

end Binary

end ApiShape
