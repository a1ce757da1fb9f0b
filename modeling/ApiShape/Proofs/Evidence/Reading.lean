/-
What an observed value stands for, whatever type it was observed under: an exact number, an infinity, or
the value itself where there is no arithmetic. Widening keeps it when the wider type has it.
-/
import ApiShape.Proofs.Commute.Basic

namespace ApiShape

/-- A value without its type. -/
inductive Reading where
  | number (q : ℚ)
  | infinity (negative : Bool)
  | nan
  | other (s : Scalar)

/-! ## Floating-point numbers -/

namespace Binary

variable {fmt : BinaryFormat} {x y : Binary fmt}

/-- The number of a finite pattern, with its sign. -/
def signed (x : Binary fmt) : ℚ := if x.negative then -x.magnitude else x.magnitude

/-- What a pattern stands for. The zeros are one number here. -/
def reading (x : Binary fmt) : Reading :=
  if x.isNaN then .nan else if x.isInfinite then .infinity x.negative else .number x.signed

theorem reading_of_isFinite (h : x.isFinite = true) : x.reading = .number x.signed := by
  unfold reading
  rw [isNaN_of_isFinite h, isInfinite_of_isFinite h]
  rfl

theorem reading_of_isInfinite (h : x.isInfinite = true) (hnan : x.isNaN = false) :
    x.reading = .infinity x.negative := by
  unfold reading
  rw [hnan, h]
  rfl

theorem reading_of_isNaN (h : x.isNaN = true) : x.reading = .nan := by
  unfold reading
  rw [h]
  rfl

theorem magnitude_nonneg (x : Binary fmt) : 0 ≤ x.magnitude := by
  unfold magnitude
  positivity

theorem signed_eq_signed_iff : x.signed = y.signed ↔ x.magnitude = y.magnitude ∧ (x.negative = y.negative ∨ x.magnitude = 0) := by
  have hx := x.magnitude_nonneg
  have hy := y.magnitude_nonneg
  unfold signed
  cases x.negative <;> cases y.negative <;>
    simp only [if_true, if_false, Bool.false_eq_true, reduceCtorEq, true_or, false_or, and_true, neg_inj]
  · exact ⟨fun h => ⟨by linarith, by linarith⟩, fun h => by linarith [h.1, h.2]⟩
  · exact ⟨fun h => ⟨by linarith, by linarith⟩, fun h => by linarith [h.1, h.2]⟩

/-- Equality of numbers is equality of readings, but for NaN. -/
theorem same_iff_reading (hfmt : 0 < fmt.infinityCode) :
    x.same y = true ↔ x.reading = y.reading ∧ x.reading ≠ .nan := by
  have hmixed : ∀ x y : Binary fmt, x.isFinite = true → y.isInfinite = true → x.same y = false ∧ y.same x = false := by
    intro x y hx hy
    have hy := isFinite_of_isInfinite hy
    constructor <;> refine eq_false_of_ne_true fun h => ?_
    · rw [isFinite_eq_of_same h, hy] at hx
      cases hx
    · rw [← isFinite_eq_of_same h, hy] at hx
      cases hx
  rcases x.isFinite_or with hx | ⟨hx, hxnan⟩ | hx
  · rw [reading_of_isFinite hx]
    rcases y.isFinite_or with hy | ⟨hy, hynan⟩ | hy
    · rw [same_iff_magnitude (isNaN_of_isFinite hx) (isNaN_of_isFinite hy), reading_of_isFinite hy]
      simp [signed_eq_signed_iff]
    · rw [(hmixed x y hx hy).1, reading_of_isInfinite hy hynan]
      simp
    · rw [same_eq_false (.inr hy), reading_of_isNaN hy]
      simp
  · rw [reading_of_isInfinite hx hxnan]
    rcases y.isFinite_or with hy | ⟨hy, hynan⟩ | hy
    · rw [(hmixed y x hy hx).2, reading_of_isFinite hy]
      simp
    · rw [same_iff_of_isInfinite hfmt hx hy hxnan hynan, reading_of_isInfinite hy hynan]
      simp
    · rw [same_eq_false (.inr hy), reading_of_isNaN hy]
      simp
  · rw [same_eq_false (.inl hx), reading_of_isNaN hx]
    simp

/-- A number that two formats have is kept on the way from the smaller one. -/
theorem reading_convert_double (x : Binary32) : (x.convert .double).reading = x.reading := by
  rcases x.isFinite_or with h | ⟨h, hnan⟩ | h
  · obtain ⟨hneg, hfinite, hmagnitude⟩ := convert_double_of_isFinite h
    rw [reading_of_isFinite hfinite, reading_of_isFinite h]
    unfold signed
    rw [hneg, hmagnitude]
  · obtain ⟨hneg, hinf, hnan'⟩ := convert_double_of_isInfinite h hnan
    rw [reading_of_isInfinite hinf hnan', reading_of_isInfinite h hnan, hneg]
  · rw [reading_of_isNaN (convert_double_of_isNaN h), reading_of_isNaN h]

theorem reading_zero (hfmt : 0 < fmt.infinityCode) : (zero : Binary fmt).reading = .number 0 := by
  have hbits : 0 < 2 ^ fmt.magnitudeBits := Nat.pow_pos (by decide)
  obtain ⟨hcode, hneg⟩ := code_ofCode false hbits
  have hfinite : (zero : Binary fmt).isFinite = true := by
    unfold isFinite zero
    rw [hcode]
    exact decide_eq_true hfmt
  have hzero : (zero : Binary fmt).magnitude = 0 := magnitude_eq_zero hcode
  rw [reading_of_isFinite hfinite, signed, hzero]
  simp

theorem isFinite_of_reading {q : ℚ} (h : x.reading = .number q) : x.isFinite = true ∧ x.signed = q := by
  rcases x.isFinite_or with hx | ⟨hx, hnan⟩ | hx
  · rw [reading_of_isFinite hx] at h
    exact ⟨hx, Reading.number.inj h⟩
  · rw [reading_of_isInfinite hx hnan] at h
    cases h
  · rw [reading_of_isNaN hx] at h
    cases h

theorem magnitude_eq_abs (x : Binary fmt) : x.magnitude = |x.signed| := by
  have h := x.magnitude_nonneg
  unfold signed
  cases x.negative
  · exact (abs_of_nonneg h).symm
  · exact ((abs_neg x.magnitude).trans (abs_of_nonneg h)).symm

/-- The nearest number to an integer is the integer itself when the format has it. -/
theorem reading_ofInt {i : Int} (hfmt : fmt.infinityCode < 2 ^ fmt.magnitudeBits) (hx : x.reading = .number i) :
    (ofInt i : Binary fmt).reading = .number i := by
  obtain ⟨hfinite, hsigned⟩ := isFinite_of_reading hx
  have hlt : x.code < fmt.infinityCode := of_decide_eq_true hfinite
  have hmagnitude : x.magnitude = i.natAbs := by
    rw [magnitude_eq_abs, hsigned, Nat.cast_natAbs, Int.cast_abs]
  have hround : roundRatio fmt i.natAbs 1 = x.code := by
    by_cases hzero : i.natAbs = 0
    · unfold roundRatio
      rw [if_pos hzero]
      rw [hzero, Nat.cast_zero, ← isZero_iff_magnitude] at hmagnitude
      exact (of_decide_eq_true hmagnitude).symm
    · have hsig : x.significand ≠ 0 := by
        intro hsig
        rw [magnitude, hsig, Nat.cast_zero, zero_mul] at hmagnitude
        exact hzero (by exact_mod_cast hmagnitude.symm)
      rw [code_eq x]
      refine roundRatio_eq one_ne_zero hsig x.fits ?_ (by rw [← code_eq]; exact hlt.le)
      rw [Nat.cast_one, div_one, ← hmagnitude, magnitude]
  have hbits : x.code < 2 ^ fmt.magnitudeBits := hlt.trans hfmt
  obtain ⟨hcode, hneg⟩ := code_ofCode (decide (i < 0)) hbits
  unfold ofInt
  rw [hround]
  have hfinite' : (ofCode (decide (i < 0)) x.code : Binary fmt).isFinite = true := by
    unfold isFinite
    rw [hcode]
    exact decide_eq_true hlt
  have hmagnitude' : (ofCode (decide (i < 0)) x.code : Binary fmt).magnitude = x.magnitude := by
    unfold magnitude significand exponent
    rw [hcode]
  rw [reading_of_isFinite hfinite', signed, hneg, hmagnitude', hmagnitude]
  congr 1
  by_cases hi : i < 0
  · rw [decide_eq_true hi, if_pos rfl, Nat.cast_natAbs, abs_of_neg hi]
    push_cast
    ring
  · rw [decide_eq_false hi, if_neg Bool.false_ne_true, Nat.cast_natAbs, abs_of_nonneg (not_lt.1 hi)]

end Binary

/-! ## Values -/

namespace Scalar

variable {a b s s' : Scalar} {t : BaseType}

/-- What a value stands for, whichever of the numeric types it has. -/
def reading : Scalar → Reading
  | .int32 v => .number v.toInt
  | .int64 v => .number v.toInt
  | .uint32 v => .number v.toNat
  | .uint64 v => .number v.toNat
  | .float x => x.reading
  | .double x => x.reading
  | s => .other s

/-- The type has a value for what `s` stands for. -/
def Exact (s : Scalar) (t : BaseType) : Prop := ∃ x : Scalar, x.baseType = t ∧ x.reading = s.reading

theorem same_iff_reading (h : a.baseType = b.baseType) : a.same b = true ↔ a.reading = b.reading ∧ a.reading ≠ .nan := by
  cases a <;> cases b <;> first | cases h; done | skip
  case float.float => exact Binary.same_iff_reading (by decide)
  case double.double => exact Binary.same_iff_reading (by decide)
  all_goals simp [same, reading, Int32.toInt_inj, Int64.toInt_inj, UInt32.toNat_inj, UInt64.toNat_inj]

theorem isNaN_or_of_reading (h : a.reading = .nan) : (∃ x, a = .float x ∧ x.isNaN = true) ∨ ∃ x, a = .double x ∧ x.isNaN = true := by
  have hbinary : ∀ {fmt : BinaryFormat} (x : Binary fmt), x.reading = .nan → x.isNaN = true := by
    intro fmt x h
    unfold Binary.reading at h
    split at h
    · assumption
    · split at h <;> cases h
  cases a with
  | float x => exact .inl ⟨x, rfl, hbinary x h⟩
  | double x => exact .inr ⟨x, rfl, hbinary x h⟩
  | bool | bytes | string | int32 | int64 | uint32 | uint64 => cases h

/-- Values of one type that stand for one thing are one observation. -/
theorem alike_of_reading (htype : a.baseType = b.baseType) (h : a.reading = b.reading) : a.Alike b := by
  by_cases hnan : a.reading = .nan
  · have hb := h.symm.trans hnan
    rcases isNaN_or_of_reading hnan with ⟨x, rfl, hx⟩ | ⟨x, rfl, hx⟩ <;>
      rcases isNaN_or_of_reading hb with ⟨y, rfl, hy⟩ | ⟨y, rfl, hy⟩ <;>
        first | exact .inr ⟨hx, hy⟩ | cases htype
  · exact alike_of_same ((same_iff_reading htype).2 ⟨h, hnan⟩)

theorem reading_ofInt_of_exact {fmt : BinaryFormat} {i : Int} {t : BaseType} {f : Binary fmt → Scalar}
    (hf : ∀ x, (f x).reading = x.reading) (ht : ∀ x : Scalar, x.baseType = t → ∃ y, x = f y)
    (hfmt : fmt.infinityCode < 2 ^ fmt.magnitudeBits) (hexact : ∃ x : Scalar, x.baseType = t ∧ x.reading = .number i) :
    (f (Binary.ofInt i)).reading = .number i := by
  obtain ⟨x, hx, hreading⟩ := hexact
  obtain ⟨y, rfl⟩ := ht x hx
  rw [hf] at hreading ⊢
  exact Binary.reading_ofInt hfmt hreading

theorem of_baseType_float (x : Scalar) (h : x.baseType = .float) : ∃ y, x = .float y := by
  cases x <;> first | exact ⟨_, rfl⟩ | cases h

theorem of_baseType_double (x : Scalar) (h : x.baseType = .double) : ∃ y, x = .double y := by
  cases x <;> first | exact ⟨_, rfl⟩ | cases h

/-- A value is kept by widening when the wider type has it. -/
theorem reading_widen (h : s.widen t = some s') (hexact : s.Exact t) : s'.reading = s.reading := by
  unfold widen at h
  unfold Exact at hexact
  split at h
  · cases h
    rfl
  · split at h <;> cases h
    · exact congrArg (fun i : Int => Reading.number i) (Int32.toInt_toInt64 _)
    · exact reading_ofInt_of_exact (f := .float) (fun _ => rfl) of_baseType_float (Binary.infinityCode_lt _) hexact
    · exact reading_ofInt_of_exact (f := .double) (fun _ => rfl) of_baseType_double (Binary.infinityCode_lt _) hexact
    · have hlt := UInt32.toNat_lt ‹UInt32›
      refine congrArg Reading.number ?_
      rw [Int64.toInt_ofNat_of_lt (by omega), Int.cast_natCast]
    · exact congrArg (fun n : Nat => Reading.number n) (UInt32.toNat_toUInt64 _)
    · exact reading_ofInt_of_exact (f := .float) (fun _ => rfl) of_baseType_float (Binary.infinityCode_lt _) hexact
    · exact reading_ofInt_of_exact (f := .double) (fun _ => rfl) of_baseType_double (Binary.infinityCode_lt _) hexact
    · exact reading_ofInt_of_exact (f := .double) (fun _ => rfl) of_baseType_double (Binary.infinityCode_lt _) hexact
    · exact reading_ofInt_of_exact (f := .double) (fun _ => rfl) of_baseType_double (Binary.infinityCode_lt _) hexact
    · exact Binary.reading_convert_double _

theorem exists_widen (h : s.baseType.Below t) : ∃ s', s.widen t = some s' := by
  unfold widen
  split
  · exact ⟨s, rfl⟩
  · rename_i hne
    cases s <;> cases t <;> first | exact ⟨_, rfl⟩ | exact absurd rfl hne | cases h

theorem reading_zero (h : t.isNumeric = true) : (zero t).reading = .number 0 := by
  cases t <;> first | cases h; done | skip
  case float => exact Binary.reading_zero (by decide)
  case double => exact Binary.reading_zero (by decide)
  all_goals exact congrArg Reading.number (by simp)

/-- The zero of a type is that of every wider type. -/
theorem reading_zero_of_below {u : BaseType} (h : t.Below u) : (zero t).reading = (zero u).reading := by
  have hcases : t = u ∨ t.isNumeric = true ∧ u.isNumeric = true := by
    revert t u
    decide
  rcases hcases with rfl | ⟨ht, hu⟩
  · rfl
  · rw [reading_zero ht, reading_zero hu]

theorem reading_zero_ne_nan (t : BaseType) : (zero t).reading ≠ .nan := by
  cases ht : t.isNumeric with
  | true => rw [reading_zero ht]; exact fun h => (by cases h)
  | false => cases t <;> first | cases ht; done | exact fun h => (by cases h)

end Scalar

end ApiShape
