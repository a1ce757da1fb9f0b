/-
The normalized text of a floating-point number identifies the number: it is the same for two
patterns exactly when they are equal as numbers or both are no numbers. Sign, scale and digits are
read back from the text, and the magnitude is the scaled value of the digits.
-/
import ApiShape.Numeric.Normalized
import ApiShape.Proofs.Numeric.Magnitude
import Mathlib.Data.List.Basic

namespace ApiShape

/-! ## Integers as text -/

theorem toList_repr (n : Nat) : (Nat.repr n).toList = Nat.toDigits 10 n := by
  rw [Nat.repr, String.toList_ofList]

theorem isDigit_of_mem_repr {n : Nat} {c : Char} (h : c ∈ (Nat.repr n).toList) : c.isDigit = true := by
  rw [toList_repr] at h
  exact Nat.isDigit_of_mem_toDigits (Nat.succ_pos 9) (Nat.le_refl 10) h

theorem repr_nat_inj {m n : Nat} (h : Nat.repr m = Nat.repr n) : m = n := by
  have hdigits := congrArg (fun s => Nat.ofDigitChars 10 (String.toList s) 0) h
  simpa only [toList_repr, Nat.ofDigitChars_ten_toDigits] using hdigits

theorem toList_toString_negSucc (n : Nat) :
    (toString (Int.negSucc n)).toList = '-' :: (Nat.repr n.succ).toList := by
  change ("-" ++ Nat.repr n.succ).toList = _
  rw [String.toList_append]
  rfl

theorem mem_toString_int {i : Int} {c : Char} (h : c ∈ (toString i).toList) : c.isDigit = true ∨ c = '-' := by
  cases i with
  | ofNat n => exact .inl (isDigit_of_mem_repr h)
  | negSucc n =>
    rw [toList_toString_negSucc] at h
    exact (List.mem_cons.1 h).symm.imp_left isDigit_of_mem_repr

theorem toString_int_inj {i j : Int} (h : toString i = toString j) : i = j := by
  have hlist := congrArg String.toList h
  have hminus : ∀ (m : Nat) (l : List Char), (Nat.repr m).toList ≠ '-' :: l := by
    intro m l heq
    have hdigit : '-'.isDigit = true := isDigit_of_mem_repr (n := m) (by rw [heq]; exact List.mem_cons_self)
    exact absurd hdigit (by decide)
  cases i with
  | ofNat m =>
    cases j with
    | ofNat n => exact congrArg Int.ofNat (repr_nat_inj h)
    | negSucc n =>
      rw [toList_toString_negSucc] at hlist
      exact absurd hlist (hminus m _)
  | negSucc m =>
    rw [toList_toString_negSucc] at hlist
    cases j with
    | ofNat n => exact absurd hlist.symm (hminus n _)
    | negSucc n =>
      rw [toList_toString_negSucc] at hlist
      exact congrArg Int.negSucc (Nat.succ.inj (repr_nat_inj (String.toList_inj.1 (List.cons.inj hlist).2)))

/-! ## Digits -/

/-- The number that binary digits denote, the first of them the unit. -/
def digitsValue : List Bool → ℚ
  | [] => 0
  | one :: rest => (if one then 1 else 0) + digitsValue rest / 2

/-- The digits stand for the number that they are read off. -/
theorem digitsValue_fractionDigits {k n : Nat} (h : n < 2 ^ (k + 1)) :
    digitsValue (fractionDigits k n) = n / 2 ^ k := by
  induction k generalizing n with
  | zero =>
    obtain rfl | rfl : n = 0 ∨ n = 1 := by omega
    · simp [fractionDigits, digitsValue]
    · simp [fractionDigits, digitsValue]
  | succ k ih =>
    unfold fractionDigits
    split
    · rename_i hzero
      simp [hzero, digitsValue]
    · have hrest : n % 2 ^ (k + 1) < 2 ^ (k + 1) := Nat.mod_lt _ (by positivity)
      have hpow : (2 : ℚ) ^ (k + 1) ≠ 0 := by positivity
      rw [twoPow_eq, digitsValue, ih hrest]
      by_cases hle : 2 ^ (k + 1) ≤ n
      · rw [Nat.pow_succ] at h
        rw [if_pos (by simpa using hle), Nat.mod_eq_sub_mod hle, Nat.mod_eq_of_lt (by omega), Nat.cast_sub hle]
        push_cast
        field_simp
        ring
      · rw [if_neg (by simpa using hle), Nat.mod_eq_of_lt (by omega)]
        field_simp
        ring

theorem fractionDigits_ne_nil {k n : Nat} (h : n ≠ 0) : fractionDigits k n ≠ [] := by
  cases k with
  | zero => simp [fractionDigits, h]
  | succ k => simp [fractionDigits, h]

theorem lt_ceilLog2 (m : Nat) : m < 2 ^ (ceilLog2 m + 1) := by
  have hlt : m < 2 ^ (m.log2 + 1) := Nat.lt_log2_self
  unfold ceilLog2
  split
  · exact hlt
  · exact hlt.trans (Nat.pow_lt_pow_right (by norm_num) (by omega))

namespace Binary

variable {fmt : BinaryFormat} {x y : Binary fmt}

/-- The scaled digits denote the magnitude. -/
theorem magnitude_eq (x : Binary fmt) : x.magnitude = 2 ^ x.scale * digitsValue x.scaledDigits := by
  have htwo : (2 : ℚ) ≠ 0 := by norm_num
  unfold magnitude scale scaledDigits
  rw [digitsValue_fractionDigits (lt_ceilLog2 _), zpow_add₀ htwo, zpow_natCast]
  field_simp

theorem significand_eq_zero_iff : x.significand = 0 ↔ x.isZero = true := by
  have hpos : 0 < 2 ^ fmt.fractionBits := by positivity
  unfold significand isZero
  rw [twoPow_eq]
  split
  · simp
  · simp
    omega

/-! ## Texts -/

/-- The parts of the text of a finite number: sign, scale and digits. -/
def parts (x : Binary fmt) : Bool × Int × List Bool :=
  if x.isZero then (false, 0, []) else (x.negative, x.scale, x.scaledDigits)

/-- The parts as text. -/
def partsText (p : Bool × Int × List Bool) : String :=
  (if p.1 then "-" else "+") ++ toString p.2.1 ++ ":" ++
    String.ofList (p.2.2.map (fun one => if one then '1' else '0'))

theorem partsText_eq (p : Bool × Int × List Bool) : (partsText p).toList =
    ((if p.1 then '-' else '+') :: (toString p.2.1).toList) ++
      ':' :: p.2.2.map (fun one => if one then '1' else '0') := by
  obtain ⟨negative, scale, digits⟩ := p
  cases negative <;> simp [partsText]

/-- Sign, exponent and digits can be read off the text. -/
theorem partsText_inj {p q : Bool × Int × List Bool} (h : partsText p = partsText q) : p = q := by
  have hcolon : ∀ p : Bool × Int × List Bool,
      ':' ∉ ((if p.1 then '-' else '+') :: (toString p.2.1).toList : List Char) := by
    intro p hmem
    rcases List.mem_cons.1 hmem with hmem | hmem
    · split at hmem <;> cases hmem
    · rcases mem_toString_int hmem with hmem | hmem
      · exact absurd hmem (by decide)
      · cases hmem
  have hdigits : ∀ digits : List Bool, ':' ∉ digits.map (fun one => if one then '1' else '0') := by
    intro digits hmem
    obtain ⟨one, -, hone⟩ := List.mem_map.1 hmem
    cases one <;> cases hone
  have hlist := congrArg String.toList h
  rw [partsText_eq, partsText_eq] at hlist
  obtain ⟨hfirst, -, hlast⟩ := (List.append_cons_inj_of_notMem (hcolon q) (hdigits q.2.2)).1 hlist.symm
  obtain ⟨hsign, hscale⟩ := List.cons.inj hfirst
  obtain ⟨negative, scale, digits⟩ := p
  obtain ⟨negative', scale', digits'⟩ := q
  have hneg : negative = negative' := by cases negative <;> cases negative' <;> first | rfl | cases hsign
  have hscale : scale = scale' := (toString_int_inj (String.toList_inj.1 hscale)).symm
  have hbits : digits = digits' := by
    refine (List.map_injective_iff.2 ?_) hlast.symm
    intro a b hab
    cases a <;> cases b <;> first | rfl | cases hab
  rw [hneg, hscale, hbits]

theorem normalized_of_isFinite (hx : x.isFinite = true) : x.normalized = partsText x.parts := by
  unfold isFinite at hx
  have hcode : x.code < fmt.infinityCode := by simpa using hx
  have hnan : x.isNaN = false := by
    unfold isNaN
    simpa using Nat.le_of_lt hcode
  have hinf : x.isInfinite = false := by
    unfold isInfinite
    simpa using Nat.ne_of_lt hcode
  unfold normalized parts
  rw [hnan, hinf]
  cases x.isZero with
  | true => rfl
  | false => rfl

/-- The parts determine a finite number: the magnitude is the scaled value of the digits. -/
theorem same_of_parts (hx : x.isNaN = false) (hy : y.isNaN = false) (h : x.parts = y.parts) : x.same y = true := by
  have hdigits : ∀ z : Binary fmt, z.isZero = false → z.scaledDigits ≠ [] := by
    intro z hz hnil
    refine fractionDigits_ne_nil (fun hzero => ?_) hnil
    rw [significand_eq_zero_iff, hz] at hzero
    cases hzero
  unfold parts at h
  unfold same
  rw [hx, hy]
  cases hxz : x.isZero with
  | true =>
    cases hyz : y.isZero with
    | true => simp
    | false =>
      rw [hxz, hyz] at h
      exact absurd (congrArg (fun p => p.2.2) h).symm (hdigits y hyz)
  | false =>
    cases hyz : y.isZero with
    | true =>
      rw [hxz, hyz] at h
      exact absurd (congrArg (fun p => p.2.2) h) (hdigits x hxz)
    | false =>
      rw [hxz, hyz] at h
      have hneg : x.negative = y.negative := congrArg (fun p => p.1) h
      have hscale : x.scale = y.scale := congrArg (fun p => p.2.1) h
      have hbits : x.scaledDigits = y.scaledDigits := congrArg (fun p => p.2.2) h
      have hmagnitude : x.magnitude = y.magnitude := by
        rw [magnitude_eq, magnitude_eq y, hscale, hbits]
      rw [ext_code (code_eq_of_magnitude_eq hmagnitude) hneg]
      simp

theorem parts_of_same (h : x.same y = true) : x.parts = y.parts := by
  unfold same at h
  simp only [Bool.and_eq_true, Bool.or_eq_true, beq_iff_eq] at h
  rcases h.2 with h | ⟨hx, hy⟩
  · rw [show x = y from congrArg Binary.mk h]
  · unfold parts
    rw [hx, hy]
    rfl

/-- What a text begins with tells the finite numbers from all others. -/
theorem partsText_ne {p : Bool × Int × List Bool} {s : String} (h : ':' ∉ s.toList) : partsText p ≠ s := by
  rintro rfl
  rw [partsText_eq] at h
  exact h (List.mem_append_right _ List.mem_cons_self)

/-- A pattern is a finite number, an infinity or no number. -/
theorem isFinite_or (x : Binary fmt) :
    x.isFinite = true ∨ (x.isInfinite = true ∧ x.isNaN = false) ∨ x.isNaN = true := by
  unfold isFinite isInfinite isNaN
  simp only [decide_eq_true_eq, decide_eq_false_iff_not]
  omega

theorem isNaN_of_isFinite (h : x.isFinite = true) : x.isNaN = false := by
  unfold isFinite at h
  unfold isNaN
  simp only [decide_eq_true_eq, decide_eq_false_iff_not] at h ⊢
  omega

theorem isInfinite_of_isFinite (h : x.isFinite = true) : x.isInfinite = false := by
  unfold isFinite at h
  unfold isInfinite
  simp only [decide_eq_true_eq, decide_eq_false_iff_not] at h ⊢
  omega

theorem normalized_of_isInfinite (h : x.isInfinite = true) (hnan : x.isNaN = false) :
    x.normalized = if x.negative then "-Infinity" else "Infinity" := by
  unfold normalized
  rw [hnan, h]
  rfl

theorem normalized_of_isNaN (h : x.isNaN = true) : x.normalized = "NaN" := by
  unfold normalized
  rw [h]
  rfl

/-- Of the texts, only those of finite numbers have a colon. -/
theorem colon_notMem_normalized (h : x.isFinite = false) : ':' ∉ x.normalized.toList := by
  rcases x.isFinite_or with hfin | ⟨hinf, hnan⟩ | hnan
  · rw [h] at hfin
    cases hfin
  · rw [normalized_of_isInfinite hinf hnan]
    cases x.negative <;> decide
  · rw [normalized_of_isNaN hnan]
    decide

theorem same_self (h : x.isNaN = false) : x.same x = true := by
  unfold same
  rw [h]
  simp

/-- The infinities are told apart by their sign. -/
theorem same_of_isInfinite (hx : x.isInfinite = true) (hy : y.isInfinite = true) (hnan : x.isNaN = false)
    (hneg : x.negative = y.negative) : x.same y = true := by
  have hcode : x.code = y.code := by
    unfold isInfinite at hx hy
    rw [of_decide_eq_true hx, of_decide_eq_true hy]
  rw [← ext_code hcode hneg]
  exact same_self hnan

theorem isNaN_of_same (h : x.same y = true) : x.isNaN = false ∧ y.isNaN = false := by
  unfold same at h
  simp only [Bool.and_eq_true, Bool.not_eq_true'] at h
  exact h.1

theorem same_eq_false (h : x.isNaN = true ∨ y.isNaN = true) : x.same y = false := by
  refine eq_false_of_ne_true fun hsame => ?_
  obtain ⟨hx, hy⟩ := isNaN_of_same hsame
  simp [hx, hy] at h

/-- One number has one text: the patterns are equal, or zeros of both signs. -/
theorem normalized_of_same (hfmt : 0 < fmt.infinityCode) (h : x.same y = true) : x.normalized = y.normalized := by
  have hfinite : ∀ z : Binary fmt, z.isZero = true → z.isFinite = true := by
    intro z hz
    unfold isZero at hz
    unfold isFinite
    rw [of_decide_eq_true hz]
    exact decide_eq_true hfmt
  have hparts := parts_of_same h
  unfold same at h
  simp only [Bool.and_eq_true, Bool.or_eq_true, beq_iff_eq] at h
  rcases h.2 with h | ⟨hx, hy⟩
  · rw [show x = y from congrArg Binary.mk h]
  · rw [normalized_of_isFinite (hfinite x hx), normalized_of_isFinite (hfinite y hy), hparts]

/-- One number, or no number on both sides. -/
def Alike (x y : Binary fmt) : Prop := x.same y = true ∨ x.isNaN = true ∧ y.isNaN = true

/-- The text identifies the number. -/
theorem normalized_eq_iff (hfmt : 0 < fmt.infinityCode) : x.normalized = y.normalized ↔ x.Alike y := by
  constructor
  · intro h
    cases hx : x.isFinite with
    | true =>
      cases hy : y.isFinite with
      | true =>
        rw [normalized_of_isFinite hx, normalized_of_isFinite hy] at h
        exact .inl (same_of_parts (isNaN_of_isFinite hx) (isNaN_of_isFinite hy) (partsText_inj h))
      | false =>
        rw [normalized_of_isFinite hx] at h
        exact absurd h (partsText_ne (colon_notMem_normalized hy))
    | false =>
      cases hy : y.isFinite with
      | true =>
        rw [normalized_of_isFinite hy] at h
        exact absurd h.symm (partsText_ne (colon_notMem_normalized hx))
      | false =>
        rcases x.isFinite_or with hfin | ⟨hxinf, hxnan⟩ | hxnan
        · rw [hx] at hfin
          cases hfin
        · rcases y.isFinite_or with hfin | ⟨hyinf, hynan⟩ | hynan
          · rw [hy] at hfin
            cases hfin
          · rw [normalized_of_isInfinite hxinf hxnan, normalized_of_isInfinite hyinf hynan] at h
            refine .inl (same_of_isInfinite hxinf hyinf hxnan ?_)
            cases hxn : x.negative <;> cases hyn : y.negative <;> rw [hxn, hyn] at h <;>
              first | rfl | exact absurd h (by decide)
          · rw [normalized_of_isInfinite hxinf hxnan, normalized_of_isNaN hynan] at h
            cases hxn : x.negative <;> rw [hxn] at h <;> exact absurd h (by decide)
        · rcases y.isFinite_or with hfin | ⟨hyinf, hynan⟩ | hynan
          · rw [hy] at hfin
            cases hfin
          · rw [normalized_of_isInfinite hyinf hynan, normalized_of_isNaN hxnan] at h
            cases hyn : y.negative <;> rw [hyn] at h <;> exact absurd h (by decide)
          · exact .inr ⟨hxnan, hynan⟩
  · rintro (h | ⟨hx, hy⟩)
    · exact normalized_of_same hfmt h
    · rw [normalized_of_isNaN hx, normalized_of_isNaN hy]

end Binary

end ApiShape
