/-
Joins of primitives as upper bounds. A primitive covers another when it has nothing to learn from it, which is when a
join of the two changes nothing, and a join covers both sides. The order of the sides decides no more than the sign of
a zero and which of two hints is kept.
-/
import ApiShape.Proofs.Numeric.Normalized
import ApiShape.Proofs.Primitive.Join

namespace ApiShape

/-! ## Values -/

theorem Binary.eq_or_isZero_of_same {fmt : BinaryFormat} {x y : Binary fmt} (h : x.same y = true) :
    x = y ∨ x.isZero = true ∧ y.isZero = true := by
  unfold Binary.same at h
  simp only [Bool.and_eq_true, Bool.or_eq_true] at h
  rcases h.2 with hbits | hzero
  · obtain ⟨bits⟩ := x
    obtain ⟨bits'⟩ := y
    exact .inl (congrArg Binary.mk (eq_of_beq hbits))
  · exact .inr hzero

namespace Scalar

variable {a b s : Scalar} {t : BaseType}

theorem same_comm (a b : Scalar) : a.same b = b.same a := by
  have hbinary : ∀ {fmt : BinaryFormat} (x y : Binary fmt), x.same y = y.same x := by
    intro fmt x y
    unfold Binary.same
    cases x.isNaN <;> cases y.isNaN <;> simp [Bool.and_comm, Bool.beq_comm]
  cases a <;> cases b <;> first | exact hbinary _ _ | exact Bool.beq_comm

theorem same_zero (t : BaseType) : (zero t).same (zero t) = true := by
  cases t <;> decide

/-- Equal values, or two floating-point zeros of one type, which may differ in their sign. -/
inductive EqUpToZeroSign : Scalar → Scalar → Prop
  | refl (s : Scalar) : EqUpToZeroSign s s
  | float {x y : Binary32} : x.isZero = true → y.isZero = true → EqUpToZeroSign (.float x) (.float y)
  | double {x y : Binary64} : x.isZero = true → y.isZero = true → EqUpToZeroSign (.double x) (.double y)

theorem eqUpToZeroSign_of_same (h : a.same b = true) : a.EqUpToZeroSign b := by
  unfold same at h
  split at h
  · rcases Binary.eq_or_isZero_of_same h with rfl | ⟨hx, hy⟩
    · exact .refl _
    · exact .float hx hy
  · rcases Binary.eq_or_isZero_of_same h with rfl | ⟨hx, hy⟩
    · exact .refl _
    · exact .double hx hy
  · rw [eq_of_beq h]
    exact .refl b

theorem same_self_of_same (h : a.same b = true) : a.same a = true := by
  have hsame := h
  unfold same at h
  split at h
  · exact Binary.same_self (Binary.isNaN_of_same h).1
  · exact Binary.same_self (Binary.isNaN_of_same h).1
  · rwa [← eq_of_beq h] at hsame

/-- Two values join to the zero in both orders, or they agree in the type, and the first one is kept. -/
theorem join_cases (a b : Scalar) (t : BaseType) : (a.join b t = zero t ∧ b.join a t = zero t) ∨
    ∃ a' b', a.widen t = some a' ∧ b.widen t = some b' ∧ a'.same b' = true ∧ a.join b t = a' ∧ b.join a t = b' := by
  unfold join
  cases a.widen t with
  | none => cases b.widen t <;> exact .inl ⟨rfl, rfl⟩
  | some a' =>
    cases b.widen t with
    | none => exact .inl ⟨rfl, rfl⟩
    | some b' =>
      dsimp only
      rw [same_comm b' a']
      by_cases hsame : a'.same b' = true
      · rw [if_pos hsame, if_pos hsame]
        exact .inr ⟨a', b', rfl, rfl, hsame, rfl, rfl⟩
      · rw [if_neg hsame, if_neg hsame]
        exact .inl ⟨rfl, rfl⟩

/-- Both orders give the same number. -/
theorem same_join_comm (a b : Scalar) (t : BaseType) : (a.join b t).same (b.join a t) = true := by
  rcases join_cases a b t with ⟨hjoin, hjoin'⟩ | ⟨a', b', -, -, hsame, hjoin, hjoin'⟩
  · rw [hjoin, hjoin']
    exact same_zero t
  · rw [hjoin, hjoin']
    exact hsame

/-- A value of a type that has nothing to learn from `a`: it is the zero, or `a` is the same number there. -/
def Keeps (s a : Scalar) (t : BaseType) : Prop :=
  s = zero t ∨ ∃ a', a.widen t = some a' ∧ s.same a' = true

theorem join_eq_self (hs : s.baseType = t) (h : s.Keeps a t) : s.join a t = s := by
  subst hs
  unfold join
  rw [widen_self]
  rcases h with hzero | ⟨a', ha, hsame⟩
  · rw [← hzero]
    cases a.widen s.baseType with
    | none => rfl
    | some a' => exact ite_self s
  · rw [ha]
    exact if_pos hsame

/-- The value of a join has nothing to learn from either side. -/
theorem keeps_join (a b : Scalar) (t : BaseType) : (a.join b t).Keeps a t ∧ (a.join b t).Keeps b t := by
  rcases join_cases a b t with ⟨hzero, -⟩ | ⟨a', b', ha, hb, hsame, hjoin, -⟩
  · rw [hzero]
    exact ⟨.inl rfl, .inl rfl⟩
  · rw [hjoin]
    exact ⟨.inr ⟨a', ha, same_self_of_same hsame⟩, .inr ⟨b', hb, hsame⟩⟩

end Scalar

/-! ## Covering -/

namespace Primitive

variable {p q j : Primitive}

/-- The formats of `p` are among those of `j`, unless `j` makes no statement about formats. -/
def CoversFormats (j p : Primitive) : Prop :=
  if j.formatKind = "" then j.formats = [] else p.formatKind = j.formatKind ∧ p.formats ⊆ j.formats

/-- There is nothing in `p` that `j` does not stand for: its type is as wide, and it has the value, the formats and a
hint already. -/
structure Covers (j p : Primitive) : Prop where
  type : p.baseType.Below j.baseType
  value : j.value.Keeps p.value j.baseType
  formats : j.CoversFormats p
  hint : j.typeHint = "" → p.typeHint = ""

theorem CoversFormats.of_kind_ne (h : j.CoversFormats p) (hkind : j.formatKind ≠ "") :
    p.formatKind = j.formatKind ∧ p.formats ⊆ j.formats := by
  unfold CoversFormats at h
  rwa [if_neg hkind] at h

theorem Covers.kind (h : j.Covers p) : j.formatKind = "" ∨ j.formatKind = p.formatKind := by
  by_cases hkind : j.formatKind = ""
  · exact .inl hkind
  · exact .inr (h.formats.of_kind_ne hkind).1.symm

theorem coversFormats_of_join (h : p.join q = some j) : j.CoversFormats p ∧ j.CoversFormats q := by
  unfold CoversFormats
  by_cases hkind : j.formatKind = ""
  · rw [if_pos hkind, if_pos hkind, and_self]
    exact (formats_of_kind_eq h hkind).1
  · rw [if_neg hkind, if_neg hkind]
    obtain ⟨hp, hq, hunion⟩ := joinFormats_eq_some (join_eq_some h).2 hkind
    rw [hunion]
    exact ⟨⟨hp, fun x hx => Labels.mem_union.2 (.inl hx)⟩, hq, fun x hx => Labels.mem_union.2 (.inr hx)⟩

theorem joinFormats_eq_self (hj : j.formats.Pairwise (· < ·)) (h : j.CoversFormats p) :
    j.joinFormats p = some (j.formatKind, j.formats) := by
  unfold joinFormats
  by_cases hkind : j.formatKind = ""
  · unfold CoversFormats at h
    rw [if_pos hkind] at h
    simp [hkind, h]
  · obtain ⟨hp, hsub⟩ := h.of_kind_ne hkind
    simp [hp, hkind, Labels.union_of_subset hj hsub]

/-- The choice of a hint is empty only when there is none to choose from. -/
theorem hint_eq_empty_iff {s t : String} : (if s.isEmpty then t else s) = "" ↔ s = "" ∧ t = "" := by
  by_cases hs : s = "" <;> simp [hs]

/-- Unless there are two hints, the one chosen is the same in either order. -/
theorem hint_comm {s t : String} (h : s = "" ∨ t = "" ∨ s = t) :
    (if t.isEmpty then s else t) = if s.isEmpty then t else s := by
  rcases h with rfl | rfl | rfl
  · by_cases ht : t = "" <;> simp [ht]
  · by_cases hs : s = "" <;> simp [hs]
  · rfl

/-- A join covers both sides. -/
theorem covers_of_join (h : p.join q = some j) : j.Covers p ∧ j.Covers q := by
  obtain ⟨htype, -⟩ := join_eq_some h
  obtain ⟨hvalue, hhint⟩ := join_eq h
  obtain ⟨hformats, hformats'⟩ := coversFormats_of_join h
  have hkeeps := Scalar.keeps_join p.value q.value j.baseType
  rw [← hvalue] at hkeeps
  have hhints : j.typeHint = "" → p.typeHint = "" ∧ q.typeHint = "" := fun hempty =>
    hint_eq_empty_iff.1 (hhint.symm.trans hempty)
  exact ⟨⟨BaseType.below_left_of_join htype, hkeeps.1, hformats, fun hempty => (hhints hempty).1⟩,
    BaseType.below_right_of_join htype, hkeeps.2, hformats', fun hempty => (hhints hempty).2⟩

/-- A join with `p` changes nothing exactly when `p` is covered. -/
theorem join_eq_self_iff (hj : j.formats.Pairwise (· < ·)) : j.join p = some j ↔ j.Covers p := by
  constructor
  · exact fun h => (covers_of_join h).2
  · intro h
    have htype : j.baseType.join p.baseType = some j.baseType := by
      rw [BaseType.join_comm]
      exact h.type
    have hvalue : j.value.join p.value j.baseType = j.value := Scalar.join_eq_self rfl h.value
    have hhint : (if j.typeHint.isEmpty then p.typeHint else j.typeHint) = j.typeHint := by
      by_cases hempty : j.typeHint = ""
      · simp [hempty, h.hint hempty]
      · simp [hempty]
    unfold join
    rw [htype, joinFormats_eq_self hj h.formats]
    dsimp only
    rw [hvalue, hhint]

/-! ## The other order -/

/-- The join in the other order: it has the same type and formats. -/
theorem join_swap (hp : p.formats.Pairwise (· < ·)) (hq : q.formats.Pairwise (· < ·)) (h : p.join q = some j) :
    q.join p = some
      { j with
        value := q.value.join p.value j.baseType
        typeHint := if q.typeHint.isEmpty then p.typeHint else q.typeHint } := by
  obtain ⟨htype, hformats⟩ := join_eq_some h
  unfold join
  rw [BaseType.join_comm, htype, joinFormats_comm hq hp, hformats]

/--
Joins absorb. Whether two primitives join does not depend on their order. Joining a join with either side again gives
it back, and its value is never a NaN. The join in the other order is the same, except that a floating-point zero may
have the other sign, and that the other one of two different hints is kept.
-/
theorem join_absorbs (hp : p.formats.Pairwise (· < ·)) (hq : q.formats.Pairwise (· < ·)) :
    p.joinable q = q.joinable p ∧ ∀ j, p.join q = some j →
      j.join p = some j ∧ j.join q = some j ∧ j.value.same j.value = true ∧
        ∃ value hint, q.join p = some { j with value := value, typeHint := hint } ∧ j.value.EqUpToZeroSign value ∧
          (p.typeHint = "" ∨ q.typeHint = "" ∨ p.typeHint = q.typeHint → hint = j.typeHint) := by
  refine ⟨joinable_comm p q, fun j h => ?_⟩
  have hj := pairwise_formats_of_join hp h
  obtain ⟨hcovers, hcovers'⟩ := covers_of_join h
  obtain ⟨hvalue, hhint⟩ := join_eq h
  have hsame : j.value.same (q.value.join p.value j.baseType) = true := by
    rw [hvalue]
    exact Scalar.same_join_comm p.value q.value j.baseType
  refine ⟨(join_eq_self_iff hj).2 hcovers, (join_eq_self_iff hj).2 hcovers', Scalar.same_self_of_same hsame,
    _, _, join_swap hp hq h, Scalar.eqUpToZeroSign_of_same hsame, fun hhints => ?_⟩
  rw [hhint]
  exact hint_comm hhints

/-- A length that was seen as a negative zero. -/
def width : Primitive :=
  { value := .float (Binary.ofCode true 0), formatKind := "length", formats := ["em"], typeHint := "width" }

/-- A length that was seen as an integer. -/
def height : Primitive := { value := .int32 0, formatKind := "length", formats := ["px"], typeHint := "height" }

/-- The join of both, in this order. -/
def extent : Primitive := { width with formats := ["em", "px"] }

/-- In the other order the zero is positive, and the hint is the other one. -/
theorem join_absorbs_width_height : (width.formats.Pairwise (· < ·) ∧ height.formats.Pairwise (· < ·)) ∧
    width.joinable height = height.joinable width ∧ width.join height = some extent ∧
      extent.join width = some extent ∧ extent.join height = some extent ∧ extent.value.same extent.value = true ∧
        height.join width = some { extent with value := .float Binary.zero, typeHint := "height" } ∧
          extent.value.EqUpToZeroSign (.float Binary.zero) := by
  have hwidth : width.formats.Pairwise (· < ·) := List.pairwise_singleton _ _
  have hheight : height.formats.Pairwise (· < ·) := List.pairwise_singleton _ _
  have hextent : width.join height = some extent := by decide
  have hswap : height.join width = some { extent with value := .float Binary.zero, typeHint := "height" } := by decide
  obtain ⟨hjoinable, habsorbs⟩ := join_absorbs hwidth hheight
  obtain ⟨hleft, hright, hself, value, hint, hother, hvalue, -⟩ := habsorbs extent hextent
  obtain ⟨rfl, -⟩ : value = .float Binary.zero ∧ hint = "height" := by
    rw [hswap] at hother
    cases hother
    exact ⟨rfl, rfl⟩
  exact ⟨⟨hwidth, hheight⟩, hjoinable, hextent, hleft, hright, hself, hswap, hvalue⟩

end Primitive

end ApiShape
