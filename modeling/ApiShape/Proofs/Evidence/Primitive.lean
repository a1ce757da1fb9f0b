/-
Primitives joined in any order and grouping: among base types on which the join is a least upper bound,
the result is determined by the bag of the observations (`JoinOf`). Its type is the least one above all of
them, its formats are those of all, and its value is the one that all stand for.
-/
import ApiShape.Proofs.Evidence.Reading
import Mathlib.Data.Multiset.AddSub
import Mathlib.Data.Multiset.ZeroCons

namespace ApiShape

/-! ## Base types -/

namespace BaseType

/--
Base types among which the order of joins does not matter: a join is the least type above both sides, and a
wider type joins with everything that a narrower one joins with.
-/
structure Coherent (types : List BaseType) : Prop where
  text : .string ∈ types
  closed : ∀ a ∈ types, ∀ b ∈ types, ∀ t ∈ a.join b, t ∈ types
  least : ∀ a ∈ types, ∀ b ∈ types, ∀ t ∈ a.join b, ∀ u ∈ types, a.Below u → b.Below u → t.Below u
  wider : ∀ a ∈ types, ∀ u ∈ types, a.Below u → ∀ b ∈ types, (a.join b).isSome → (u.join b).isSome

theorem Below.antisymm {a b : BaseType} (hab : a.Below b) (hba : b.Below a) : a = b := by
  unfold Below at hab hba
  rw [join_comm, hab] at hba
  exact (Option.some.inj hba).symm

/-- The unsigned 32-bit type is the only one below types that do not join. -/
theorem coherent_of_no_uint32 : Coherent [.bool, .bytes, .string, .int32, .int64, .uint64, .float, .double] :=
  ⟨by decide, by decide, by decide, by decide⟩

end BaseType

/-! ## Primitives of observations -/

namespace Primitive

variable {types : List BaseType} {p q j u : Primitive}

/-- A primitive as an observation has it: its value is exact in every type that it can be joined to. -/
structure Observed (types : List BaseType) (p : Primitive) : Prop where
  hint : p.typeHint = ""
  type : p.baseType ∈ types
  exact : ∀ t ∈ types, p.baseType.Below t → p.value.Exact t
  labelled : p.formats.Pairwise (· < ·)

/-- The type and the format kind of `j` stand for those of `p`. -/
structure Below (p j : Primitive) : Prop where
  type : p.baseType.Below j.baseType
  kind : j.formatKind = "" ∨ j.formatKind = p.formatKind

theorem Below.refl (p : Primitive) : p.Below p := ⟨.refl _, .inr rfl⟩

theorem Below.trans (hpj : p.Below j) (hju : j.Below u) : p.Below u where
  type := hpj.type.trans hju.type
  kind := by
    rcases hju.kind with h | h
    · exact .inl h
    · rw [h]
      exact hpj.kind

theorem joinable_iff : p.joinable q = true ↔ (p.baseType.join q.baseType).isSome = true ∧
    (p.formatKind = "" ∨ q.formatKind = "" ∨ p.formatKind = q.formatKind) := by
  rw [joinable_eq, Bool.and_eq_true, joinFormats_isSome]

/-! ### One join -/

theorem Covers.below (h : j.Covers p) : p.Below j := ⟨h.type, h.kind⟩

theorem below_of_join (h : p.join q = some j) : p.Below j ∧ q.Below j :=
  (covers_of_join h).imp Covers.below Covers.below

section

variable (hT : BaseType.Coherent types)

include hT

/-- The join is the least primitive above both. -/
theorem below_join (h : p.join q = some j) (hp : p.baseType ∈ types) (hq : q.baseType ∈ types)
    (hu : u.baseType ∈ types) (hpu : p.Below u) (hqu : q.Below u) : j.Below u where
  type := hT.least _ hp _ hq _ (join_eq_some h).1 _ hu hpu.type hqu.type
  kind := by
    rcases hpu.kind with hk | hpk
    · exact .inl hk
    · rcases hqu.kind with hk | hqk
      · exact .inl hk
      · refine .inr ?_
        by_cases hkind : j.formatKind = ""
        · rcases (formats_of_kind_eq h hkind).2 with hk | hk
          · rw [hkind, hpk, hk]
          · rw [hkind, hqk, hk]
        · rw [hpk, (joinFormats_eq_some (join_eq_some h).2 hkind).1]

/-- What stands for `p` joins with everything that `p` joins with. -/
theorem joinable_of_below (hpu : p.Below u) (hp : p.baseType ∈ types) (hu : u.baseType ∈ types)
    (hq : q.baseType ∈ types) (h : p.joinable q = true) : u.joinable q = true := by
  rw [joinable_iff] at h ⊢
  refine ⟨hT.wider _ hp _ hu hpu.type _ hq h.1, ?_⟩
  rcases hpu.kind with hk | hk
  · exact .inl hk
  · rw [hk]
    exact h.2

theorem joinable_below (hpu : p.Below u) (hp : p.baseType ∈ types) (hu : u.baseType ∈ types) : u.joinable p = true :=
  joinable_of_below hT hpu hp hu hp (joinable_self p)

/-- The value of a join stands for what both values stand for, or it is a zero. -/
theorem Observed.reading_join (hp : p.Observed types) (hq : q.Observed types) (h : p.join q = some j) :
    (p.value.reading = q.value.reading ∧ p.value.reading ≠ .nan → j.value.reading = p.value.reading) ∧
      (¬(p.value.reading = q.value.reading ∧ p.value.reading ≠ .nan) →
        j.value.reading = (Scalar.zero j.baseType).reading) := by
  have hj := hT.closed _ hp.type _ hq.type _ (join_eq_some h).1
  obtain ⟨hpj, hqj⟩ := below_of_join h
  obtain ⟨a, ha⟩ := Scalar.exists_widen hpj.type
  obtain ⟨b, hb⟩ := Scalar.exists_widen hqj.type
  have hareading := Scalar.reading_widen ha (hp.exact _ hj hpj.type)
  have hbreading := Scalar.reading_widen hb (hq.exact _ hj hqj.type)
  have hsame := Scalar.same_iff_reading ((Scalar.baseType_widen ha).trans (Scalar.baseType_widen hb).symm)
  rw [hareading, hbreading] at hsame
  have hvalue : j.value = if a.same b then a else Scalar.zero j.baseType := by
    rw [(join_eq h).1]
    unfold Scalar.join
    rw [ha, hb]
  rw [hvalue]
  constructor
  · intro heq
    rw [if_pos (hsame.2 heq), hareading]
  · intro hne
    rw [if_neg fun hs => hne (hsame.1 hs)]

/-- The join of observed primitives is one again. -/
theorem Observed.join (hp : p.Observed types) (hq : q.Observed types) (h : p.join q = some j) : j.Observed types where
  hint := by rw [(join_eq h).2, hp.hint, hq.hint]; rfl
  type := hT.closed _ hp.type _ hq.type _ (join_eq_some h).1
  exact t ht hjt := by
    obtain ⟨heq, hne⟩ := Observed.reading_join hT hp hq h
    obtain ⟨hpj, -⟩ := below_of_join h
    unfold Scalar.Exact
    by_cases hs : p.value.reading = q.value.reading ∧ p.value.reading ≠ .nan
    · rw [heq hs]
      exact hp.exact t ht (hpj.type.trans hjt)
    · rw [hne hs]
      exact ⟨Scalar.zero t, Scalar.baseType_zero t, (Scalar.reading_zero_of_below hjt).symm⟩
  labelled := pairwise_formats_of_join hp.labelled h

end

/-! ## Bags of primitives -/

/-- A bag of primitives joined to one, in some order and grouping. -/
inductive JoinOf : Multiset Primitive → Primitive → Prop
  | single (p : Primitive) : JoinOf {p} p
  | join {ps qs : Multiset Primitive} {p q j : Primitive} : JoinOf ps p → JoinOf qs q → p.join q = some j →
      JoinOf (ps + qs) j

namespace JoinOf

variable {types : List BaseType} {ps qs : Multiset Primitive} {p j j' u : Primitive}

theorem card_pos (h : JoinOf ps j) : 0 < ps.card := by
  induction h with
  | single => simp
  | join _ _ _ hp hq =>
    rw [Multiset.card_add]
    omega

theorem exists_mem (h : JoinOf ps j) : ∃ p, p ∈ ps := Multiset.card_pos_iff_exists_mem.1 h.card_pos

theorem below_of_mem (h : JoinOf ps j) : ∀ p ∈ ps, p.Below j := by
  induction h with
  | single p =>
    intro q hq
    obtain rfl := Multiset.mem_singleton.1 hq
    exact .refl _
  | join _ _ hj hp hq =>
    obtain ⟨hpj, hqj⟩ := Primitive.below_of_join hj
    intro x hx
    rcases Multiset.mem_add.1 hx with hx | hx
    · exact (hp x hx).trans hpj
    · exact (hq x hx).trans hqj

/-- One primitive is left as it is. -/
theorem of_card_eq_one (h : JoinOf ps j) (hcard : ps.card = 1) : ps = {j} := by
  cases h with
  | single => rfl
  | join hp hq =>
    have := hp.card_pos
    have := hq.card_pos
    rw [Multiset.card_add] at hcard
    omega

theorem formats_of_kind_ne (h : JoinOf ps j) (hkind : j.formatKind ≠ "") (x : String) :
    x ∈ j.formats ↔ ∃ p ∈ ps, x ∈ p.formats := by
  induction h with
  | single p => simp
  | join _ _ hj hp hq =>
    obtain ⟨hpk, hqk, hformats⟩ := Primitive.joinFormats_eq_some (Primitive.join_eq_some hj).2 hkind
    rw [hformats, Labels.mem_union, hp (by rwa [hpk]), hq (by rwa [hqk])]
    simp only [Multiset.mem_add, or_and_right, exists_or]

theorem formats_of_kind_eq (h : JoinOf ps j) (hcard : 2 ≤ ps.card) (hkind : j.formatKind = "") : j.formats = [] := by
  cases h with
  | single => simp at hcard
  | join _ _ hj => exact (Primitive.formats_of_kind_eq hj hkind).1

section

variable (hT : BaseType.Coherent types)

include hT

theorem observed (h : JoinOf ps j) (hps : ∀ p ∈ ps, p.Observed types) : j.Observed types := by
  induction h with
  | single p => exact hps p (Multiset.mem_singleton_self p)
  | join _ _ hj hp hq =>
    exact (hp fun x hx => hps x (Multiset.mem_add.2 (.inl hx))).join hT
      (hq fun x hx => hps x (Multiset.mem_add.2 (.inr hx))) hj

theorem least (h : JoinOf ps j) (hps : ∀ p ∈ ps, p.Observed types) (hu : u.baseType ∈ types)
    (hbelow : ∀ p ∈ ps, p.Below u) : j.Below u := by
  induction h with
  | single p => exact hbelow p (Multiset.mem_singleton_self p)
  | join hp hq hj ihp ihq =>
    have hps' := fun x hx => hps x (Multiset.mem_add.2 (.inl hx))
    have hqs' := fun x hx => hps x (Multiset.mem_add.2 (.inr hx))
    exact Primitive.below_join hT hj (hp.observed hT hps').type (hq.observed hT hqs').type hu
      (ihp hps' fun x hx => hbelow x (Multiset.mem_add.2 (.inl hx)))
      (ihq hqs' fun x hx => hbelow x (Multiset.mem_add.2 (.inr hx)))

/-- The value of joined primitives stands for what all of them stand for, or it is a zero. -/
theorem reading (h : JoinOf ps j) (hps : ∀ p ∈ ps, p.Observed types) :
    (∀ p ∈ ps, p.value.reading = j.value.reading) ∨
      j.value.reading = (Scalar.zero j.baseType).reading ∧ ∀ r, (∀ p ∈ ps, p.value.reading = r) → r = .nan := by
  induction h with
  | single p =>
    refine .inl fun q hq => ?_
    rw [Multiset.mem_singleton.1 hq]
  | @join ps qs p q j hp hq hj ihp ihq =>
    have hps' := fun x hx => hps x (Multiset.mem_add.2 (.inl hx))
    have hqs' := fun x hx => hps x (Multiset.mem_add.2 (.inr hx))
    obtain ⟨hpj, hqj⟩ := Primitive.below_of_join hj
    obtain ⟨heq, hne⟩ := Primitive.Observed.reading_join hT (hp.observed hT hps') (hq.observed hT hqs') hj
    by_cases hs : p.value.reading = q.value.reading ∧ p.value.reading ≠ .nan
    · rcases ihp hps' with hpall | ⟨hpzero, hpnone⟩
      · rcases ihq hqs' with hqall | ⟨hqzero, hqnone⟩
        · refine .inl fun x hx => ?_
          rw [heq hs]
          rcases Multiset.mem_add.1 hx with hx | hx
          · exact hpall x hx
          · rw [hqall x hx, hs.1]
        · refine .inr ⟨?_, fun r hr => hqnone r fun x hx => hr x (Multiset.mem_add.2 (.inr hx))⟩
          rw [heq hs, hs.1, hqzero]
          exact Scalar.reading_zero_of_below hqj.type
      · refine .inr ⟨?_, fun r hr => hpnone r fun x hx => hr x (Multiset.mem_add.2 (.inl hx))⟩
        rw [heq hs, hpzero]
        exact Scalar.reading_zero_of_below hpj.type
    · refine .inr ⟨hne hs, fun r hr => ?_⟩
      have hrp := fun x hx => hr x (Multiset.mem_add.2 (.inl hx))
      have hrq := fun x hx => hr x (Multiset.mem_add.2 (.inr hx))
      rcases ihp hps' with hpall | ⟨-, hpnone⟩
      · rcases ihq hqs' with hqall | ⟨-, hqnone⟩
        · -- Both sides stand for `r`, and do not agree: only a NaN differs from itself.
          obtain ⟨x, hx⟩ := hp.exists_mem
          obtain ⟨y, hy⟩ := hq.exists_mem
          have hpr : p.value.reading = r := (hpall x hx).symm.trans (hrp x hx)
          have hqr : q.value.reading = r := (hqall y hy).symm.trans (hrq y hy)
          by_contra hnan
          exact hs ⟨hpr.trans hqr.symm, hpr ▸ hnan⟩
        · exact hqnone r hrq
      · exact hpnone r hrp

theorem reading_ne_nan (h : JoinOf ps j) (hcard : 2 ≤ ps.card) (hps : ∀ p ∈ ps, p.Observed types) :
    j.value.reading ≠ .nan := by
  cases h with
  | single => simp at hcard
  | @join ps qs p q j hp hq hj =>
    obtain ⟨heq, hne⟩ := Primitive.Observed.reading_join hT
      (hp.observed hT fun x hx => hps x (Multiset.mem_add.2 (.inl hx)))
      (hq.observed hT fun x hx => hps x (Multiset.mem_add.2 (.inr hx))) hj
    by_cases hs : p.value.reading = q.value.reading ∧ p.value.reading ≠ .nan
    · rw [heq hs]
      exact hs.2
    · rw [hne hs]
      exact Scalar.reading_zero_ne_nan _

/-- What a bag of observed primitives is joined to does not depend on how. -/
theorem alike (h : JoinOf ps j) (h' : JoinOf ps j') (hps : ∀ p ∈ ps, p.Observed types) : j.Alike j' := by
  obtain ⟨p, hp⟩ := h.exists_mem
  have hj := h.observed hT hps
  have hj' := h'.observed hT hps
  have hle := h.least hT hps hj'.type h'.below_of_mem
  have hge := h'.least hT hps hj.type h.below_of_mem
  have htype := hle.type.antisymm hge.type
  have hkind : j.formatKind = j'.formatKind := by
    rcases hle.kind with hk | hk
    · rcases hge.kind with hk' | hk'
      · rw [hk, hk']
      · exact hk'
    · exact hk.symm
  by_cases hcard : ps.card = 1
  · have heq := (h.of_card_eq_one hcard).symm.trans (h'.of_card_eq_one hcard)
    rw [Multiset.singleton_inj.1 heq]
    exact ⟨.refl _, rfl, rfl, rfl⟩
  · have hcard : 2 ≤ ps.card := by
      have := h.card_pos
      omega
    refine ⟨Scalar.alike_of_reading htype ?_, hkind, ?_, hj.hint.trans hj'.hint.symm⟩
    · rcases h.reading hT hps with hall | ⟨hzero, hnone⟩
      · rcases h'.reading hT hps with hall' | ⟨-, hnone'⟩
        · exact (hall p hp).symm.trans (hall' p hp)
        · exact absurd (hnone' _ hall) (h.reading_ne_nan hT hcard hps)
      · rcases h'.reading hT hps with hall' | ⟨hzero', -⟩
        · exact absurd (hnone _ hall') (h'.reading_ne_nan hT hcard hps)
        · rw [hzero, hzero', htype]
    · by_cases hk : j.formatKind = ""
      · rw [h.formats_of_kind_eq hcard hk, h'.formats_of_kind_eq hcard (hkind ▸ hk)]
      · refine List.Pairwise.eq_of_mem_iff hj.labelled hj'.labelled fun x => ?_
        rw [h.formats_of_kind_ne hk, h'.formats_of_kind_ne (hkind ▸ hk)]

end

end JoinOf

end Primitive

end ApiShape
