/-
The join of two primitives: its base type is the common base type of both, and it keeps a format
kind only when both have it. Labels, which hold the formats, stay in increasing order.
-/
import ApiShape.Primitive.Basic
import Mathlib.Data.List.Sort

namespace ApiShape

/-! ## Labels -/

namespace Labels

theorem mem_insert {l : Labels} {s t : String} : t ∈ insert l s ↔ t = s ∨ t ∈ l := by
  induction l with
  | nil => simp [insert]
  | cons s' rest ih =>
    unfold insert
    split
    · exact List.mem_cons
    · split
      · rename_i heq
        subst heq
        simp
      · rw [List.mem_cons, ih, List.mem_cons]
        exact or_left_comm

theorem mem_union {a b : Labels} {t : String} : t ∈ union a b ↔ t ∈ a ∨ t ∈ b := by
  unfold union
  induction b generalizing a with
  | nil => simp
  | cons s rest ih =>
    rw [List.foldl_cons, ih, mem_insert, List.mem_cons]
    exact or_assoc.trans or_left_comm

/-- Inserting a text keeps a set in order. -/
theorem pairwise_insert {l : Labels} (h : l.Pairwise (· < ·)) (s : String) : (insert l s).Pairwise (· < ·) := by
  induction l with
  | nil => exact List.pairwise_singleton _ _
  | cons t rest ih =>
    obtain ⟨hfirst, hrest⟩ := List.pairwise_cons.1 h
    unfold insert
    split
    · rename_i hlt
      refine List.pairwise_cons.2 ⟨fun u hu => ?_, h⟩
      rcases List.mem_cons.1 hu with rfl | hu
      · exact hlt
      · exact String.lt_trans hlt (hfirst u hu)
    · split
      · exact h
      · rename_i hnlt hne
        have hlt : t < s := by
          refine String.not_le.1 fun hle => hne (String.le_antisymm hle (String.not_lt.1 hnlt))
        refine List.pairwise_cons.2 ⟨fun u hu => ?_, ih hrest⟩
        rcases mem_insert.1 hu with rfl | hu
        · exact hlt
        · exact hfirst u hu

theorem pairwise_union {a : Labels} (h : a.Pairwise (· < ·)) (b : Labels) : (union a b).Pairwise (· < ·) := by
  unfold union
  induction b generalizing a with
  | nil => exact h
  | cons s rest ih => exact ih (pairwise_insert h s)

theorem union_comm {a b : Labels} (ha : a.Pairwise (· < ·)) (hb : b.Pairwise (· < ·)) : union a b = union b a :=
  List.Pairwise.eq_of_mem_iff (pairwise_union ha b) (pairwise_union hb a) fun x => by
    rw [mem_union, mem_union, or_comm]

theorem insert_of_mem {l : Labels} {x : String} (h : l.Pairwise (· < ·)) (hx : x ∈ l) : insert l x = l := by
  induction l with
  | nil => cases hx
  | cons y rest ih =>
    rw [List.pairwise_cons] at h
    unfold insert
    rcases List.mem_cons.1 hx with rfl | hx
    · rw [if_neg (String.lt_irrefl x), if_pos rfl]
    · have hlt := h.1 x hx
      rw [if_neg (String.lt_asymm hlt), if_neg (Ne.symm (String.ne_of_lt hlt)), ih h.2 hx]

theorem union_of_subset {l l' : Labels} (h : l.Pairwise (· < ·)) (hsub : ∀ x ∈ l', x ∈ l) :
    union l l' = l := by
  unfold union
  induction l' with
  | nil => rfl
  | cons x rest ih =>
    rw [List.foldl_cons, insert_of_mem h (hsub x List.mem_cons_self)]
    exact ih fun y hy => hsub y (List.mem_cons_of_mem _ hy)

theorem insert_eq_append {l : Labels} {s : String} (h : ∀ t ∈ l, t < s) : insert l s = l ++ [s] := by
  induction l with
  | nil => rfl
  | cons t rest ih =>
    have hlt : t < s := h t List.mem_cons_self
    unfold insert
    rw [if_neg (String.lt_asymm hlt), if_neg (Ne.symm (String.ne_of_lt hlt)),
      ih fun t ht => h t (List.mem_cons_of_mem _ ht)]
    rfl

/-- Texts that stand in order are the labels of themselves. -/
theorem ofList_eq {l : Labels} (h : l.Pairwise (· < ·)) : ofList l = l := by
  suffices hfold : ∀ acc : Labels, (acc ++ l).Pairwise (· < ·) → l.foldl insert acc = acc ++ l from hfold [] h
  induction l with
  | nil => exact fun acc _ => (List.append_nil acc).symm
  | cons s rest ih =>
    intro acc hacc
    have hlast : ∀ t ∈ acc, t < s := fun t ht => (List.pairwise_append.1 hacc).2.2 t ht s List.mem_cons_self
    rw [List.foldl_cons, insert_eq_append hlast, ih (List.Pairwise.of_cons h), List.append_assoc]
    · rfl
    · rwa [List.append_assoc]

end Labels

/-! ## Base types -/

namespace BaseType

theorem mem_all (t : BaseType) : t ∈ all := by
  cases t <;> decide

/-- What can be decided of each base type can be decided of all. -/
instance {P : BaseType → Prop} [DecidablePred P] : Decidable (∀ t, P t) :=
  decidable_of_iff (∀ t ∈ all, P t) ⟨fun h t => h t (mem_all t), fun h t _ => h t⟩

/-- The type `t` stands for every value of type `b`. -/
def Below (b t : BaseType) : Prop := b.join t = some t

instance (b t : BaseType) : Decidable (b.Below t) := inferInstanceAs (Decidable (b.join t = some t))

theorem Below.refl (b : BaseType) : b.Below b := join_self b

theorem Below.trans {a b c : BaseType} (hab : a.Below b) (hbc : b.Below c) : a.Below c := by
  revert a b c
  decide

theorem below_left_of_join {a b t : BaseType} (h : a.join b = some t) : a.Below t := by
  revert a b t
  decide

theorem below_right_of_join {a b t : BaseType} (h : a.join b = some t) : b.Below t := by
  rw [join_comm] at h
  exact below_left_of_join h

end BaseType

/-! ## Values -/

namespace Scalar

theorem widen_self (s : Scalar) : s.widen s.baseType = some s := by
  unfold widen
  rw [if_pos rfl]

theorem baseType_widen {s s' : Scalar} {t : BaseType} (h : s.widen t = some s') : s'.baseType = t := by
  unfold widen at h
  split at h
  · rename_i heq
    cases h
    exact heq
  · split at h <;> cases h <;> rfl

theorem baseType_join (a b : Scalar) (t : BaseType) : (a.join b t).baseType = t := by
  unfold join
  split
  · rename_i a' b' ha hb
    split
    · exact baseType_widen ha
    · exact baseType_zero t
  · exact baseType_zero t

end Scalar

/-! ## Primitives -/

namespace Primitive

variable {p q j : Primitive}

theorem join_eq_some (h : p.join q = some j) :
    p.baseType.join q.baseType = some j.baseType ∧ p.joinFormats q = some (j.formatKind, j.formats) := by
  unfold join at h
  split at h
  · rename_i t kind formats ht hformats
    cases h
    refine ⟨?_, hformats⟩
    rw [ht]
    exact congrArg some (Scalar.baseType_join _ _ t).symm
  · cases h

theorem join_eq (h : p.join q = some j) : j.value = p.value.join q.value j.baseType ∧
    j.typeHint = if p.typeHint.isEmpty then q.typeHint else p.typeHint := by
  obtain ⟨htype, hformats⟩ := join_eq_some h
  unfold join at h
  rw [htype, hformats] at h
  have h := Option.some.inj h
  exact ⟨(congrArg value h).symm, (congrArg typeHint h).symm⟩

/-- A format kind of the join is that of both sides, and the formats are those of both. -/
theorem joinFormats_eq_some {kind : String} {formats : Labels} (h : p.joinFormats q = some (kind, formats))
    (hkind : kind ≠ "") :
    p.formatKind = kind ∧ q.formatKind = kind ∧ formats = Labels.union p.formats q.formats := by
  unfold joinFormats at h
  split at h
  · cases h
    exact absurd rfl hkind
  · split at h
    · rename_i heq
      cases h
      exact ⟨rfl, heq.symm, rfl⟩
    · cases h

theorem joinFormats_kind_eq {formats : Labels} (h : p.joinFormats q = some ("", formats)) :
    formats = [] ∧ (p.formatKind = "" ∨ q.formatKind = "") := by
  unfold joinFormats at h
  split at h
  · rename_i hempty
    cases h
    exact ⟨rfl, by simpa using hempty⟩
  · split at h
    · rename_i hempty _
      injection h with h
      have hkind : p.formatKind = "" := congrArg Prod.fst h
      rw [hkind] at hempty
      exact absurd rfl hempty
    · cases h

/-- The join of two formatted primitives has no kind only when one of them has none. -/
theorem formats_of_kind_eq (h : p.join q = some j) (hkind : j.formatKind = "") :
    j.formats = [] ∧ (p.formatKind = "" ∨ q.formatKind = "") := by
  have hformats := (join_eq_some h).2
  rw [hkind] at hformats
  exact joinFormats_kind_eq hformats

/-- The formats of a join are in order. -/
theorem pairwise_formats_of_join (hp : p.formats.Pairwise (· < ·)) (h : p.join q = some j) :
    j.formats.Pairwise (· < ·) := by
  by_cases hkind : j.formatKind = ""
  · rw [(formats_of_kind_eq h hkind).1]
    exact .nil
  · rw [(joinFormats_eq_some (join_eq_some h).2 hkind).2.2]
    exact Labels.pairwise_union hp _

/-- Formats stand in the way of a join only when both sides have a kind, and not the same. -/
theorem joinFormats_isSome (p q : Primitive) :
    (p.joinFormats q).isSome ↔ p.formatKind = "" ∨ q.formatKind = "" ∨ p.formatKind = q.formatKind := by
  unfold joinFormats
  by_cases hp : p.formatKind = ""
  · simp [hp]
  · by_cases hq : q.formatKind = ""
    · simp [hq]
    · by_cases hpq : p.formatKind = q.formatKind <;> simp [hp, hq, hpq]

theorem joinFormats_comm (hp : p.formats.Pairwise (· < ·)) (hq : q.formats.Pairwise (· < ·)) :
    p.joinFormats q = q.joinFormats p := by
  unfold joinFormats
  rw [Bool.or_comm, Labels.union_comm hp hq]
  by_cases h : p.formatKind = q.formatKind
  · rw [if_pos h, if_pos h.symm, h]
  · rw [if_neg h, if_neg (Ne.symm h)]

theorem joinable_eq (p q : Primitive) :
    p.joinable q = ((p.baseType.join q.baseType).isSome && (p.joinFormats q).isSome) := by
  unfold joinable join
  cases p.baseType.join q.baseType with
  | none => rfl
  | some t => cases p.joinFormats q <;> rfl

theorem joinable_self (p : Primitive) : p.joinable p := by
  rw [joinable_eq, BaseType.join_self, Option.isSome_some, Bool.true_and]
  exact (joinFormats_isSome p p).2 (.inr (.inr rfl))

theorem joinable_comm (p q : Primitive) : p.joinable q = q.joinable p := by
  have hformats : (p.joinFormats q).isSome = (q.joinFormats p).isSome := by
    rw [Bool.eq_iff_iff, joinFormats_isSome, joinFormats_isSome, or_left_comm, @eq_comm _ p.formatKind q.formatKind]
  rw [joinable_eq, joinable_eq, BaseType.join_comm, hformats]

end Primitive

end ApiShape
