/-
Messages with one digest field by field: what the fields of one number hold on both sides, and the
scalars that are read back from fields that are left out when they hold a default.
-/
import ApiShape.Proofs.Digest.Unambiguous
import ApiShape.Proofs.Instance.Canonical

namespace ApiShape

open Canon

/-- The fields of two messages that match: each has its counterpart of the same number on the other
side. -/
structure Canon.Agree (H : List Bytes) (l l' : List (Nat × Canon)) : Prop where
  sub : ∀ n c, (n, c) ∈ l → ∃ d, (n, d) ∈ l' ∧ Matches H c d
  sup : ∀ n d, (n, d) ∈ l' → ∃ c, (n, c) ∈ l ∧ Matches H d c

namespace Canon.Agree

variable {H : List Bytes} {l l' : List (Nat × Canon)} {n k : Nat} {c d : Canon} {b b' : Bool}

theorem fieldsOf (h : Agree H l l') (n : Nat) : Agree H (fieldsOf n l) (ApiShape.fieldsOf n l') where
  sub k c hc := by
    obtain ⟨hmem, hk⟩ := List.mem_filter.1 hc
    obtain ⟨d, hd, hmatch⟩ := h.sub k c hmem
    exact ⟨d, List.mem_filter.2 ⟨hd, hk⟩, hmatch⟩
  sup k d hd := by
    obtain ⟨hmem, hk⟩ := List.mem_filter.1 hd
    obtain ⟨c, hc, hmatch⟩ := h.sup k d hmem
    exact ⟨c, List.mem_filter.2 ⟨hc, hk⟩, hmatch⟩

/-- A field that can only meet one field of the other side matches it. -/
theorem of_only (h : Agree H l l') (hc : (n, c) ∈ l) (honly : ∀ e, (n, e) ∈ l' → (n, e) = (k, d)) :
    n = k ∧ Matches H c d := by
  obtain ⟨e, he, hmatch⟩ := h.sub n c hc
  cases honly e he
  exact ⟨rfl, hmatch⟩

theorem single (h : Agree H [(n, c)] [(k, d)]) : n = k ∧ Matches H c d :=
  h.of_only (List.mem_singleton_self _) fun _ he => List.mem_singleton.1 he

/-- A group of members is left out on both sides or matches. -/
theorem members (h : Agree H (canonMembers n c b) (canonMembers n d b')) : b = b' ∧ (b = true ∨ Matches H c d) := by
  cases b with
  | true =>
    cases b' with
    | true => exact ⟨rfl, .inl rfl⟩
    | false =>
      obtain ⟨c, hc, -⟩ := h.sup n d (List.mem_singleton_self _)
      cases hc
  | false =>
    cases b' with
    | true =>
      obtain ⟨d, hd, -⟩ := h.sub n c (List.mem_singleton_self _)
      cases hd
    | false => exact ⟨rfl, .inr h.single.2⟩

theorem number_of_mem_members (h : (n, c) ∈ canonMembers k d b) : n = k := by
  cases b with
  | true => cases h
  | false => exact (Prod.ext_iff.1 (List.mem_singleton.1 h)).1

theorem optional (h : Agree H (optionalField n c) (optionalField n d)) :
    c.isDefault = d.isDefault ∧ (c.isDefault = true ∨ Matches H c d) :=
  members h

theorem bool (h : Agree H (optionalField n (.bool b)) (optionalField n (.bool b'))) : b = b' := by
  obtain ⟨hdefault, -⟩ := h.optional
  exact Bool.not_inj hdefault

section

variable (hH : ¬Sha256.Collides H)

include hH

theorem of_message (h : Matches H (.message l) (.message l')) : Agree H l l' :=
  ⟨h.message hH, h.symm.message hH⟩

theorem text {s t : String} (h : Agree H (optionalField n (.text s)) (optionalField n (.text t))) : s = t := by
  obtain ⟨hdefault, hs | hmatch⟩ := h.optional
  · rw [hs] at hdefault
    rw [String.isEmpty_iff.1 hs, String.isEmpty_iff.1 hdefault.symm]
  · exact hmatch.text hH

theorem int {i j : Int} (h : Agree H (optionalField n (.int i)) (optionalField n (.int j))) : i = j := by
  obtain ⟨hdefault, hs | hmatch⟩ := h.optional
  · rw [hs] at hdefault
    rw [eq_of_beq hs, eq_of_beq hdefault.symm]
  · exact hmatch.int hH

theorem raw {x y : Bytes} (h : Agree H (optionalField n (.raw x)) (optionalField n (.raw y))) : x = y := by
  obtain ⟨hdefault, hs | hmatch⟩ := h.optional
  · rw [hs] at hdefault
    rw [List.isEmpty_iff.1 hs, List.isEmpty_iff.1 hdefault.symm]
  · exact hmatch.raw hH

theorem float {x y : Binary64} (h : Agree H (optionalField n (.float x)) (optionalField n (.float y))) :
    x.normalized = y.normalized := by
  obtain ⟨hdefault, hs | hmatch⟩ := h.optional
  · rw [hs] at hdefault
    have hnan : ∀ z : Binary64, z.isZero = true → z.isNaN = false := by
      intro z hz
      have hcode : z.code = 0 := of_decide_eq_true hz
      exact decide_eq_false (by omega)
    have hx : x.isZero = true := hs
    have hy : y.isZero = true := hdefault.symm
    refine (Binary.normalized_eq_iff (by decide)).2 (.inl ?_)
    unfold Binary.same
    simp [hnan x hx, hnan y hy, hx, hy]
  · exact hmatch.float hH

end

end Canon.Agree

end ApiShape
