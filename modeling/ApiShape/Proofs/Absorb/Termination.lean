/-
Absorbing ends. The recursion is run once more under an explicit limit, and this time each optional layer of a
source counts as a step as well (`absorbNested`). From a limit on that is computed from the two trees, the limit
plays no part: the run gives a result, or it refuses a source of the wrong kind, but it never runs out.

What is used up is the rank of a pair, and below it the optional layers of its source, of which there are at most
as many as the two trees have nodes.
-/
import ApiShape.Proofs.Absorb.Layers
import ApiShape.Proofs.Absorb.Reach

namespace ApiShape

/-! ## Faults -/

/-- A refusal is about the kind of a node. -/
theorem Refused.isInvalidVariant {dst src : Schema} {f : Fault} (h : Refused dst src f) :
    ∃ kind context, f = .invalidVariant kind context := by
  induction h with
  | optional _ _ ih => exact ih
  | nested => exact ⟨_, _, rfl⟩
  | option => exact ⟨_, _, rfl⟩

section

variable {limits : Limits} {dst src : Schema}

/-- A run fails only where it comes to a pair whose source is refused. -/
theorem refused_of_absorb {f : Fault} (hd : dst.form.Everywhere Form.Ordered) (hs : src.form.Everywhere Form.Ordered)
    (h : absorb limits dst src = .error f) : ∃ d s, Reaches limits dst src d s ∧ Refused d s f.root := by
  induction hn : rank dst src using Nat.strongRecOn generalizing dst src f with
  | _ n ih =>
    subst hn
    rw [absorb_eq_step hd hs] at h
    rcases absorbStep_error src h with ⟨d, s, g, hcall, hg, hroot⟩ | hrefused
    · obtain ⟨hd', hs', hlt⟩ := hcall.rank_lt_of_absorb hd hs
      obtain ⟨d', s', hreach, hrefused⟩ := ih _ hlt hd' hs' hg rfl
      exact ⟨d', s', .call hcall hreach, hroot ▸ hrefused⟩
    · exact ⟨dst, src, .here dst src, hrefused⟩

end

/-! ## Counting every step -/

/-- One step, with the interior of an optional source handed to the absorber as well. -/
def absorbLayer (limits : Limits) (absorb : Absorber) (dst src : Schema) : Except Fault Schema :=
  match src.form with
  | .optional inner => do
    let result ← absorb (dst.orNullable src.nullable) inner
    return result.makeOptional.mergeExamples src.examples
  | _ => absorbStep limits absorb dst src

/-- Absorbs with at most `depth` nested calls, those for the interior of an optional source included. -/
def absorbNested (limits : Limits) : (depth : Nat) → Absorber
  | 0 => fun _ _ => .error .tooDeep
  | depth + 1 => absorbLayer limits (absorbNested limits depth)

/-- How many nested calls are enough: on each of the levels that `depthBound` counts, one for each optional layer. -/
def nestedBound (dst src : Schema) : Nat := depthBound dst src * (dst.size + src.size + 1)

section

variable {limits : Limits} {dst src : Schema}

theorem absorbLayer_of_optional {absorb : Absorber} {inner : Schema} (h : src.form = .optional inner) :
    absorbLayer limits absorb dst src = (do
      let result ← absorb (dst.orNullable src.nullable) inner
      return result.makeOptional.mergeExamples src.examples) := by
  unfold absorbLayer
  rw [h]

theorem absorbLayer_of_not_optional {absorb : Absorber} (h : ∀ inner, src.form ≠ .optional inner) :
    absorbLayer limits absorb dst src = absorbStep limits absorb dst src := by
  unfold absorbLayer
  split
  · exact absurd ‹_› (h _)
  · rfl

theorem absorbStep_of_optional {absorb : Absorber} {inner : Schema} (h : src.form = .optional inner) :
    absorbStep limits absorb dst src = (do
      let result ← absorbStep limits absorb (dst.orNullable src.nullable) inner
      return result.makeOptional.mergeExamples src.examples) := by
  obtain ⟨form, nullable, metadata, examples⟩ := src
  obtain rfl : form = .optional inner := h
  rfl

theorem rank_of_optional {inner : Schema} (h : src.form = .optional inner) (b : Bool) :
    rank (dst.orNullable b) inner = rank dst src := by
  unfold rank
  rw [stage_orNullable, stage_optional h, weight_orNullable, weight_eq src, h]
  rfl

/-- With enough nested calls for all levels and layers, their number plays no part. -/
theorem absorbNested_eq_absorb {k depth : Nat} (hk : 0 < k) (hd : dst.form.Everywhere Form.Ordered)
    (hs : src.form.Everywhere Form.Ordered) (hdq : dst.form.Everywhere (Form.Shallow k))
    (hsq : src.form.Everywhere (Form.Shallow k)) (h : rank dst src * (k + 1) + src.layers < depth) :
    absorbNested limits depth dst src = absorb limits dst src := by
  induction depth generalizing dst src with
  | zero => omega
  | succ depth ih =>
    rw [absorb_eq_step hd hs]
    show absorbLayer limits (absorbNested limits depth) dst src = _
    by_cases hopt : ∃ inner, src.form = .optional inner
    · -- the pair with the interior has the same rank, but one layer less
      obtain ⟨inner, hform⟩ := hopt
      have hinner : inner.form.Everywhere Form.Ordered := (Form.everywhere_optional.1 (hform ▸ hs)).2
      have hinnerq : inner.form.Everywhere (Form.Shallow k) := (Form.everywhere_optional.1 (hform ▸ hsq)).2
      rw [layers_optional hform] at h
      rw [absorbLayer_of_optional hform, absorbStep_of_optional hform,
        @ih (dst.orNullable src.nullable) inner hd hinner hdq hinnerq (by rw [rank_of_optional hform]; omega),
        @absorb_eq_step limits (dst.orNullable src.nullable) inner hd hinner]
    · -- any other call lowers the rank, which pays for all layers that its source may have
      rw [absorbLayer_of_not_optional fun inner hform => hopt ⟨inner, hform⟩]
      refine (absorbStep_congr src fun d s hcall => ?_).symm
      obtain ⟨hd', hs', hlt⟩ := hcall.rank_lt_of_absorb hd hs
      obtain ⟨hdq', hsq'⟩ := hcall.everywhere (closed_shallow limits hk)
        (fun d s r _ hr => (keepsShallow_of_absorbWithin hk hr).keeps) hdq hsq
      have hlayers := layers_le_of_shallow hsq'.root
      have hmul : (rank d s + 1) * (k + 1) ≤ rank dst src * (k + 1) := Nat.mul_le_mul_right _ hlt
      rw [Nat.succ_mul] at hmul
      exact (ih hd' hs' hdq' hsq' (by omega)).symm

theorem absorbNested_eq_of_bound {depth : Nat} (hd : dst.form.Everywhere Form.Ordered)
    (hs : src.form.Everywhere Form.Ordered) (h : nestedBound dst src ≤ depth) :
    absorbNested limits depth dst src = absorb limits dst src := by
  have hdq := dst.shallow_of_size_le (Nat.le_add_right dst.size src.size)
  have hsq := src.shallow_of_size_le (Nat.le_add_left src.size dst.size)
  have hpos : 0 < dst.size + src.size := by
    rw [size_eq dst]
    omega
  refine absorbNested_eq_absorb hpos hd hs hdq hsq ?_
  have hlayers := layers_le_of_shallow hsq.root
  have hrank : (rank dst src + 1) * (dst.size + src.size + 1) ≤ nestedBound dst src :=
    Nat.mul_le_mul_right _ (rank_lt_depthBound dst src)
  rw [Nat.succ_mul] at hrank
  omega

end

/--
Absorbing ends, for all limits and any two trees whose tables are in key order, well-formed or not. From
`nestedBound` on every limit on the nested calls, and from `depthBound` on every limit on the nested steps, gives
what absorbing gives, which is a tree, or a fault about the kind of a node: neither a limit nor the rounds in which
a primitive takes in options, one for each option, are ever used up.
-/
theorem absorb_terminates (limits : Limits) {dst src : Schema} (hd : dst.Ordered) (hs : src.Ordered) :
    (∀ depth, nestedBound dst src ≤ depth → absorbNested limits depth dst src = absorb limits dst src) ∧
    (∀ depth, depthBound dst src ≤ depth → absorbWithin limits depth dst src = absorb limits dst src) ∧
    ((∃ r, absorb limits dst src = .ok r) ∨
      ∃ f kind context, absorb limits dst src = .error f ∧ f.root = .invalidVariant kind context) := by
  have hd := Schema.throughout_iff_everywhere.1 hd
  have hs := Schema.throughout_iff_everywhere.1 hs
  refine ⟨fun depth h => absorbNested_eq_of_bound hd hs h,
    fun depth h => absorbWithin_eq_absorb hd hs (Nat.lt_of_lt_of_le (rank_lt_depthBound dst src) h), ?_⟩
  cases h : absorb limits dst src with
  | ok r => exact .inl ⟨r, rfl⟩
  | error f =>
    obtain ⟨d, s, -, hrefused⟩ := refused_of_absorb hd hs h
    obtain ⟨kind, context, hroot⟩ := hrefused.isInvalidVariant
    exact .inr ⟨f, kind, context, rfl, hroot⟩

/-- An integer below two optional layers refuses an optional text within the nested calls that are enough. -/
theorem absorb_terminates_layers :
    absorbNested {} (nestedBound (Schema.ofOptional (Schema.ofOptional (Schema.ofType .int64)))
        (Schema.ofOptional (Schema.ofType .string)))
      (Schema.ofOptional (Schema.ofOptional (Schema.ofType .int64))) (Schema.ofOptional (Schema.ofType .string)) =
        .error (.invalidVariant "optional" "optional") := by
  have hwrap : ∀ s : Schema, s.Ordered → (Schema.ofOptional s).Ordered := fun s hs =>
    .intro trivial (List.forall_mem_singleton.2 hs)
  have htype : ∀ t, (Schema.ofType t).Ordered := fun t => .of_primitive rfl trivial
  have hrefused : absorb {} (Schema.ofOptional (Schema.ofOptional (Schema.ofType .int64)))
      (Schema.ofOptional (Schema.ofType .string)) = .error (.invalidVariant "optional" "optional") := rfl
  obtain ⟨hnested, -, -⟩ := absorb_terminates {} (hwrap _ (hwrap _ (htype .int64))) (hwrap _ (htype .string))
  exact (hnested _ (Nat.le_refl _)).trans hrefused

end ApiShape
