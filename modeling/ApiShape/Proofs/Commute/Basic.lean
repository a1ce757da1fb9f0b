/-
What is needed to absorb two observations in either order: the join of two primitives does not depend on
the order but for the sign of a zero, and neither does the record of a conflict but for its examples.
-/
import ApiShape.Proofs.Primitive.Absorption
import ApiShape.Proofs.Schema.Identity

namespace ApiShape

/-! ## Values -/

namespace Scalar

variable {a b : Scalar}

theorem Alike.refl (s : Scalar) : s.Alike s := by
  cases s with
  | float x =>
    cases h : x.isNaN
    · exact .inl (Binary.same_self h)
    · exact .inr ⟨h, h⟩
  | double x =>
    cases h : x.isNaN
    · exact .inl (Binary.same_self h)
    · exact .inr ⟨h, h⟩
  | bool | bytes | string | int32 | int64 | uint32 | uint64 => rfl

theorem alike_of_same (h : a.same b = true) : a.Alike b := by
  unfold same at h
  split at h
  · exact .inl h
  · exact .inl h
  · rw [eq_of_beq h]
    exact .refl b

end Scalar

/-! ## Primitives -/

namespace Primitive

variable {p q j : Primitive}

/-- With one hint, the order does not matter but for the sign of a zero. -/
theorem join_comm_alike (hp : p.formats.Pairwise (· < ·)) (hq : q.formats.Pairwise (· < ·))
    (hhint : p.typeHint = q.typeHint) (h : p.join q = some j) : ∃ j', q.join p = some j' ∧ j.Alike j' := by
  obtain ⟨hvalue, hjhint⟩ := join_eq h
  refine ⟨_, join_swap hp hq h, ?_, rfl, rfl, ?_⟩
  · rw [hvalue]
    exact Scalar.alike_of_same (Scalar.same_join_comm p.value q.value _)
  · rw [hjhint, hhint]

end Primitive

/-! ## Nodes -/

/-- Nodes that are hashed in one way. -/
structure Schema.SameDigest (s t : Schema) : Prop where
  form : s.form.SameDigest t.form
  nullable : s.nullable = t.nullable
  metadata : s.metadata = t.metadata

namespace Schema.SameDigest

variable {s t : Schema}

theorem digest (h : s.SameDigest t) : s.canon.digest = t.canon.digest :=
  Schema.digest_congr h.form h.nullable h.metadata

theorem symm (h : s.SameDigest t) : t.SameDigest s :=
  ⟨⟨h.form.number.symm, h.form.digest.symm⟩, h.nullable.symm, h.metadata.symm⟩

theorem trans {u : Schema} (hst : s.SameDigest t) (htu : t.SameDigest u) : s.SameDigest u :=
  ⟨⟨hst.form.number.trans htu.form.number, hst.form.digest.trans htu.form.digest⟩, hst.nullable.trans htu.nullable,
    hst.metadata.trans htu.metadata⟩

theorem mergeExamples (s : Schema) (e : Examples) : s.SameDigest (s.mergeExamples e) := ⟨.refl _, rfl, rfl⟩

theorem orNullable (h : s.SameDigest t) (b : Bool) : (s.orNullable b).SameDigest (t.orNullable b) where
  form := h.form
  nullable := congrArg (· || b) h.nullable
  metadata := h.metadata

theorem bare (h : s.SameDigest t) : s.bare.SameDigest t.bare := ⟨h.form, rfl, rfl⟩

/-- An optional layer around nodes that have none. -/
theorem makeOptional (h : s.SameDigest t) (hs : s.isOptional = false) (ht : t.isOptional = false) :
    s.makeOptional.SameDigest t.makeOptional := by
  unfold Schema.makeOptional
  rw [hs, ht]
  exact ⟨.optional h.bare.digest, h.nullable, h.metadata⟩

end Schema.SameDigest

/-! ## Conflicts -/

namespace Catalogue

variable {c : Catalogue} {s : Schema}

theorem digest_of_address_eq {s t : Schema} (h : s.address = t.address) : s.canon.digest = t.canon.digest := by
  unfold Schema.address at h
  exact Digest.hex_inj h

/-- After an insertion, the digests of the nodes are those from before and the one of the new node. -/
theorem digest_values_insert (hc : c.Fresh) (s : Schema) (d : Digest) :
    (∃ t ∈ Table.values (insert c s), t.canon.digest = d) ↔
      s.canon.digest = d ∨ ∃ t ∈ Table.values c, t.canon.digest = d := by
  constructor
  · rintro ⟨t, ht, rfl⟩
    rcases of_mem_values_insert ht with ht | rfl | ⟨stored, hstored, rfl⟩
    · exact .inr ⟨t, ht, rfl⟩
    · exact .inl rfl
    · exact .inr ⟨stored, hstored, by rw [Schema.canon_mergeExamples]⟩
  · rintro (rfl | ⟨t, ht, rfl⟩)
    · rcases mem_values_insert_self (c := c) (s := s) with h | ⟨stored, hfind, h⟩
      · exact ⟨s, h, rfl⟩
      · refine ⟨_, h, ?_⟩
        have haddress : s.address = stored.address := hc.2 _ (Table.mem_of_find? hfind)
        rw [Schema.canon_mergeExamples, digest_of_address_eq haddress]
    · rcases mem_values_insert_of_mem (s := s) ht with h | h
      · exact ⟨t, h, rfl⟩
      · exact ⟨_, h, by rw [Schema.canon_mergeExamples]⟩

end Catalogue

/-- A conflict is hashed as the set of both nodes, in either order. -/
theorem Schema.conflict_sameDigest {d s : Schema} (hmetadata : d.metadata = s.metadata) :
    (d.conflict s).SameDigest (s.conflict d) := by
  have hfresh : ∀ s t : Schema, Catalogue.Fresh (Catalogue.insert (Catalogue.insert [] s) t) := fun s t =>
    (Catalogue.Fresh.nil.insert s).insert t
  have hsub : ∀ d s : Schema, ∀ t ∈ Table.values (Catalogue.insert (Catalogue.insert [] d.bare) s.bare),
      ∃ t' ∈ Table.values (Catalogue.insert (Catalogue.insert [] s.bare) d.bare), t'.canon.digest = t.canon.digest := by
    intro d s t ht
    have h := (Catalogue.digest_values_insert (Catalogue.Fresh.nil.insert d.bare) s.bare t.canon.digest).1 ⟨t, ht, rfl⟩
    rw [Catalogue.digest_values_insert .nil] at h
    rw [Catalogue.digest_values_insert (Catalogue.Fresh.nil.insert s.bare), Catalogue.digest_values_insert .nil]
    exact or_left_comm.1 h
  refine ⟨?_, Bool.or_comm _ _, hmetadata⟩
  rw [Schema.form_conflict, Schema.form_conflict]
  exact .oneOf true (hfresh _ _) (hfresh _ _) (fun t ht => (hsub d s t ht).imp fun _ h => ⟨h.1, h.2.symm⟩) (hsub s d)

end ApiShape
