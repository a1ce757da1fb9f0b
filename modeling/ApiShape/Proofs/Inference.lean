/-
Converting records to maps, with or without success: what absorbing keeps of the shapes in a tree, a conversion
keeps, since the values of the map are fields that were absorbed into one another.
-/
import ApiShape.Inference
import ApiShape.Proofs.Absorb.Stable

namespace ApiShape

section

variable {limits : Limits} {Q : Form → Prop}

/-- The map of a record has what absorbing keeps when the fields have it, whatever the record was itself. -/
theorem Closed.everywhere_mappingOf (hQ : Closed limits Q)
    (hkeeps : ∀ depth d s r, absorbWithin limits depth d s = .ok r → Keeps Q d s r) {fields : Table Schema} {m : Mapping}
    (hm : mappingOf (absorb limits) fields = .ok m) (hfields : ∀ t ∈ Table.values fields, t.form.Everywhere Q) :
    (Form.record [] (some m)).Everywhere Q := by
  obtain ⟨value, hvalue, rfl⟩ := mappingOf_eq_ok hm
  have hvalue : MapValue (Keeps Q) fields value := mapValue_of_ok hvalue fun d s r _ hr => hkeeps _ d s r hr
  refine Form.everywhere_record.2 ⟨hQ.emptyMap _, fun _ ht => absurd ht List.not_mem_nil, ?_⟩
  rintro m ⟨⟩
  exact hQ.stringMap (hvalue.everywhere hfields)

/-- A conversion that fails leaves the record without its fields. -/
theorem Closed.convertToMap {σ : Type} (hQ : Closed limits Q) (hempty : ∀ mapping, Q (.record [] mapping))
    (hkeeps : ∀ depth d s r, absorbWithin limits depth d s = .ok r → Keeps Q d s r) {s : Schema}
    (h : s.form.Everywhere Q) (st : σ) : (s.convertToMap limits st).value.form.Everywhere Q := by
  unfold Schema.convertToMap
  split
  · rename_i fields mapping hform
    rw [hform] at h
    obtain ⟨-, hfields, hmapping⟩ := Form.everywhere_record.1 h
    split
    · rename_i m hm
      exact hQ.everywhere_mappingOf hkeeps hm hfields
    · exact Form.everywhere_record.2 ⟨hempty _, fun _ ht => absurd ht List.not_mem_nil, hmapping⟩
  · exact h

end

/-- Searching for maps leaves a node as it is, or converts it. -/
theorem inferMap_value (limits : Limits) (count : Nat) (s : Schema) :
    (inferMap limits count s).value = s ∨ (inferMap limits count s).value = (s.convertToMap limits count).value := by
  unfold inferMap
  split
  · right
    dsimp only
    split <;> rfl
  · exact .inl rfl

end ApiShape
