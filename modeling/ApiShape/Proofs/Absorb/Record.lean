/-
The fields of an absorbed record by name: those of the destination, and after them the fields that
only the source has, made optional. A record stays one as long as it has too few fields for a map.
-/
import ApiShape.Proofs.Absorb.Step

namespace ApiShape

section

variable {A : Schema → Schema → Schema → Prop} {src dst shared : Table Schema} {name : String}

theorem find?_addMissing (h : Table.Sorted src) (dst : Table Schema) (name : String) :
    Table.find? (addMissing dst src) name =
      (Table.find? dst name).or ((Table.find? src name).map Schema.makeOptional) := by
  unfold addMissing
  rw [Table.Sorted.find?_foldl_insert (h.filter _),
    Table.find?_filter (fun name => !Table.contains dst name)]
  unfold Table.contains
  cases Table.find? dst name with
  | some d => rfl
  | none => simp

theorem Fields.find?_eq_some (h : Fields A src dst shared) {d : Schema} (hd : Table.find? dst name = some d) :
    ∃ r, Table.find? shared name = some r ∧ Field A src name d r := by
  induction h with
  | nil => cases hd
  | cons hfield _ ih =>
    unfold Table.find? at hd ⊢
    split at hd
    · rename_i heq
      cases hd
      subst heq
      exact ⟨_, if_pos rfl, hfield⟩
    · rename_i hne
      rw [if_neg hne]
      exact ih hd

theorem Fields.find?_eq_none (h : Fields A src dst shared) (hd : Table.find? dst name = none) :
    Table.find? shared name = none := by
  induction h with
  | nil => rfl
  | cons _ _ ih =>
    unfold Table.find? at hd ⊢
    split at hd
    · cases hd
    · rename_i hne
      rw [if_neg hne]
      exact ih hd

theorem Fields.of_mem (h : Fields A src dst shared) {r : Schema} (hr : (name, r) ∈ shared) :
    ∃ d, (name, d) ∈ dst ∧ Field A src name d r := by
  induction h with
  | nil => cases hr
  | cons hfield _ ih =>
    rcases List.mem_cons.1 hr with hr | hr
    · cases hr
      exact ⟨_, List.mem_cons_self, hfield⟩
    · obtain ⟨d, hd, hfield⟩ := ih hr
      exact ⟨d, List.mem_cons_of_mem _ hd, hfield⟩

end

/-! ## Thresholds -/

/-- A record with `n` fields of any kind is not taken for a map. -/
structure MapThresholds.Allow (t : MapThresholds) (n : Nat) : Prop where
  fields : n ≤ t.maxFields
  optional : n ≤ t.maxOptionalFields
  digit : n ≤ t.maxDigitFields

theorem MapThresholds.Allow.mono {t : MapThresholds} {m n : Nat} (h : t.Allow n) (hle : m ≤ n) : t.Allow m where
  fields := Nat.le_trans hle h.fields
  optional := Nat.le_trans hle h.optional
  digit := Nat.le_trans hle h.digit

theorem MapThresholds.Allow.exceeded {t : MapThresholds} {fields : Table Schema} (h : t.Allow fields.length)
    (mapping : Option Mapping) : t.exceeded fields mapping = false := by
  have hoptional := fields.countP_le_length (p := fun row => row.2.isOptional)
  have hdigit := fields.countP_le_length (p := fun row => startsWithDigit row.1)
  have hnot : ∀ {a b : Nat}, a ≤ b → decide (b < a) = false := fun h => decide_eq_false (Nat.not_lt.2 h)
  unfold MapThresholds.exceeded
  rw [hnot h.fields, hnot (Nat.le_trans hoptional h.optional), hnot (Nat.le_trans hdigit h.digit)]
  simp

end ApiShape
