/-
Trees as single observations give them: no alternatives, no maps, nothing that was only absent, and at
most one element for each list. Their fields are counted to stay below the thresholds of maps.
-/
import ApiShape.Proofs.Absorb.Step

namespace ApiShape

/-! ## Elementary trees -/

/-- A shape as one observation has it. -/
def Form.Elementary : Form → Prop
  | .primitive p => p.typeHint = ""
  | .record _ mapping => mapping = none
  | .list elems => elems.length ≤ 1
  | .optional inner => inner.isOptional = false
  | .absent | .oneOf _ _ => False

/-- Elementary at every depth, and without metadata. -/
def Schema.Elementary (s : Schema) : Prop := s.Throughout (fun t => t.form.Elementary ∧ t.metadata = none)

/-- An elementary tree is plain, below one optional layer at most. -/
theorem Schema.Elementary.cases {s : Schema} (h : s.Elementary) :
    s.isPlain = true ∨ ∃ inner, s.form = .optional inner ∧ inner.isPlain = true := by
  have hroot := h.root.1
  obtain ⟨form, nullable, metadata, examples⟩ := s
  cases form with
  | primitive | record | list => exact .inl rfl
  | absent | oneOf => exact hroot.elim
  | optional inner =>
    refine .inr ⟨inner, rfl, ?_⟩
    have hopt : inner.isOptional = false := hroot
    have hinner := (h.child inner (List.mem_singleton.2 rfl)).root.1
    obtain ⟨form', nullable', metadata', examples'⟩ := inner
    cases form' with
    | primitive | record | list => rfl
    | absent | oneOf => exact hinner.elim
    | optional => cases hopt

/-! ## Counting fields -/

mutual

/-- The fields of all records in a tree. -/
def Schema.fieldCount : Schema → Nat
  | ⟨form, _, _, _⟩ => form.fieldCount

/-- The fields of a record count, and so do those of the records below. -/
def Form.fieldCount : Form → Nat
  | .primitive _ => 0
  | .record fields mapping => fields.length + rowsFieldCount fields + mappingFieldCount mapping
  | .list elems => elemsFieldCount elems
  | .absent => 0
  | .optional inner => inner.fieldCount
  | .oneOf options _ => rowsFieldCount options

/-- The fields in the nodes of a table. -/
def rowsFieldCount : List (String × Schema) → Nat
  | [] => 0
  | (_, s) :: rest => s.fieldCount + rowsFieldCount rest

/-- The fields in the elements of a list. -/
def elemsFieldCount : List Schema → Nat
  | [] => 0
  | s :: rest => s.fieldCount + elemsFieldCount rest

/-- The fields in a mapping. -/
def mappingFieldCount : Option Mapping → Nat
  | none => 0
  | some ⟨key, value⟩ => slotFieldCount key + slotFieldCount value

/-- The fields in a key or value. -/
def slotFieldCount : Option Schema → Nat
  | none => 0
  | some s => s.fieldCount

end

section

variable {s t : Schema}

theorem fieldCount_eq (s : Schema) : s.fieldCount = s.form.fieldCount := by
  cases s
  rfl

theorem fieldCount_le_rowsFieldCount {rows : Table Schema} (h : t ∈ Table.values rows) :
    t.fieldCount ≤ rowsFieldCount rows := by
  induction rows with
  | nil => cases h
  | cons row rest ih =>
    obtain ⟨name, s⟩ := row
    unfold rowsFieldCount
    rcases List.mem_cons.1 h with rfl | h
    · exact Nat.le_add_right _ _
    · exact Nat.le_add_left_of_le (ih h)

theorem fieldCount_le_elemsFieldCount {elems : List Schema} (h : t ∈ elems) : t.fieldCount ≤ elemsFieldCount elems := by
  induction elems with
  | nil => cases h
  | cons s rest ih =>
    unfold elemsFieldCount
    rcases List.mem_cons.1 h with rfl | h
    · exact Nat.le_add_right _ _
    · exact Nat.le_add_left_of_le (ih h)

/-- The fields of an elementary tree include those of the nodes below. -/
theorem Schema.Elementary.fieldCount_le (h : s.Elementary) (ht : t ∈ s.children) : t.fieldCount ≤ s.fieldCount := by
  have helementary := h.root.1
  rw [fieldCount_eq s]
  unfold Schema.children at ht
  cases hform : s.form with
  | primitive p => rw [hform] at ht; cases ht
  | record fields mapping =>
    rw [hform] at helementary ht
    obtain rfl : mapping = none := helementary
    have := fieldCount_le_rowsFieldCount (List.mem_append.1 ht |>.resolve_right nofun)
    unfold Form.fieldCount
    omega
  | list elems =>
    rw [hform] at ht
    exact fieldCount_le_elemsFieldCount ht
  | optional inner =>
    rw [hform] at ht
    obtain rfl : t = inner := List.mem_singleton.1 ht
    exact Nat.le_refl _
  | absent => rw [hform] at ht; cases ht
  | oneOf options conflict => rw [hform] at helementary; exact helementary.elim

theorem length_le_fieldCount {fields : Table Schema} {mapping : Option Mapping} (h : s.form = .record fields mapping) :
    fields.length ≤ s.fieldCount := by
  rw [fieldCount_eq, h]
  unfold Form.fieldCount
  omega

end

end ApiShape
