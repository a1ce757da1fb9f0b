/-
The weight of a tree: its nodes without the wrappers, a record counted twice because it may turn into
a map with a node for its keys. Absorbing never makes a tree heavier than both together, while it can
add wrappers, so the weight and not the size is what the recursion is measured by.
-/
import ApiShape.Proofs.Catalogue
import ApiShape.Proofs.Schema.Nodes

namespace ApiShape

mutual

/-- The weight of a tree is that of its shape. -/
def Schema.weight : Schema → Nat
  | ⟨form, _, _, _⟩ => form.weight

/-- The nodes that absorbing opens. Optional layers and alternatives weigh nothing of their own. -/
def Form.weight : Form → Nat
  | .primitive _ => 1
  | .record fields mapping => rowsWeight fields + mappingWeight mapping + 1
  | .list elems => elemsWeight elems + 1
  | .absent => 1
  | .optional inner => inner.weight
  | .oneOf options _ => rowsWeight options

/-- The weight of fields or options. -/
def rowsWeight : List (String × Schema) → Nat
  | [] => 0
  | (_, s) :: rest => s.weight + rowsWeight rest

/-- The weight of the elements of a list. -/
def elemsWeight : List Schema → Nat
  | [] => 0
  | s :: rest => s.weight + elemsWeight rest

/-- A missing mapping weighs as much as the key of the one a conversion makes. -/
def mappingWeight : Option Mapping → Nat
  | none => 1
  | some ⟨key, value⟩ => slotWeight key + slotWeight value

/-- The weight of a key or value. -/
def slotWeight : Option Schema → Nat
  | none => 0
  | some s => s.weight

end

theorem weight_eq (s : Schema) : s.weight = s.form.weight := by
  cases s
  rfl

/-! ## Weight and size -/

mutual

theorem Schema.weight_le_size : ∀ s : Schema, s.weight ≤ 2 * s.size
  | ⟨form, _, _, _⟩ => by
    have := form.weight_le_size
    simp only [Schema.weight, Schema.size]
    omega

/-- A node weighs at most two, one for itself and one for a missing mapping. -/
theorem Form.weight_le_size : ∀ f : Form, f.weight ≤ 2 * f.size + 2
  | .primitive _ => by simp [Form.weight]
  | .record fields mapping => by
    have := rowsWeight_le_size fields
    have := mappingWeight_le_size mapping
    simp only [Form.weight, Form.size]
    omega
  | .list elems => by
    have := elemsWeight_le_size elems
    simp only [Form.weight, Form.size]
    omega
  | .absent => by simp [Form.weight]
  | .optional inner => by
    have := inner.weight_le_size
    simp only [Form.weight, Form.size]
    omega
  | .oneOf options _ => by
    have := rowsWeight_le_size options
    simp only [Form.weight, Form.size]
    omega

theorem rowsWeight_le_size : ∀ rows : List (String × Schema), rowsWeight rows ≤ 2 * rowsSize rows
  | [] => Nat.le_refl _
  | (_, s) :: rest => by
    have := s.weight_le_size
    have := rowsWeight_le_size rest
    simp only [rowsWeight, rowsSize]
    omega

theorem elemsWeight_le_size : ∀ elems : List Schema, elemsWeight elems ≤ 2 * elemsSize elems
  | [] => Nat.le_refl _
  | s :: rest => by
    have := s.weight_le_size
    have := elemsWeight_le_size rest
    simp only [elemsWeight, elemsSize]
    omega

theorem mappingWeight_le_size : ∀ mapping : Option Mapping, mappingWeight mapping ≤ 2 * mappingSize mapping + 1
  | none => Nat.le_refl _
  | some ⟨key, value⟩ => by
    have := slotWeight_le_size key
    have := slotWeight_le_size value
    simp only [mappingWeight, mappingSize]
    omega

theorem slotWeight_le_size : ∀ slot : Option Schema, slotWeight slot ≤ 2 * slotSize slot
  | none => Nat.le_refl _
  | some s => s.weight_le_size

end

/-! ## Lists of trees -/

/-- The weight of several trees together. -/
def totalWeight : List Schema → Nat
  | [] => 0
  | s :: rest => s.weight + totalWeight rest

@[simp] theorem totalWeight_nil : totalWeight [] = 0 := rfl

@[simp] theorem totalWeight_cons (s : Schema) (l : List Schema) : totalWeight (s :: l) = s.weight + totalWeight l := rfl

@[simp] theorem totalWeight_append (l l' : List Schema) : totalWeight (l ++ l') = totalWeight l + totalWeight l' := by
  induction l with
  | nil => exact (Nat.zero_add _).symm
  | cons s rest ih =>
    show s.weight + totalWeight (rest ++ l') = _
    rw [ih, totalWeight_cons, Nat.add_assoc]

theorem rowsWeight_eq (rows : List (String × Schema)) : rowsWeight rows = totalWeight (Table.values rows) := by
  induction rows with
  | nil => rfl
  | cons row rest ih => exact congrArg (row.2.weight + ·) ih

theorem elemsWeight_eq (elems : List Schema) : elemsWeight elems = totalWeight elems := by
  induction elems with
  | nil => rfl
  | cons s rest ih => exact congrArg (s.weight + ·) ih

@[simp] theorem weight_record (fields : Table Schema) :
    (Form.record fields none).weight = totalWeight (Table.values fields) + 2 := by
  simp only [Form.weight, mappingWeight, rowsWeight_eq]

@[simp] theorem weight_map (fields : Table Schema) (m : Mapping) :
    (Form.record fields (some m)).weight =
      totalWeight (Table.values fields) + (slotWeight m.key + slotWeight m.value) + 1 := by
  obtain ⟨key, value⟩ := m
  simp only [Form.weight, mappingWeight, rowsWeight_eq]

@[simp] theorem weight_list (elems : List Schema) : (Form.list elems).weight = totalWeight elems + 1 := by
  simp only [Form.weight, elemsWeight_eq]

@[simp] theorem weight_oneOf (options : Catalogue) (conflict : Bool) :
    (Form.oneOf options conflict).weight = totalWeight (Table.values options) := by
  simp only [Form.weight, rowsWeight_eq]

theorem weight_le_totalWeight {s : Schema} {l : List Schema} (h : s ∈ l) : s.weight ≤ totalWeight l := by
  induction l with
  | nil => cases h
  | cons t rest ih =>
    rcases List.mem_cons.1 h with rfl | h
    · exact Nat.le_add_right _ _
    · exact Nat.le_add_left_of_le (ih h)

/-! ## Changed nodes -/

@[simp] theorem weight_bare (s : Schema) : s.bare.weight = s.weight := by
  rw [weight_eq, weight_eq s, Schema.form_bare]

@[simp] theorem weight_orNullable (s : Schema) (b : Bool) : (s.orNullable b).weight = s.weight := by
  rw [weight_eq, weight_eq s, Schema.form_orNullable]

@[simp] theorem weight_mergeExamples (s : Schema) (e : Examples) : (s.mergeExamples e).weight = s.weight := by
  rw [weight_eq, weight_eq s, Schema.form_mergeExamples]

@[simp] theorem weight_makeOptional (s : Schema) : s.makeOptional.weight = s.weight := by
  unfold Schema.makeOptional
  split
  · rfl
  · rw [weight_eq, ← weight_bare s]
    rfl

/-! ## Tables -/

section

variable {t : Table Schema} {k : String} {a b : Schema}

theorem totalWeight_insert_le : totalWeight (Table.values (Table.insert t k a)) ≤ totalWeight (Table.values t) + a.weight := by
  induction t with
  | nil => simp [Table.insert, Table.values]
  | cons row rest ih =>
    unfold Table.values at ih ⊢
    unfold Table.insert
    split
    · simp only [List.map_cons, totalWeight_cons]
      omega
    · split
      · simp only [List.map_cons, totalWeight_cons]
        omega
      · simp only [List.map_cons, totalWeight_cons]
        omega

/-- Replacing the row of a key. -/
theorem totalWeight_insert_of_find? (h : Table.Sorted t) (hfind : Table.find? t k = some b) :
    totalWeight (Table.values (Table.insert t k a)) + b.weight = totalWeight (Table.values t) + a.weight := by
  induction t with
  | nil => cases hfind
  | cons row rest ih =>
    obtain ⟨j, c⟩ := row
    have hrest := List.Pairwise.of_cons h
    unfold Table.values at ih ⊢
    unfold Table.find? at hfind
    unfold Table.insert
    split at hfind
    · rename_i heq
      cases hfind
      subst heq
      rw [if_neg (String.lt_irrefl j), if_pos rfl]
      simp only [List.map_cons, totalWeight_cons]
      omega
    · rename_i hne
      have hlt : j < k := List.rel_of_pairwise_cons h (Table.mem_of_find? hfind)
      rw [if_neg (String.lt_asymm hlt), if_neg (Ne.symm hne)]
      have := ih hrest hfind
      simp only [List.map_cons, totalWeight_cons]
      omega

theorem totalWeight_foldl_insert_le {f : Schema → Schema} (hf : ∀ s, (f s).weight = s.weight)
    (rows : Table Schema) (t : Table Schema) :
    totalWeight (Table.values (rows.foldl (fun t row => Table.insert t row.1 (f row.2)) t)) ≤
      totalWeight (Table.values t) + totalWeight (Table.values rows) := by
  induction rows generalizing t with
  | nil => exact Nat.le_refl _
  | cons row rest ih =>
    have hinsert : totalWeight (Table.values (Table.insert t row.1 (f row.2))) ≤
        totalWeight (Table.values t) + row.2.weight := hf row.2 ▸ totalWeight_insert_le
    have hrest := ih (Table.insert t row.1 (f row.2))
    simp only [Table.values, List.map_cons, totalWeight_cons, List.foldl_cons] at hinsert hrest ⊢
    omega

theorem totalWeight_filter (p : String × Schema → Bool) (t : Table Schema) :
    totalWeight (Table.values (t.filter p)) + totalWeight (Table.values (t.filter (fun row => !p row))) =
      totalWeight (Table.values t) := by
  induction t with
  | nil => rfl
  | cons row rest ih =>
    unfold Table.values at ih ⊢
    cases hp : p row <;> simp [hp] <;> omega

/-- Taking the row of a key out of a table. -/
theorem totalWeight_erase_of_find? (hfind : Table.find? t k = some a) :
    totalWeight (Table.values (Table.erase t k)) + a.weight ≤ totalWeight (Table.values t) := by
  have hsplit := totalWeight_filter (fun row => row.1 ≠ k) t
  have hmem : a ∈ Table.values (t.filter (fun row => !decide (row.1 ≠ k))) :=
    Table.mem_values_of_mem (List.mem_filter.2 ⟨Table.mem_of_find? hfind, by simp⟩)
  have := weight_le_totalWeight hmem
  unfold Table.erase
  omega

end

/-! ## Catalogues -/

namespace Catalogue

variable {c : Catalogue} {s : Schema}

theorem totalWeight_insert_le (h : Table.Sorted c) :
    totalWeight (Table.values (insert c s)) ≤ totalWeight (Table.values c) + s.weight := by
  cases hfind : Table.find? c s.address with
  | none =>
    rw [insert_of_new hfind]
    exact ApiShape.totalWeight_insert_le
  | some stored =>
    rw [insert_of_stored hfind]
    have := totalWeight_insert_of_find? (a := stored.mergeExamples s.examples) h hfind
    rw [weight_mergeExamples] at this
    omega

theorem totalWeight_take (p : Schema → Bool) (c : Catalogue) :
    totalWeight (take p c).1 + totalWeight (Table.values (take p c).2) = totalWeight (Table.values c) :=
  totalWeight_filter (fun row => p row.2) c

end Catalogue

end ApiShape
