/-
Trees without their examples. Erasing the examples at every depth changes neither the canonical
object of a tree nor its size, and goes through the operations on tables and catalogues.
-/
import ApiShape.Absorb.Alternatives
import ApiShape.Proofs.Catalogue
import ApiShape.Proofs.Schema.Nodes

namespace ApiShape

/-! ## Tables -/

namespace Table

variable {α β : Type} {f : α → β}

/-- A table with every value changed. -/
def mapValues (f : α → β) (t : Table α) : Table β := t.map (fun row => (row.1, f row.2))

@[simp] theorem mapValues_nil (f : α → β) : mapValues f [] = [] := rfl

@[simp] theorem mapValues_cons (f : α → β) (row : String × α) (rest : Table α) :
    mapValues f (row :: rest) = (row.1, f row.2) :: mapValues f rest := rfl

@[simp] theorem length_mapValues (f : α → β) (t : Table α) : (mapValues f t).length = t.length := by
  simp [mapValues]

@[simp] theorem values_mapValues (f : α → β) (t : Table α) : values (mapValues f t) = (values t).map f := by
  simp [mapValues, values, Function.comp_def]

@[simp] theorem keys_mapValues (f : α → β) (t : Table α) : keys (mapValues f t) = keys t := by
  simp [mapValues, keys, Function.comp_def]

theorem find?_mapValues (f : α → β) (t : Table α) (k : String) : find? (mapValues f t) k = (find? t k).map f := by
  induction t with
  | nil => rfl
  | cons row rest ih =>
    obtain ⟨j, a⟩ := row
    rw [mapValues_cons, find?, find?, ih]
    split <;> rfl

theorem contains_mapValues (f : α → β) (t : Table α) (k : String) : contains (mapValues f t) k = contains t k := by
  unfold contains
  rw [find?_mapValues, Option.isSome_map]

theorem insert_mapValues (f : α → β) (t : Table α) (k : String) (a : α) :
    insert (mapValues f t) k (f a) = mapValues f (insert t k a) := by
  induction t with
  | nil => rfl
  | cons row rest ih =>
    obtain ⟨j, b⟩ := row
    rw [mapValues_cons, insert, insert, ih]
    split
    · rfl
    · split <;> rfl

theorem filter_mapValues {p : String × α → Bool} {q : String × β → Bool} (h : ∀ row, q (row.1, f row.2) = p row)
    (t : Table α) : (mapValues f t).filter q = mapValues f (t.filter p) := by
  unfold mapValues
  rw [List.filter_map]
  congr 2
  funext row
  exact h row

end Table

/-! ## Erasing -/

mutual

/-- The tree without examples at any depth. -/
def Schema.erase : Schema → Schema
  | ⟨form, nullable, metadata, _⟩ => ⟨form.erase, nullable, metadata, []⟩

/-- A shape without the examples below it. -/
def Form.erase : Form → Form
  | .primitive p => .primitive p
  | .record fields mapping => .record (eraseRows fields) (eraseMapping mapping)
  | .list elems => .list (eraseElems elems)
  | .absent => .absent
  | .optional inner => .optional inner.erase
  | .oneOf options conflict => .oneOf (eraseRows options) conflict

/-- Fields or options without their examples. -/
def eraseRows : List (String × Schema) → List (String × Schema)
  | [] => []
  | (key, s) :: rest => (key, s.erase) :: eraseRows rest

/-- Elements without their examples. -/
def eraseElems : List Schema → List Schema
  | [] => []
  | s :: rest => s.erase :: eraseElems rest

/-- A mapping without examples. -/
def eraseMapping : Option Mapping → Option Mapping
  | none => none
  | some ⟨key, value⟩ => some ⟨eraseSlot key, eraseSlot value⟩

/-- A key or value without its examples. -/
def eraseSlot : Option Schema → Option Schema
  | none => none
  | some s => some s.erase

end

theorem eraseRows_eq (rows : Table Schema) : eraseRows rows = Table.mapValues Schema.erase rows := by
  induction rows with
  | nil => rfl
  | cons row rest ih =>
    obtain ⟨key, s⟩ := row
    unfold eraseRows
    rw [ih]
    rfl

theorem eraseElems_eq (elems : List Schema) : eraseElems elems = elems.map Schema.erase := by
  induction elems with
  | nil => rfl
  | cons s rest ih =>
    unfold eraseElems
    rw [ih]
    rfl

theorem eraseSlot_eq (slot : Option Schema) : eraseSlot slot = slot.map Schema.erase := by
  cases slot <;> rfl

/-- The erasure of a mapping, slot by slot. -/
def Mapping.erase (m : Mapping) : Mapping := ⟨m.key.map Schema.erase, m.value.map Schema.erase⟩

theorem eraseMapping_eq (mapping : Option Mapping) : eraseMapping mapping = mapping.map Mapping.erase := by
  rcases mapping with _ | ⟨key, value⟩
  · rfl
  · simp [eraseMapping, Mapping.erase, eraseSlot_eq]

namespace Schema

@[simp] theorem form_erase (s : Schema) : s.erase.form = s.form.erase := by cases s; rfl

@[simp] theorem nullable_erase (s : Schema) : s.erase.nullable = s.nullable := by cases s; rfl

@[simp] theorem metadata_erase (s : Schema) : s.erase.metadata = s.metadata := by cases s; rfl

@[simp] theorem examples_erase (s : Schema) : s.erase.examples = [] := by cases s; rfl

theorem ext_fields {s t : Schema} (hform : s.form = t.form) (hnull : s.nullable = t.nullable)
    (hmetadata : s.metadata = t.metadata) (hexamples : s.examples = t.examples) : s = t := by
  obtain ⟨form, nullable, metadata, examples⟩ := s
  obtain ⟨form', nullable', metadata', examples'⟩ := t
  cases hform
  cases hnull
  cases hmetadata
  cases hexamples
  rfl

end Schema

namespace Form

@[simp] theorem erase_primitive (p : Primitive) : (Form.primitive p).erase = .primitive p := rfl

@[simp] theorem erase_record (fields : Table Schema) (mapping : Option Mapping) :
    (Form.record fields mapping).erase = .record (Table.mapValues Schema.erase fields) (mapping.map Mapping.erase) := by
  rw [Form.erase, eraseRows_eq, eraseMapping_eq]

@[simp] theorem erase_list (elems : List Schema) : (Form.list elems).erase = .list (elems.map Schema.erase) := by
  rw [Form.erase, eraseElems_eq]

@[simp] theorem erase_absent : Form.absent.erase = .absent := rfl

@[simp] theorem erase_optional (inner : Schema) : (Form.optional inner).erase = .optional inner.erase := rfl

@[simp] theorem erase_oneOf (options : Table Schema) (conflict : Bool) :
    (Form.oneOf options conflict).erase = .oneOf (Table.mapValues Schema.erase options) conflict := by
  rw [Form.erase, eraseRows_eq]

end Form

/-! ## What does not depend on examples -/

mutual

theorem Schema.canon_erase : ∀ s : Schema, s.erase.canon = s.canon
  | ⟨form, nullable, metadata, _⟩ => by
    change Canon.message (form.erase.canonField :: _) = Canon.message (form.canonField :: _)
    rw [Form.canonField_erase form]

theorem Form.canonField_erase : ∀ f : Form, f.erase.canonField = f.canonField
  | .primitive _ => rfl
  | .record fields mapping => by
    have hempty : (eraseRows fields).isEmpty = fields.isEmpty := by cases fields <;> rfl
    rw [Form.erase, Form.canonField, Form.canonField, canonFields_erase fields, canonMapping_erase mapping, hempty]
  | .list elems => by
    have hempty : (eraseElems elems).isEmpty = elems.isEmpty := by cases elems <;> rfl
    rw [Form.erase, Form.canonField, Form.canonField, canonElems_erase elems, hempty]
  | .absent => rfl
  | .optional inner => by rw [Form.erase, Form.canonField, Form.canonField, Schema.canon_erase inner]
  | .oneOf options conflict => by
    have hempty : (eraseRows options).isEmpty = options.isEmpty := by cases options <;> rfl
    rw [Form.erase, Form.canonField, Form.canonField, canonOptions_erase options, hempty]

theorem canonFields_erase : ∀ rows : List (String × Schema), canonFields (eraseRows rows) = canonFields rows
  | [] => rfl
  | (_, s) :: rest => by rw [eraseRows, canonFields, canonFields, Schema.canon_erase s, canonFields_erase rest]

theorem canonOptions_erase : ∀ rows : List (String × Schema), canonOptions (eraseRows rows) = canonOptions rows
  | [] => rfl
  | (_, s) :: rest => by rw [eraseRows, canonOptions, canonOptions, Schema.canon_erase s, canonOptions_erase rest]

theorem canonElems_erase : ∀ elems : List Schema, canonElems (eraseElems elems) = canonElems elems
  | [] => rfl
  | s :: rest => by rw [eraseElems, canonElems, canonElems, Schema.canon_erase s, canonElems_erase rest]

theorem canonMapping_erase : ∀ mapping : Option Mapping, canonMapping (eraseMapping mapping) = canonMapping mapping
  | none => rfl
  | some ⟨key, value⟩ => by
    rw [eraseMapping, canonMapping, canonMapping, canonSlot_erase 1 key, canonSlot_erase 2 value]

theorem canonSlot_erase (n : Nat) : ∀ slot : Option Schema, canonSlot n (eraseSlot slot) = canonSlot n slot
  | none => rfl
  | some s => by rw [eraseSlot, canonSlot, canonSlot, Schema.canon_erase s]

end

/-- Examples are no part of what the address identifies, at any depth. -/
@[simp] theorem Schema.address_erase (s : Schema) : s.erase.address = s.address := by
  unfold Schema.address
  rw [Schema.canon_erase]

mutual

theorem Schema.size_erase : ∀ s : Schema, s.erase.size = s.size
  | ⟨form, _, _, _⟩ => by rw [Schema.erase, Schema.size, Schema.size, Form.size_erase form]

theorem Form.size_erase : ∀ f : Form, f.erase.size = f.size
  | .primitive _ => rfl
  | .record fields mapping => by
    rw [Form.erase, Form.size, Form.size, rowsSize_erase fields, mappingSize_erase mapping]
  | .list elems => by rw [Form.erase, Form.size, Form.size, elemsSize_erase elems]
  | .absent => rfl
  | .optional inner => by rw [Form.erase, Form.size, Form.size, Schema.size_erase inner]
  | .oneOf options _ => by rw [Form.erase, Form.size, Form.size, rowsSize_erase options]

theorem rowsSize_erase : ∀ rows : List (String × Schema), rowsSize (eraseRows rows) = rowsSize rows
  | [] => rfl
  | (_, s) :: rest => by rw [eraseRows, rowsSize, rowsSize, Schema.size_erase s, rowsSize_erase rest]

theorem elemsSize_erase : ∀ elems : List Schema, elemsSize (eraseElems elems) = elemsSize elems
  | [] => rfl
  | s :: rest => by rw [eraseElems, elemsSize, elemsSize, Schema.size_erase s, elemsSize_erase rest]

theorem mappingSize_erase : ∀ mapping : Option Mapping, mappingSize (eraseMapping mapping) = mappingSize mapping
  | none => rfl
  | some ⟨key, value⟩ => by
    rw [eraseMapping, mappingSize, mappingSize, slotSize_erase key, slotSize_erase value]

theorem slotSize_erase : ∀ slot : Option Schema, slotSize (eraseSlot slot) = slotSize slot
  | none => rfl
  | some s => by rw [eraseSlot, slotSize, slotSize, Schema.size_erase s]

end

/-! ## Nodes -/

namespace Schema

@[simp] theorem erase_bare (s : Schema) : s.bare.erase = s.erase.bare := by cases s; rfl

@[simp] theorem erase_orNullable (s : Schema) (b : Bool) : (s.orNullable b).erase = s.erase.orNullable b := by
  cases s; rfl

@[simp] theorem erase_mergeExamples (s : Schema) (e : Examples) : (s.mergeExamples e).erase = s.erase := by
  cases s; rfl

theorem mergeExamples_nil {s : Schema} (h : s.examples = []) : s.mergeExamples [] = s :=
  ext_fields rfl rfl rfl (by rw [h]; exact congrArg _ h)

@[simp] theorem isOptional_erase (s : Schema) : s.erase.isOptional = s.isOptional := by
  obtain ⟨form, nullable, metadata, examples⟩ := s
  cases form <;> rfl

@[simp] theorem isAbsent_erase (s : Schema) : s.erase.isAbsent = s.isAbsent := by
  obtain ⟨form, nullable, metadata, examples⟩ := s
  cases form <;> rfl

@[simp] theorem isRecord_erase (s : Schema) : s.erase.isRecord = s.isRecord := by
  obtain ⟨form, nullable, metadata, examples⟩ := s
  cases form <;> rfl

@[simp] theorem isList_erase (s : Schema) : s.erase.isList = s.isList := by
  obtain ⟨form, nullable, metadata, examples⟩ := s
  cases form <;> rfl

@[simp] theorem joinable_erase (s t : Schema) : s.erase.joinable t.erase = s.joinable t := by
  obtain ⟨form, nullable, metadata, examples⟩ := s
  obtain ⟨form', nullable', metadata', examples'⟩ := t
  cases form <;> cases form' <;> rfl

@[simp] theorem checkOption_erase (s : Schema) : s.erase.checkOption = s.checkOption := by
  obtain ⟨form, nullable, metadata, examples⟩ := s
  cases form with
  | record fields mapping => cases mapping <;> rfl
  | primitive | list | absent | optional | oneOf => rfl

theorem erase_makeOptional (s : Schema) : s.makeOptional.erase = s.erase.makeOptional := by
  unfold makeOptional
  rw [isOptional_erase]
  split
  · rfl
  · exact ext_fields (by simp) (by simp) (by simp) (by simp)

theorem asMapValue_erase (s : Schema) : s.erase.asMapValue = s.asMapValue.map Schema.erase := by
  obtain ⟨form, nullable, metadata, examples⟩ := s
  cases form with
  | optional inner => exact congrArg some (erase_orNullable inner nullable).symm
  | primitive | record | list | absent | oneOf => rfl

end Schema

/-! ## Catalogues -/

namespace Catalogue

theorem insert_erase (c : Catalogue) (s : Schema) :
    insert (Table.mapValues Schema.erase c) s.erase = Table.mapValues Schema.erase (insert c s) := by
  unfold insert
  rw [Schema.address_erase, Table.find?_mapValues]
  cases Table.find? c s.address with
  | none => exact Table.insert_mapValues Schema.erase c s.address s
  | some stored =>
    have hstored : stored.erase.mergeExamples s.erase.examples = (stored.mergeExamples s.examples).erase := by
      rw [Schema.examples_erase, Schema.mergeExamples_nil (Schema.examples_erase stored), Schema.erase_mergeExamples]
    dsimp only [Option.map_some]
    rw [hstored]
    exact Table.insert_mapValues Schema.erase c s.address _

theorem take_erase {p : Schema → Bool} {q : Schema → Bool} (h : ∀ s, q s.erase = p s) (c : Catalogue) :
    take q (Table.mapValues Schema.erase c) =
      ((take p c).1.map Schema.erase, Table.mapValues Schema.erase (take p c).2) := by
  unfold take
  rw [Table.filter_mapValues (p := fun row => p row.2) (fun row => h row.2),
    Table.filter_mapValues (p := fun row => !p row.2) (fun row => by rw [h row.2]), Table.values_mapValues]

end Catalogue

end ApiShape
