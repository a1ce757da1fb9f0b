/-
Trees that describe one structure: equal at every depth but for the examples, the sign of a zero, the
pattern of a NaN, and the keys and the repetition of options.
-/
import ApiShape.Proofs.Numeric.Exact
import ApiShape.Proofs.Schema.Nodes

namespace ApiShape

/-! ## Values -/

/-- One observation of one type. -/
def Scalar.Alike : Scalar → Scalar → Prop
  | .float x, .float y => x.Alike y
  | .double x, .double y => x.Alike y
  | a, b => a = b

/-- One observation, with one description. -/
structure Primitive.Alike (p q : Primitive) : Prop where
  value : p.value.Alike q.value
  formatKind : p.formatKind = q.formatKind
  formats : p.formats = q.formats
  typeHint : p.typeHint = q.typeHint

/-! ## Trees -/

mutual

/-- One structure at every depth, whatever the examples. -/
def Schema.Alike : Schema → Schema → Prop
  | ⟨form, nullable, metadata, _⟩, t => form.Alike t.form ∧ nullable = t.nullable ∧ metadata = t.metadata

/-- Options are compared as a set, all other members in order. -/
def Form.Alike : Form → Form → Prop
  | .primitive p, .primitive q => p.Alike q
  | .record fields mapping, .record fields' mapping' => fieldsAlike fields fields' ∧ mappingAlike mapping mapping'
  | .list elems, .list elems' => elemsAlike elems elems'
  | .absent, .absent => True
  | .optional inner, .optional inner' => inner.Alike inner'
  | .oneOf options conflict, .oneOf options' conflict' =>
    optionsWithin options options' ∧ (∀ t ∈ Table.values options', someAlike options t) ∧ conflict = conflict'
  | _, _ => False

/-- The same names in the same order, over trees that are alike. -/
def fieldsAlike : List (String × Schema) → List (String × Schema) → Prop
  | [], [] => True
  | (name, s) :: rest, (name', t) :: rest' => name = name' ∧ s.Alike t ∧ fieldsAlike rest rest'
  | _, _ => False

/-- Elements that are alike place by place. -/
def elemsAlike : List Schema → List Schema → Prop
  | [], [] => True
  | s :: rest, t :: rest' => s.Alike t ∧ elemsAlike rest rest'
  | _, _ => False

/-- Every option is like one of the others. -/
def optionsWithin : List (String × Schema) → List (String × Schema) → Prop
  | [], _ => True
  | (_, s) :: rest, options' => (∃ t ∈ Table.values options', s.Alike t) ∧ optionsWithin rest options'

/-- Some option is like the node. -/
def someAlike : List (String × Schema) → Schema → Prop
  | [], _ => False
  | (_, s) :: rest, t => s.Alike t ∨ someAlike rest t

/-- Mappings with the same slots, over trees that are alike. -/
def mappingAlike : Option Mapping → Option Mapping → Prop
  | none, none => True
  | some ⟨key, value⟩, some m => slotAlike key m.key ∧ slotAlike value m.value
  | _, _ => False

/-- A key or value on both sides or on none. -/
def slotAlike : Option Schema → Option Schema → Prop
  | none, none => True
  | some s, some t => s.Alike t
  | _, _ => False

end

/-- The formats of a primitive are in increasing order. -/
def Form.Labelled : Form → Prop
  | .primitive p => p.formats.Pairwise (· < ·)
  | _ => True

/-- The formats of all primitives in a tree are in increasing order. -/
def Schema.Labelled (s : Schema) : Prop := s.Throughout (fun t => t.form.Labelled)

section

variable {s t : Schema}

theorem Schema.alike_iff : s.Alike t ↔ s.form.Alike t.form ∧ s.nullable = t.nullable ∧ s.metadata = t.metadata := by
  cases s
  rw [Schema.Alike]

theorem fieldsAlike_iff {fields fields' : Table Schema} :
    fieldsAlike fields fields' ↔ List.Forall₂ (fun r r' => r.1 = r'.1 ∧ r.2.Alike r'.2) fields fields' := by
  induction fields generalizing fields' with
  | nil => cases fields' <;> simp [fieldsAlike]
  | cons row rest ih =>
    obtain ⟨name, s⟩ := row
    cases fields' with
    | nil => simp [fieldsAlike]
    | cons row' rest' =>
      obtain ⟨name', t⟩ := row'
      simp [fieldsAlike, ih, and_assoc]

theorem elemsAlike_iff {elems elems' : List Schema} : elemsAlike elems elems' ↔ List.Forall₂ Schema.Alike elems elems' := by
  induction elems generalizing elems' with
  | nil => cases elems' <;> simp [elemsAlike]
  | cons s rest ih =>
    cases elems' with
    | nil => simp [elemsAlike]
    | cons t rest' => simp [elemsAlike, ih]

theorem optionsWithin_iff {options options' : Table Schema} :
    optionsWithin options options' ↔ ∀ s ∈ Table.values options, ∃ t ∈ Table.values options', s.Alike t := by
  induction options with
  | nil => simp [optionsWithin, Table.values]
  | cons row rest ih =>
    obtain ⟨key, s⟩ := row
    unfold optionsWithin
    rw [ih]
    simp [Table.values]

theorem someAlike_iff {options : Table Schema} : someAlike options t ↔ ∃ s ∈ Table.values options, s.Alike t := by
  induction options with
  | nil => simp [someAlike, Table.values]
  | cons row rest ih =>
    obtain ⟨key, s⟩ := row
    unfold someAlike
    rw [ih]
    simp [Table.values]

theorem slotAlike_iff {slot slot' : Option Schema} :
    slotAlike slot slot' ↔ Option.Rel Schema.Alike slot slot' := by
  cases slot <;> cases slot' <;> simp [slotAlike]

theorem mappingAlike_iff {mapping mapping' : Option Mapping} : mappingAlike mapping mapping' ↔
    Option.Rel (fun m m' => Option.Rel Schema.Alike m.key m'.key ∧ Option.Rel Schema.Alike m.value m'.value)
      mapping mapping' := by
  rcases mapping with _ | ⟨key, value⟩ <;> rcases mapping' with _ | m' <;> simp [mappingAlike, slotAlike_iff]

namespace Form

variable {f : Form}

theorem alike_primitive {p : Primitive} : (Form.primitive p).Alike f ↔ ∃ q, f = .primitive q ∧ p.Alike q := by
  cases f <;> simp [Form.Alike]

theorem alike_record {fields : Table Schema} {mapping : Option Mapping} :
    (Form.record fields mapping).Alike f ↔ ∃ fields' mapping', f = .record fields' mapping' ∧
      List.Forall₂ (fun r r' => r.1 = r'.1 ∧ r.2.Alike r'.2) fields fields' ∧
        Option.Rel (fun m m' => Option.Rel Schema.Alike m.key m'.key ∧ Option.Rel Schema.Alike m.value m'.value)
          mapping mapping' := by
  cases f <;> simp [Form.Alike, fieldsAlike_iff, mappingAlike_iff]

theorem alike_list {elems : List Schema} :
    (Form.list elems).Alike f ↔ ∃ elems', f = .list elems' ∧ List.Forall₂ Schema.Alike elems elems' := by
  cases f <;> simp [Form.Alike, elemsAlike_iff]

theorem alike_absent : Form.absent.Alike f ↔ f = .absent := by
  cases f <;> simp [Form.Alike]

theorem alike_optional {inner : Schema} :
    (Form.optional inner).Alike f ↔ ∃ inner', f = .optional inner' ∧ inner.Alike inner' := by
  cases f <;> simp [Form.Alike]

theorem alike_oneOf {options : Table Schema} {conflict : Bool} :
    (Form.oneOf options conflict).Alike f ↔ ∃ options', f = .oneOf options' conflict ∧
      (∀ s ∈ Table.values options, ∃ t ∈ Table.values options', s.Alike t) ∧
        ∀ t ∈ Table.values options', ∃ s ∈ Table.values options, s.Alike t := by
  cases f with
  | oneOf options' conflict' =>
    simp only [Form.Alike, optionsWithin_iff, someAlike_iff, Form.oneOf.injEq]
    constructor
    · rintro ⟨hsub, hsup, rfl⟩
      exact ⟨options', ⟨rfl, rfl⟩, hsub, hsup⟩
    · rintro ⟨_, ⟨rfl, rfl⟩, hsub, hsup⟩
      exact ⟨hsub, hsup, rfl⟩
  | primitive | record | list | absent | optional => simp [Form.Alike]

end Form

end

end ApiShape
