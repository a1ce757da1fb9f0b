/-
What a tree says about values: the instances that a node admits. An instance is a value as far as
shapes can tell values apart; a record of one has names of its own, in any order.
-/
import ApiShape.Proofs.Primitive.Absorption
import ApiShape.Proofs.Schema.Nodes

namespace ApiShape

/-- A value as it may be observed. Of a scalar only the type and the detected formats count. -/
inductive Instance where
  | null
  /-- A value of a base type, with the format kind and the formats detected in it. -/
  | primitive (base : BaseType) (formatKind : String) (formats : List String)
  | record (fields : List (String × Instance))
  | list (elems : List Instance)

/-! ## Admitted instances -/

/-- A primitive stands for the values of narrower types, and, when it has a format kind, only for
values of that kind with some of its formats. -/
def Primitive.Admits (p : Primitive) (base : BaseType) (formatKind : String) (formats : List String) : Prop :=
  base.Below p.baseType ∧
    (p.formatKind ≠ "" → formatKind = p.formatKind ∧ ∀ f ∈ formats, f ∈ p.formats)

mutual

/-- The instances that a tree describes. -/
def Schema.Admits : Schema → Instance → Prop
  | ⟨form, nullable, _, _⟩, i => (nullable = true ∧ i = .null) ∨ form.Admits i

/-- A record has only declared fields and leaves out only optional ones; the values of a map all have
its value type. -/
def Form.Admits : Form → Instance → Prop
  | .primitive p, .primitive base formatKind formats => p.Admits base formatKind formats
  | .record fields none, .record rows =>
    (∀ row ∈ rows, fieldAdmits fields row.1 row.2) ∧
      ∀ field ∈ fields, (∀ row ∈ rows, row.1 ≠ field.1) → field.2.isOptional = true
  | .record _ (some ⟨_, value⟩), .record rows => ∀ row ∈ rows, slotAdmits value row.2
  | .list elems, .list items => ∀ i ∈ items, elemAdmits elems i
  | .optional inner, i => inner.Admits i
  | .oneOf options _, i => optionAdmits options i
  | _, _ => False

/-- The field of this name admits the instance. -/
def fieldAdmits : List (String × Schema) → String → Instance → Prop
  | [], _, _ => False
  | (name', s) :: rest, name, i => if name' = name then s.Admits i else fieldAdmits rest name i

/-- The key or value of a mapping admits the instance; without one nothing is admitted. -/
def slotAdmits : Option Schema → Instance → Prop
  | none, _ => False
  | some s, i => s.Admits i

/-- Some element admits the instance. -/
def elemAdmits : List Schema → Instance → Prop
  | [], _ => False
  | s :: rest, i => s.Admits i ∨ elemAdmits rest i

/-- Some option admits the instance. -/
def optionAdmits : List (String × Schema) → Instance → Prop
  | [], _ => False
  | (_, s) :: rest, i => s.Admits i ∨ optionAdmits rest i

end

section

variable {s t : Schema} {i : Instance}

theorem Schema.admits_iff : s.Admits i ↔ (s.nullable = true ∧ i = .null) ∨ s.form.Admits i := by
  cases s
  rw [Schema.Admits]

theorem fieldAdmits_iff {fields : Table Schema} {name : String} :
    fieldAdmits fields name i ↔ ∃ s, Table.find? fields name = some s ∧ s.Admits i := by
  induction fields with
  | nil => simp [fieldAdmits, Table.find?]
  | cons row rest ih =>
    obtain ⟨name', s⟩ := row
    unfold fieldAdmits Table.find?
    split
    · simp
    · exact ih

theorem slotAdmits_iff {slot : Option Schema} : slotAdmits slot i ↔ ∃ s ∈ slot, s.Admits i := by
  cases slot <;> simp [slotAdmits]

theorem elemAdmits_iff {elems : List Schema} : elemAdmits elems i ↔ ∃ s ∈ elems, s.Admits i := by
  induction elems with
  | nil => simp [elemAdmits]
  | cons s rest ih => simp [elemAdmits, ih]

theorem optionAdmits_iff {options : Table Schema} :
    optionAdmits options i ↔ ∃ s ∈ Table.values options, s.Admits i := by
  induction options with
  | nil => simp [optionAdmits, Table.values]
  | cons row rest ih =>
    obtain ⟨key, s⟩ := row
    unfold optionAdmits
    rw [ih]
    simp [Table.values]

namespace Form

theorem admits_record {fields : Table Schema} :
    (Form.record fields none).Admits i ↔ ∃ rows, i = .record rows ∧
      (∀ row ∈ rows, ∃ s, Table.find? fields row.1 = some s ∧ s.Admits row.2) ∧
        ∀ field ∈ fields, (∀ row ∈ rows, row.1 ≠ field.1) → field.2.isOptional = true := by
  cases i <;> simp [Form.Admits, fieldAdmits_iff]

theorem admits_map {fields : Table Schema} {m : Mapping} :
    (Form.record fields (some m)).Admits i ↔
      ∃ rows, i = .record rows ∧ ∀ row ∈ rows, ∃ s ∈ m.value, s.Admits row.2 := by
  obtain ⟨key, value⟩ := m
  cases i <;> simp [Form.Admits, slotAdmits_iff]

theorem admits_list {elems : List Schema} :
    (Form.list elems).Admits i ↔ ∃ items, i = .list items ∧ ∀ j ∈ items, ∃ s ∈ elems, s.Admits j := by
  cases i <;> simp [Form.Admits, elemAdmits_iff]

theorem admits_optional {inner : Schema} : (Form.optional inner).Admits i ↔ inner.Admits i := by
  simp [Form.Admits]

theorem admits_oneOf {options : Table Schema} {conflict : Bool} :
    (Form.oneOf options conflict).Admits i ↔ ∃ s ∈ Table.values options, s.Admits i := by
  simp [Form.Admits, optionAdmits_iff]

end Form

/-! ## Trees that describe more -/

/-- Every instance of `s` is one of `t`. -/
def Schema.Below (s t : Schema) : Prop := ∀ i, s.Admits i → t.Admits i

theorem Schema.Below.refl (s : Schema) : s.Below s := fun _ h => h

theorem Schema.Below.trans {u : Schema} (hst : s.Below t) (htu : t.Below u) : s.Below u :=
  fun i h => htu i (hst i h)

/-- Only the shape and the nullability count. -/
theorem Schema.Below.of_form (hform : t.form = s.form) (hnull : s.nullable = true → t.nullable = true) :
    s.Below t := by
  intro i h
  rw [Schema.admits_iff] at h ⊢
  rw [hform]
  exact h.imp_left fun h => ⟨hnull h.1, h.2⟩

theorem Schema.below_orNullable (s : Schema) (b : Bool) : s.Below (s.orNullable b) :=
  .of_form rfl fun h => by rw [Schema.nullable_orNullable, h]; rfl

theorem Schema.below_mergeExamples (s : Schema) (e : Examples) : s.Below (s.mergeExamples e) :=
  .of_form rfl id

/-- A node is described by whatever describes its shape, and is nullable if the node is. -/
theorem Schema.below_iff : s.Below t ↔ (s.nullable = true → t.Admits .null) ∧ s.bare.Below t := by
  constructor
  · intro h
    refine ⟨fun hs => h _ (Schema.admits_iff.2 (.inl ⟨hs, rfl⟩)), fun i hi => h i ?_⟩
    rw [Schema.admits_iff] at hi ⊢
    exact .inr (hi.resolve_left fun hi => by cases hi.1)
  · rintro ⟨hnull, hbare⟩ i hi
    rcases Schema.admits_iff.1 hi with ⟨hs, rfl⟩ | hi
    · exact hnull hs
    · exact hbare i (Schema.admits_iff.2 (.inr hi))

/-- What describes an instance of a shape is not looked at further. -/
theorem Schema.below_of_form_admits (hnull : s.nullable = true → t.nullable = true)
    (hform : ∀ i, s.form.Admits i → t.Admits i) : s.Below t := by
  intro i hi
  rcases Schema.admits_iff.1 hi with ⟨hs, rfl⟩ | hi
  · exact Schema.admits_iff.2 (.inl ⟨hnull hs, rfl⟩)
  · exact hform i hi

theorem Schema.below_makeOptional (s : Schema) : s.Below s.makeOptional := by
  unfold Schema.makeOptional
  split
  · exact .refl s
  · refine Schema.below_of_form_admits (fun h => h) fun i hi => ?_
    exact Schema.admits_iff.2 (.inr (Form.admits_optional.2 (Schema.admits_iff.2 (.inr hi))))

/-- What covers a primitive stands for the values that it stands for. -/
theorem Primitive.Admits.of_covers {p j : Primitive} (hj : j.Covers p) {base : BaseType} {formatKind : String}
    {formats : List String} (h : p.Admits base formatKind formats) : j.Admits base formatKind formats := by
  refine ⟨h.1.trans hj.type, fun hkind => ?_⟩
  obtain ⟨hp, hsub⟩ := hj.formats.of_kind_ne hkind
  obtain ⟨hk, hf⟩ := h.2 (by rwa [hp])
  exact ⟨hk.trans hp, fun f hmem => hsub (hf f hmem)⟩

end

end ApiShape
