/-
The nodes of a tree: the children of a node, induction on them, and properties that hold of every
node at every depth (`Throughout`).
-/
import ApiShape.Proofs.Table
import ApiShape.Schema.Size

namespace ApiShape

/-! ## Children -/

/-- The key and the value of a mapping, as far as it has them. -/
def Mapping.slots (m : Mapping) : List Schema := m.key.toList ++ m.value.toList

/-- The nodes one level below: fields, map key and value, elements, an interior, options. -/
def Form.children : Form → List Schema
  | .primitive _ => []
  | .record fields mapping => Table.values fields ++ (mapping.elim [] Mapping.slots)
  | .list elems => elems
  | .absent => []
  | .optional inner => [inner]
  | .oneOf options _ => Table.values options

/-- The children of a node are those of its shape. -/
def Schema.children (s : Schema) : List Schema := s.form.children

theorem size_eq (s : Schema) : s.size = s.form.size + 1 := by
  cases s
  simp [Schema.size]

theorem size_le_rowsSize {k : String} {t : Schema} :
    ∀ {rows : List (String × Schema)}, (k, t) ∈ rows → t.size ≤ rowsSize rows
  | (k', s) :: rest, h => by
    simp only [rowsSize]
    rcases List.mem_cons.1 h with h | h
    · cases h; omega
    · have := size_le_rowsSize h
      omega

theorem size_le_elemsSize {t : Schema} : ∀ {elems : List Schema}, t ∈ elems → t.size ≤ elemsSize elems
  | s :: rest, h => by
    simp only [elemsSize]
    rcases List.mem_cons.1 h with rfl | h
    · omega
    · have := size_le_elemsSize h
      omega

theorem size_le_slotSize {t : Schema} {slot : Option Schema} (h : t ∈ slot.toList) :
    t.size ≤ slotSize slot := by
  cases slot with
  | none => simp at h
  | some s =>
    obtain rfl : t = s := by simpa using h
    simp [slotSize]

theorem size_le_mappingSize {t : Schema} {mapping : Option Mapping}
    (h : t ∈ mapping.elim [] Mapping.slots) : t.size ≤ mappingSize mapping := by
  rcases mapping with _ | ⟨key, value⟩
  · simp at h
  · simp only [Option.elim, Mapping.slots, List.mem_append] at h
    simp only [mappingSize]
    rcases h with h | h
    · have := size_le_slotSize h
      omega
    · have := size_le_slotSize h
      omega

/-- A child has fewer nodes than its parent. -/
theorem size_lt_of_mem_children {s t : Schema} (h : t ∈ s.children) : t.size < s.size := by
  rw [size_eq s]
  suffices t.size ≤ s.form.size by omega
  unfold Schema.children at h
  cases hf : s.form with
  | primitive p => rw [hf] at h; cases h
  | record fields mapping =>
    rw [hf] at h
    simp only [Form.size]
    rcases List.mem_append.1 h with h | h
    · obtain ⟨k, hk⟩ := Table.mem_values.1 h
      have := size_le_rowsSize hk
      omega
    · have := size_le_mappingSize h
      omega
  | list elems =>
    rw [hf] at h
    exact size_le_elemsSize h
  | absent => rw [hf] at h; cases h
  | optional inner =>
    rw [hf] at h
    obtain rfl : t = inner := by simpa [Form.children] using h
    simp [Form.size]
  | oneOf options conflict =>
    rw [hf] at h
    obtain ⟨k, hk⟩ := Table.mem_values.1 h
    exact size_le_rowsSize hk

/-- Induction on trees: what holds of a node whenever it holds of its children holds of all. -/
theorem Schema.inductionOn {P : Schema → Prop} (s : Schema)
    (step : ∀ s, (∀ t ∈ s.children, P t) → P s) : P s := by
  induction hn : s.size using Nat.strongRecOn generalizing s with
  | _ n ih =>
    subst hn
    exact step s fun t ht => ih t.size (size_lt_of_mem_children ht) t rfl

/-! ## At every depth -/

/-- `P` holds of the node and of every node below it. -/
inductive Schema.Throughout (P : Schema → Prop) : Schema → Prop
  | intro {s : Schema} : P s → (∀ t ∈ s.children, Throughout P t) → Throughout P s

namespace Schema.Throughout

variable {P Q : Schema → Prop} {s t : Schema}

theorem root (h : s.Throughout P) : P s := by
  cases h with
  | intro h _ => exact h

theorem child (h : s.Throughout P) : ∀ t ∈ s.children, t.Throughout P := by
  cases h with
  | intro _ h => exact h

theorem iff_children : s.Throughout P ↔ P s ∧ ∀ t ∈ s.children, t.Throughout P :=
  ⟨fun h => ⟨h.root, h.child⟩, fun h => .intro h.1 h.2⟩

theorem mono (h : s.Throughout P) (hPQ : ∀ s, P s → Q s) : s.Throughout Q := by
  induction h with
  | intro h _ ih => exact .intro (hPQ _ h) ih

theorem and (hP : s.Throughout P) (hQ : s.Throughout Q) : s.Throughout (fun t => P t ∧ Q t) := by
  induction hP with
  | intro h _ ih => exact .intro ⟨h, hQ.root⟩ fun t ht => ih t ht (hQ.child t ht)

/-- Below a primitive there is nothing. -/
theorem of_primitive {p : Primitive} (hform : s.form = .primitive p) (h : P s) : s.Throughout P := by
  refine .intro h fun t ht => ?_
  rw [Schema.children, hform] at ht
  cases ht

/-- Changing what the property does not look at, outside of the shape of the root. -/
theorem congr (h : s.Throughout P) (hform : t.form = s.form) (hP : P s → P t) : t.Throughout P :=
  .intro (hP h.root) (by unfold Schema.children; rw [hform]; exact h.child)

end Schema.Throughout

/-! ## Properties of shapes -/

/-- `Q` holds of the shape and of the shape of every node below it. -/
def Form.Everywhere (Q : Form → Prop) (f : Form) : Prop :=
  Q f ∧ ∀ t ∈ f.children, t.Throughout (fun t => Q t.form)

section

variable {Q : Form → Prop} {s : Schema}

/-- What surrounds the shape of a node does not matter for a property of shapes. -/
theorem Schema.throughout_iff_everywhere : s.Throughout (fun t => Q t.form) ↔ s.form.Everywhere Q :=
  Schema.Throughout.iff_children

theorem Form.everywhere_iff {f : Form} :
    f.Everywhere Q ↔ Q f ∧ ∀ t ∈ f.children, t.form.Everywhere Q :=
  and_congr_right fun _ => forall₂_congr fun _ _ => Schema.throughout_iff_everywhere

theorem Form.Everywhere.mono {Q' : Form → Prop} {f : Form} (h : f.Everywhere Q) (hQ : ∀ f, Q f → Q' f) :
    f.Everywhere Q' :=
  ⟨hQ f h.1, fun t ht => (h.2 t ht).mono fun t => hQ t.form⟩

theorem Form.Everywhere.root {f : Form} (h : f.Everywhere Q) : Q f := h.1

theorem Form.everywhere_record {fields : Table Schema} {mapping : Option Mapping} :
    (Form.record fields mapping).Everywhere Q ↔ Q (.record fields mapping) ∧
      (∀ t ∈ Table.values fields, t.form.Everywhere Q) ∧
        ∀ m, mapping = some m → ∀ t ∈ m.slots, t.form.Everywhere Q := by
  rw [Form.everywhere_iff]
  refine and_congr_right fun _ => ?_
  simp only [Form.children, List.mem_append, or_imp, forall_and]
  refine and_congr_right fun _ => ?_
  cases mapping with
  | none => simp
  | some m => simp

theorem Form.everywhere_list {elems : List Schema} :
    (Form.list elems).Everywhere Q ↔ Q (.list elems) ∧ ∀ t ∈ elems, t.form.Everywhere Q :=
  Form.everywhere_iff

theorem Form.everywhere_optional {inner : Schema} :
    (Form.optional inner).Everywhere Q ↔ Q (.optional inner) ∧ inner.form.Everywhere Q := by
  rw [Form.everywhere_iff]
  simp [Form.children]

theorem Form.everywhere_oneOf {options : Table Schema} {conflict : Bool} :
    (Form.oneOf options conflict).Everywhere Q ↔
      Q (.oneOf options conflict) ∧ ∀ t ∈ Table.values options, t.form.Everywhere Q :=
  Form.everywhere_iff

end

theorem Mapping.mem_slots {m : Mapping} {t : Schema} :
    t ∈ m.slots ↔ m.key = some t ∨ m.value = some t := by
  simp [Mapping.slots]

end ApiShape
