/-
Trees in reduced form: nothing in them is left for absorbing to put together. Records stay below the
thresholds of maps, lists have one representative, optional layers are single and hold bare nodes, and
alternatives stand apart.
-/
import ApiShape.Proofs.Absorb.Nullable
import ApiShape.Proofs.Keys.Basic
import ApiShape.Proofs.Schema.Alike
import ApiShape.Proofs.WellFormed.Basic

namespace ApiShape

/-! ## Reduced trees -/

/-- Whether the value is a NaN of either precision. -/
def Scalar.isNaN : Scalar → Bool
  | .float x => x.isNaN
  | .double x => x.isNaN
  | _ => false

/-- A primitive that is its own join. -/
structure Primitive.Reduced (p : Primitive) : Prop where
  value : p.value.isNaN = false
  formats : p.formatKind = "" → p.formats = []

/-- Alternatives that stand apart: bare, under their addresses, and not a single one. -/
structure Catalogue.Reduced (options : Catalogue) : Prop where
  fresh : options.Fresh
  length : options.length ≠ 1
  exclusive : options.Exclusive
  bare : ∀ t ∈ Table.values options, t.IsBare

/-- What absorbing leaves nothing to do in, by the kind of the shape. -/
def Form.Reduced (thresholds : MapThresholds) : Form → Prop
  | .primitive p => p.Reduced
  | .record fields mapping => thresholds.exceeded fields mapping = false
  | .list elems => elems.length ≤ 1
  | .absent => True
  | .optional inner => inner.isOptional = false ∧ inner.IsBare
  | .oneOf options _ => Catalogue.Reduced options

/-- In reduced form at every depth, and nullable where only null was seen. -/
def Schema.Reduced (thresholds : MapThresholds) (s : Schema) : Prop :=
  s.Throughout (fun t => t.form.Reduced thresholds ∧ (t.form = .absent → t.nullable = true))

/-! ## Reduced trees without examples -/

theorem Schema.children_erase (s : Schema) : s.erase.children = s.children.map Schema.erase := by
  unfold Schema.children
  rw [Schema.form_erase]
  cases s.form with
  | primitive | absent => rfl
  | record fields mapping =>
    rw [Form.erase_record]
    rcases mapping with _ | ⟨key, value⟩
    · simp [Form.children]
    · cases key <;> cases value <;> simp [Form.children, Mapping.slots, Mapping.erase]
  | list elems => simp [Form.children]
  | optional inner => simp [Form.children]
  | oneOf options conflict => simp [Form.children]

/-- What goes through erasing at each node goes through erasing a tree. -/
theorem Schema.Throughout.erase {P Q : Schema → Prop} (hPQ : ∀ s, P s → Q s.erase) {s : Schema}
    (h : s.Throughout P) : s.erase.Throughout Q := by
  induction h with
  | intro h _ ih =>
    refine .intro (hPQ _ h) fun t ht => ?_
    rw [Schema.children_erase] at ht
    obtain ⟨u, hu, rfl⟩ := List.mem_map.1 ht
    exact ih u hu

/-- No node has an example. -/
def Schema.Exampleless (s : Schema) : Prop := s.Throughout (fun t => t.examples = [])

theorem Schema.exampleless_erase (s : Schema) : s.erase.Exampleless := by
  induction s using Schema.inductionOn with
  | step s ih =>
    refine .intro s.examples_erase fun t ht => ?_
    rw [Schema.children_erase] at ht
    obtain ⟨u, hu, rfl⟩ := List.mem_map.1 ht
    exact ih u hu

theorem Table.Sorted.mapValues {α β : Type} {t : Table α} (h : Table.Sorted t) (f : α → β) :
    Table.Sorted (Table.mapValues f t) := h.of_keys (Table.keys_mapValues f t)

theorem Schema.isPlain_erase (s : Schema) : s.erase.isPlain = s.isPlain := by
  obtain ⟨form, nullable, metadata, examples⟩ := s
  cases form <;> rfl

theorem Schema.agrees_erase (s t : Schema) : s.erase.agrees t.erase = s.agrees t := by
  obtain ⟨form, nullable, metadata, examples⟩ := s
  obtain ⟨form', nullable', metadata', examples'⟩ := t
  cases form <;> cases form' <;> rfl

theorem Schema.IsBare.erase {s : Schema} (h : s.IsBare) : s.erase.IsBare where
  nullable := by rw [Schema.nullable_erase, h.nullable]
  metadata := by rw [Schema.metadata_erase, h.metadata]

theorem Catalogue.Fresh.erase {c : Catalogue} (h : c.Fresh) : Catalogue.Fresh (Table.mapValues Schema.erase c) where
  left := h.1.mapValues _
  right row hrow := by
    obtain ⟨row', hrow', rfl⟩ := List.mem_map.1 hrow
    dsimp only
    rw [h.2 row' hrow', Schema.address_erase]

theorem Catalogue.Reduced.erase {c : Catalogue} (h : c.Reduced) : Catalogue.Reduced (Table.mapValues Schema.erase c) where
  fresh := h.fresh.erase
  length := by rw [Table.length_mapValues]; exact h.length
  exclusive :=
    { plain := fun t ht => by
        rw [Table.values_mapValues] at ht
        obtain ⟨u, hu, rfl⟩ := List.mem_map.1 ht
        rw [Schema.isPlain_erase]
        exact h.exclusive.plain u hu
      apart := by
        rw [Table.values_mapValues, List.pairwise_map]
        exact h.exclusive.apart.imp fun hab => by rwa [Schema.agrees_erase] }
  bare t ht := by
    rw [Table.values_mapValues] at ht
    obtain ⟨u, hu, rfl⟩ := List.mem_map.1 ht
    exact (h.bare u hu).erase

/-- Being reduced does not depend on examples: addresses and kinds stay. -/
theorem Form.Reduced.erase {thresholds : MapThresholds} {f : Form} (h : f.Reduced thresholds) :
    f.erase.Reduced thresholds := by
  cases f with
  | primitive p => exact h
  | record fields mapping =>
    rw [Form.erase_record]
    cases mapping with
    | none => exact (exceeded_erase thresholds fields).trans h
    | some m => rfl
  | list elems =>
    have h : elems.length ≤ 1 := h
    rw [Form.erase_list]
    show (elems.map Schema.erase).length ≤ 1
    rwa [List.length_map]
  | absent => trivial
  | optional inner =>
    obtain ⟨hopt, hbare⟩ := h
    rw [Form.erase_optional]
    exact ⟨by rw [Schema.isOptional_erase, hopt], hbare.erase⟩
  | oneOf options conflict =>
    rw [Form.erase_oneOf]
    exact Catalogue.Reduced.erase h

theorem Form.Ordered.erase {f : Form} (h : f.Ordered) : f.erase.Ordered := by
  cases f with
  | record fields mapping =>
    rw [Form.erase_record]
    exact Table.Sorted.mapValues h _
  | oneOf options conflict =>
    rw [Form.erase_oneOf]
    exact Table.Sorted.mapValues h _
  | primitive | list | absent | optional => trivial

theorem Form.Labelled.erase {f : Form} (h : f.Labelled) : f.erase.Labelled := by
  cases f with
  | primitive p => exact h
  | record | list | absent | optional | oneOf => trivial

theorem Schema.Reduced.erase {thresholds : MapThresholds} {s : Schema} (h : s.Reduced thresholds) :
    s.erase.Reduced thresholds := by
  refine Schema.Throughout.erase (fun s hs => ⟨?_, fun habsent => ?_⟩) h
  · rw [Schema.form_erase]
    exact hs.1.erase
  · rw [Schema.nullable_erase]
    refine hs.2 ?_
    rw [Schema.form_erase] at habsent
    cases hform : s.form <;> rw [hform] at habsent <;> first | rfl | cases habsent

theorem Schema.Ordered.erase {s : Schema} (h : s.Ordered) : s.erase.Ordered :=
  Schema.Throughout.erase (fun s hs => by rw [Schema.form_erase]; exact hs.erase) h

theorem Schema.Labelled.erase {s : Schema} (h : s.Labelled) : s.erase.Labelled :=
  Schema.Throughout.erase (fun s hs => by rw [Schema.form_erase]; exact hs.erase) h

end ApiShape
