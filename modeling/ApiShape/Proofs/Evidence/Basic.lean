/-
What an accumulated tree says about the bag of trees that were absorbed into it, without their order. A
node offers variants, which are plain shapes that stand apart (`Schema.variants`). Each variant sums up the
shapes of the bag that agree with it (`Summary`), and each node below it stands for the nodes that those
shapes have there (`Stands`).
-/
import ApiShape.Proofs.Evidence.Primitive
import ApiShape.Proofs.Reduced.Basic
import Mathlib.Data.Finset.Card
import Mathlib.Data.Multiset.Bind

namespace ApiShape

/-! ## Plain shapes -/

namespace Form

/-- The primitive that a shape is, if it is one. -/
def primitive? : Form → Option Primitive
  | .primitive p => some p
  | _ => none

/-- The fields of a record; other shapes have none. -/
def fields : Form → Table Schema
  | .record fields _ => fields
  | _ => []

/-- Whether a record has a mapping. -/
def isMap : Form → Bool
  | .record _ (some _) => true
  | _ => false

/-- The elements of a list; other shapes have none. -/
def elems : Form → List Schema
  | .list elems => elems
  | _ => []

theorem agrees_self {f : Form} (h : f.isPlain = true) : f.agrees f = true := by
  cases f <;> first | rfl | cases h; done | exact Primitive.joinable_self _

theorem agrees_primitive {f : Form} {p : Primitive} (h : f.agrees (.primitive p) = true) :
    ∃ q, f = .primitive q ∧ q.joinable p = true := by
  cases f <;> first | exact ⟨_, rfl, h⟩ | cases h

theorem agrees_record {f : Form} {fields : Table Schema} {mapping : Option Mapping}
    (h : f.agrees (.record fields mapping) = true) : ∃ fields' mapping', f = .record fields' mapping' := by
  cases f <;> first | exact ⟨_, _, rfl⟩ | cases h

theorem agrees_list {f : Form} {elems : List Schema} (h : f.agrees (.list elems) = true) :
    ∃ elems', f = .list elems' := by
  cases f <;> first | exact ⟨_, rfl⟩ | cases h

end Form

/-! ## The layers of a node -/

namespace Schema

/-- The node below the optional layer, if there is one. -/
def core (s : Schema) : Schema :=
  match s.form with
  | .optional inner => inner
  | _ => s

/-- A node without its optional layer, whose nullability it takes over. -/
def inside (s : Schema) : Schema := s.core.orNullable s.nullable

/-- The shapes that a node offers: those of its options, or its own. -/
def variants (s : Schema) : List Form :=
  match s.core.form with
  | .oneOf options _ => (Table.values options).map Schema.form
  | f => [f]

/--
A node as witnesses have it and absorbing keeps it: without metadata, below one optional layer at most,
with alternatives that stand apart, are more than one, and are marked as a conflict.
-/
structure Regular (s : Schema) : Prop where
  metadata : s.metadata = none
  inner : s.core.metadata = none
  present : s.core.isOptional = false
  alternatives : ∀ options conflict, s.core.form = .oneOf options conflict →
    conflict = true ∧ options ≠ [] ∧ Catalogue.Reduced options

end Schema

/-- The nodes that describe the keys of a record taken as a map. -/
def Form.keyNodes : Form → List Schema
  | .record _ none => [Schema.ofType .string]
  | .record _ (some m) => m.key.toList
  | _ => []

/-- The nodes that describe the values of a record taken as a map. -/
def Form.valueNodes : Form → List Schema
  | .record fields none => (Table.values fields).map Schema.inside
  | .record _ (some m) => m.value.toList
  | _ => []

/-! ## Witnesses -/

/-- A plain shape as a witness has it: primitives of coherent types with exact values, and maps without
fields besides. -/
def Form.Observed (types : List BaseType) : Form → Prop
  | .primitive p => p.Observed types
  | .record fields mapping => Table.Sorted fields ∧ (mapping.isSome = true → fields = [])
  | .list _ => True
  | .absent | .optional _ | .oneOf _ _ => False

/-- A tree as witnesses have it, at every depth. -/
def Schema.Witness (types : List BaseType) (s : Schema) : Prop :=
  s.Throughout (fun t => t.Regular ∧ (t.isPlain = true → t.form.Observed types))

/-- A plain shape of a witness, with the trees below it. -/
structure Form.Witness (types : List BaseType) (f : Form) : Prop where
  observed : f.Observed types
  children : ∀ t ∈ f.children, t.Witness types

/-! ## Bags -/

/-- The shapes that the nodes of a bag offer. -/
def variantsSeen (seen : Multiset Schema) : Multiset Form := seen.bind (fun s => (s.variants : Multiset Form))

/-- Members that stand alone, together. -/
theorem sum_singletons {α : Type} (l : List α) : (l.map (fun a => ({a} : Multiset α))).sum = (l : Multiset α) := by
  induction l with
  | nil => rfl
  | cons a l ih =>
    rw [List.map_cons, List.sum_cons, ih]
    exact Multiset.singleton_add a _

section

variable (g : Multiset Form) (name : String)

/-- The shapes of a bag that agree with one. -/
def agreeing (f : Form) : Multiset Form := g.filter (fun c => c.agrees f = true)

/-- What the records of a bag have in a field. -/
def fieldsSeen : Multiset Schema := g.filterMap (fun c => Table.find? c.fields name)

/-- Some record of the bag lacks the field. -/
def Lacks : Prop := ∃ c ∈ g, Table.find? c.fields name = none

/-- The keys of the maps of a bag. -/
def keysSeen : Multiset Schema := g.bind (fun c => (c.keyNodes : Multiset Schema))

/-- The values of the maps of a bag. -/
def valuesSeen : Multiset Schema := g.bind (fun c => (c.valueNodes : Multiset Schema))

/-- The elements of the lists of a bag. -/
def elemsSeen : Multiset Schema := g.bind (fun c => (c.elems : Multiset Schema))

/-- Some record of the bag has the field, and it is optional after all of them. -/
def OptionalField : Prop := fieldsSeen g name ≠ 0 ∧ (Lacks g name ∨ ∃ s ∈ fieldsSeen g name, s.isOptional = true)

/-- The records of a bag together have no more fields than the thresholds. -/
structure MapThresholds.Within (t : MapThresholds) (g : Multiset Form) : Prop where
  fields : ∀ names : Finset String, (∀ name ∈ names, fieldsSeen g name ≠ 0) → names.card ≤ t.maxFields
  optional : ∀ names : Finset String, (∀ name ∈ names, OptionalField g name) → names.card ≤ t.maxOptionalFields
  digit : ∀ names : Finset String, (∀ name ∈ names, fieldsSeen g name ≠ 0 ∧ startsWithDigit name = true) →
    names.card ≤ t.maxDigitFields

/-- A bag of records is summed up as a map: when one is a map, or when several exceed a threshold. -/
def TakenAsMap (limits : Limits) (g : Multiset Form) : Prop :=
  (∃ c ∈ g, c.isMap = true) ∨ 2 ≤ g.card ∧ ¬limits.mapInference.Within g

end

/-! ## What a node says of a bag of nodes -/

/-- Every shape of a bag agrees with one that the node offers. -/
def Schema.Covers (vs : Multiset Form) (s : Schema) : Prop := ∀ c ∈ vs, ∃ f ∈ s.variants, c.agrees f = true

/-- The flags of a node after several nodes, and whether it was missing besides. -/
structure Flags (seen : Multiset Schema) (missing : Prop) (s : Schema) : Prop where
  optional : s.isOptional = true ↔ missing ∨ ∃ t ∈ seen, t.isOptional = true
  nullable : s.nullable = true ↔ ∃ t ∈ seen, t.inside.nullable = true
  bare : s.isOptional = true → s.core.nullable = false

/-- What a node says of a bag of nodes by itself. One that stands alone is left as it is, but for the optional
layer that it gets when it is missing besides. -/
structure Outline (seen : Multiset Schema) (missing : Prop) (s : Schema) : Prop where
  nonempty : seen ≠ 0
  alone : ∀ t, seen = {t} → (missing → s = t.makeOptional) ∧ (¬missing → s = t)
  flags : 2 ≤ seen.card → Flags seen missing s
  regular : 2 ≤ seen.card → s.Regular
  covers : 2 ≤ seen.card → s.Covers (variantsSeen seen)

/-! ## Summaries -/

/-- The nodes below a shape that sums up a bag: which nodes of the bag they stand for, and whether some
shape of the bag lacks them. -/
inductive Part (g : Multiset Form) : Form → Multiset Schema → Prop → Schema → Prop
  | field {fields : Table Schema} {name : String} {s : Schema} : Table.find? fields name = some s →
      Part g (.record fields none) (fieldsSeen g name) (Lacks g name) s
  | key {fields : Table Schema} {m : Mapping} {s : Schema} : m.key = some s →
      Part g (.record fields (some m)) (keysSeen g) False s
  | value {fields : Table Schema} {m : Mapping} {s : Schema} : m.value = some s →
      Part g (.record fields (some m)) (valuesSeen g) False s
  | element (s : Schema) : Part g (.list [s]) (elemsSeen g) False s

/-- A shape that sums up a bag of shapes, apart from what it has below. -/
inductive Sums (limits : Limits) (g : Multiset Form) : Form → Prop
  | primitive {p : Primitive} : Primitive.JoinOf (g.filterMap Form.primitive?) p → Sums limits g (.primitive p)
  | record {fields : Table Schema} : Table.Sorted fields →
      (∀ name, Table.find? fields name = none ↔ fieldsSeen g name = 0) → ¬TakenAsMap limits g →
      Sums limits g (.record fields none)
  | map {m : Mapping} : TakenAsMap limits g → (m.key = none ↔ keysSeen g = 0) → (m.value = none ↔ valuesSeen g = 0) →
      Sums limits g (.record [] (some m))
  | list {elems : List Schema} : elems.length ≤ 1 → (elems = [] ↔ elemsSeen g = 0) → Sums limits g (.list elems)

/-- A shape sums up a bag of shapes at every depth. One that stands alone is left as it is. -/
inductive Summary (limits : Limits) : Multiset Form → Form → Prop
  | single (f : Form) : Summary limits {f} f
  | merged {g : Multiset Form} {f : Form} (several : 2 ≤ g.card) (agrees : ∀ c ∈ g, c.agrees f = true)
      (sums : Sums limits g f) (outline : ∀ seen missing s, Part g f seen missing s → Outline seen missing s)
      (parts : ∀ seen missing s, Part g f seen missing s → 2 ≤ seen.card → ∀ v ∈ s.variants,
        Summary limits (agreeing (variantsSeen seen) v) v) : Summary limits g f

/-- A node stands for a bag of nodes at every depth. -/
structure Stands (limits : Limits) (seen : Multiset Schema) (missing : Prop) (s : Schema) : Prop where
  outline : Outline seen missing s
  summary : 2 ≤ seen.card → ∀ v ∈ s.variants, Summary limits (agreeing (variantsSeen seen) v) v

/-- A node offers the shapes of a bag: each of its variants sums up those that agree with it. -/
structure Offers (limits : Limits) (vs : Multiset Form) (s : Schema) : Prop where
  regular : s.Regular
  covers : s.Covers vs
  summary : ∀ v ∈ s.variants, Summary limits (agreeing vs v) v

theorem Stands.offers_of_several {limits : Limits} {seen : Multiset Schema} {missing : Prop} {s : Schema}
    (h : Stands limits seen missing s) (hseveral : 2 ≤ seen.card) : Offers limits (variantsSeen seen) s where
  regular := h.outline.regular hseveral
  covers := h.outline.covers hseveral
  summary := h.summary hseveral

end ApiShape
