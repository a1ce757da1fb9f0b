/-
The tree that describes the shape of a value: primitives, records, lists, optional values and
alternatives, each node with its nullability, metadata and examples.
-/
import ApiShape.Metadata
import ApiShape.Primitive.Basic
import ApiShape.Schema.Examples

namespace ApiShape

mutual

/-- A node of the tree. -/
structure Schema where
  form : Form
  /-- Whether the value may be null. -/
  nullable : Bool := false
  metadata : Option Metadata := none
  examples : List (String × String) := []

/-- The shape of a node. -/
inductive Form where
  | primitive (p : Primitive)
  /-- A record with named fields, or a map when it has a mapping. -/
  | record (fields : List (String × Schema)) (mapping : Option Mapping)
  /-- A list whose elements each have one of the given shapes. -/
  | list (elems : List Schema)
  /-- A value that was only ever absent. -/
  | absent
  /-- A value that may be absent. -/
  | optional (inner : Schema)
  /-- One of several shapes, stored under their addresses; `conflict` marks those that were
  recorded because observations did not agree. -/
  | oneOf (options : List (String × Schema)) (conflict : Bool)

/-- The shapes of the keys and values of a map. -/
structure Mapping where
  key : Option Schema := none
  value : Option Schema := none

end

/-- The kind of a node, as reports name it. -/
inductive Kind where
  | primitive
  | record
  | map
  | list
  | optional
  | oneOf
deriving DecidableEq

namespace Kind

/-- The words that reports use. -/
def name : Kind → String
  | .primitive => "primitive"
  | .record => "struct"
  | .map => "map"
  | .list => "list"
  | .optional => "optional"
  | .oneOf => "oneof"

end Kind

namespace Form

/-- A record with a mapping is a map. -/
def kind : Form → Kind
  | .primitive _ => .primitive
  | .record _ none => .record
  | .record _ (some _) => .map
  | .list _ => .list
  | .absent | .optional _ => .optional
  | .oneOf _ _ => .oneOf

end Form

namespace Schema

/-- The kind of a node is that of its shape. -/
def kind (s : Schema) : Kind := s.form.kind

/-! ## Making nodes -/

/-- A primitive node. -/
def ofPrimitive (p : Primitive) : Schema := { form := .primitive p }

/-- A primitive of a type, without an observed value. -/
def ofType (t : BaseType) : Schema := ofPrimitive (Primitive.ofType t)

/-- A record that is no map. -/
def ofFields (fields : Table Schema) : Schema := { form := .record fields none }

/-- A list of elements of these shapes. -/
def ofElems (elems : List Schema) : Schema := { form := .list elems }

/-- A value that may be absent. -/
def ofOptional (inner : Schema) : Schema := { form := .optional inner }

/-- A null without any other observation. -/
def absent : Schema := { form := .absent }

/-! ## Changing nodes -/

/-- The node as it is stored among alternatives: without metadata. -/
def withoutMetadata (s : Schema) : Schema := { s with metadata := none }

/-- The shape of a node with its examples only. -/
def bare (s : Schema) : Schema := { s with nullable := false, metadata := none }

/-- The node, nullable as well if `b` holds. -/
def orNullable (s : Schema) (b : Bool) : Schema := { s with nullable := s.nullable || b }

/-- The node with one more example, in place of one with the same key. -/
def withExample (s : Schema) (key value : String) : Schema :=
  { s with examples := Table.insert s.examples key value }

/-- The node with the examples of another observation as well. -/
def mergeExamples (s : Schema) (examples : Examples) : Schema :=
  { s with examples := Examples.merge s.examples examples }

/-- Whether the value may be absent, by its outermost layer. -/
def isOptional (s : Schema) : Bool :=
  match s.form with
  | .absent | .optional _ => true
  | _ => false

/--
Wraps a node in an optional layer unless it has one. Nullability and metadata stay on the outer
node, and the examples go inside with the shape.
-/
def makeOptional (s : Schema) : Schema :=
  if s.isOptional then s else { s with form := .optional s.bare, examples := [] }

@[simp] theorem form_bare (s : Schema) : s.bare.form = s.form := rfl

@[simp] theorem nullable_bare (s : Schema) : s.bare.nullable = false := rfl

@[simp] theorem bare_bare (s : Schema) : s.bare.bare = s.bare := rfl

@[simp] theorem form_orNullable (s : Schema) (b : Bool) : (s.orNullable b).form = s.form := rfl

@[simp] theorem nullable_orNullable (s : Schema) (b : Bool) :
    (s.orNullable b).nullable = (s.nullable || b) := rfl

@[simp] theorem form_mergeExamples (s : Schema) (e : Examples) : (s.mergeExamples e).form = s.form := rfl

@[simp] theorem nullable_mergeExamples (s : Schema) (e : Examples) :
    (s.mergeExamples e).nullable = s.nullable := rfl

@[simp] theorem nullable_makeOptional (s : Schema) : s.makeOptional.nullable = s.nullable := by
  unfold makeOptional
  split <;> rfl

theorem isOptional_makeOptional (s : Schema) : s.makeOptional.isOptional = true := by
  unfold makeOptional
  split
  · assumption
  · rfl

theorem makeOptional_of_isOptional {s : Schema} (h : s.isOptional = true) : s.makeOptional = s := by
  unfold makeOptional
  rw [if_pos h]

theorem makeOptional_makeOptional (s : Schema) : s.makeOptional.makeOptional = s.makeOptional :=
  makeOptional_of_isOptional s.isOptional_makeOptional

end Schema

end ApiShape
