/-
Primitive nodes: a scalar value with the formats detected in it and a type hint, and the join of
two of them. A node without a format kind makes no statement about formats, so joining with one
drops them; two different kinds do not join.
-/
import ApiShape.Primitive.Scalar
import ApiShape.Table

namespace ApiShape

/-- What is known of a scalar. -/
structure Primitive where
  value : Scalar
  /-- The category of the detected formats, empty when there is none. -/
  formatKind : String := ""
  /-- The formats detected within the category. -/
  formats : Labels := []
  typeHint : String := ""
deriving DecidableEq

namespace Primitive

/-- A primitive of a type, without an observed value. -/
def ofType (t : BaseType) : Primitive := { value := Scalar.zero t }

/-- The type of the value. -/
def baseType (p : Primitive) : BaseType := p.value.baseType

@[simp] theorem baseType_ofType (t : BaseType) : (ofType t).baseType = t := Scalar.baseType_zero t

/-- The kind and formats that two primitives agree on. -/
def joinFormats (p q : Primitive) : Option (String × Labels) :=
  if p.formatKind.isEmpty || q.formatKind.isEmpty then some ("", [])
  else if p.formatKind = q.formatKind then some (p.formatKind, Labels.union p.formats q.formats)
  else none

/-- The primitive that stands for both; the hint of `p` wins when it has one. -/
def join (p q : Primitive) : Option Primitive :=
  match p.baseType.join q.baseType, p.joinFormats q with
  | some t, some (kind, formats) =>
    some
      { value := p.value.join q.value t
        formatKind := kind
        formats := formats
        typeHint := if p.typeHint.isEmpty then q.typeHint else p.typeHint }
  | _, _ => none

/-- Whether one primitive stands for both. -/
def joinable (p q : Primitive) : Bool := (p.join q).isSome

end Primitive

end ApiShape
