/-
The canonical object of a tree, and the address that identifies the tree. Examples are left out,
fields that hold defaults are left out, and the options of alternatives form a set, so the address
tells shapes apart and nothing else.
-/
import ApiShape.Schema.Basic

namespace ApiShape

namespace Scalar

/-- The number of the field that holds a value, and the value. -/
def canonField : Scalar → Nat × Canon
  | .bool v => (4, .bool v)
  | .bytes v => (5, .raw v)
  | .string v => (6, .text v)
  | .int32 v => (7, .int v.toInt)
  | .int64 v => (8, .int v.toInt)
  | .uint32 v => (9, .int v.toNat)
  | .uint64 v => (10, .int v.toNat)
  | .float v => (11, .float (v.convert .double))
  | .double v => (12, .float v)

end Scalar

namespace Primitive

/-- The field of the value is present even when the value is a zero, since it tells the type. -/
def canon (p : Primitive) : Canon :=
  let value := p.value.canonField
  .message
    (Canon.optionalField 1 (.text p.typeHint) ++ Canon.optionalField 2 (.text p.formatKind) ++
      (if p.formats.isEmpty then [] else [(3, .set (p.formats.map .text))]) ++
      [(value.1, .message (Canon.optionalField 1 value.2))])

end Primitive

/-- A field that is left out when there are no members. -/
def canonMembers (n : Nat) (c : Canon) (isEmpty : Bool) : List (Nat × Canon) :=
  if isEmpty then [] else [(n, c)]

mutual

/-- A tree as an object to be hashed. -/
def Schema.canon : Schema → Canon
  | ⟨form, nullable, metadata, _⟩ =>
    .message
      (form.canonField ::
        ((match metadata with
          | some m => [(6, m.canon)]
          | none => []) ++
          Canon.optionalField 7 (.bool nullable)))

/-- The number of the field that holds a shape, and the shape. -/
def Form.canonField : Form → Nat × Canon
  | .primitive p => (1, p.canon)
  | .record fields mapping =>
    (2, .message (canonMembers 1 (.dict (canonFields fields)) fields.isEmpty ++
      canonMapping mapping))
  | .list elems => (3, .message (canonMembers 1 (.list (canonElems elems)) elems.isEmpty))
  | .absent => (4, .message [(2, .message [])])
  | .optional inner => (4, .message [(1, inner.canon)])
  | .oneOf options conflict =>
    (5, .message (canonMembers 1 (.set (canonOptions options)) options.isEmpty ++
      Canon.optionalField 2 (.bool conflict)))

/-- The fields of a record under their names. -/
def canonFields : List (String × Schema) → List (Canon × Canon)
  | [] => []
  | (name, s) :: rest => (.text name, s.canon) :: canonFields rest

/-- The options without the keys they are stored under. -/
def canonOptions : List (String × Schema) → List Canon
  | [] => []
  | (_, s) :: rest => s.canon :: canonOptions rest

/-- The elements of a list, in order. -/
def canonElems : List Schema → List Canon
  | [] => []
  | s :: rest => s.canon :: canonElems rest

/-- The field of the mapping, which stands even when it has neither key nor value. -/
def canonMapping : Option Mapping → List (Nat × Canon)
  | none => []
  | some ⟨key, value⟩ => [(2, .message (canonSlot 1 key ++ canonSlot 2 value))]

/-- The field of a key or value, if there is one. -/
def canonSlot (n : Nat) : Option Schema → List (Nat × Canon)
  | none => []
  | some s => [(n, s.canon)]

end

namespace Schema

/-- The hexadecimal digest of a tree, which is its identity. -/
@[irreducible] def address (s : Schema) : String := s.canon.digest.hex

end Schema

end ApiShape
