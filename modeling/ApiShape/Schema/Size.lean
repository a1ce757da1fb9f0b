/-
The number of nodes in a tree, which bounds how deep absorbing it can recurse.
-/
import ApiShape.Schema.Basic

namespace ApiShape

mutual

/-- The nodes of a tree, wrappers included. -/
def Schema.size : Schema → Nat
  | ⟨form, _, _, _⟩ => form.size + 1

/-- The nodes below a shape. -/
def Form.size : Form → Nat
  | .primitive _ => 0
  | .record fields mapping => rowsSize fields + mappingSize mapping
  | .list elems => elemsSize elems
  | .absent => 0
  | .optional inner => inner.size
  | .oneOf options _ => rowsSize options

/-- The nodes in fields or options. -/
def rowsSize : List (String × Schema) → Nat
  | [] => 0
  | (_, s) :: rest => s.size + rowsSize rest

/-- The nodes in the elements of a list. -/
def elemsSize : List Schema → Nat
  | [] => 0
  | s :: rest => s.size + elemsSize rest

/-- The nodes in a mapping. -/
def mappingSize : Option Mapping → Nat
  | none => 0
  | some ⟨key, value⟩ => slotSize key + slotSize value

/-- The nodes in a key or value. -/
def slotSize : Option Schema → Nat
  | none => 0
  | some s => s.size

end

end ApiShape
