/-
The base types of primitive values, and the narrowest base type that stands for two of them. Most
pairs of numeric types have one; the pairs without one are kept apart as alternatives.
-/

namespace ApiShape

/-- The types of scalar values. -/
inductive BaseType where
  | bool
  | bytes
  | string
  | int32
  | int64
  | uint32
  | uint64
  | float
  | double
deriving DecidableEq

namespace BaseType

/-- Every base type, in the order of declaration. -/
def all : List BaseType := [.bool, .bytes, .string, .int32, .int64, .uint32, .uint64, .float, .double]

/-- The name of a type, in JSON as well. -/
def name : BaseType → String
  | .bool => "bool"
  | .bytes => "bytes"
  | .string => "string"
  | .int32 => "int32"
  | .int64 => "int64"
  | .uint32 => "uint32"
  | .uint64 => "uint64"
  | .float => "float"
  | .double => "double"

/-- The type with a name. -/
def ofName? (s : String) : Option BaseType := all.find? (fun t => t.name = s)

/-- The types that join with `double`. -/
def isNumeric : BaseType → Bool
  | .int32 | .int64 | .uint32 | .uint64 | .float | .double => true
  | _ => false

/--
The base type of values observed under both types. The 64-bit integer types have no common type,
and neither have `int32` and `uint64`; 64-bit integers and `float` meet in `double`.
-/
def join (a b : BaseType) : Option BaseType :=
  if a = b then some a
  else
    match a, b with
    | .int32, .int64 | .int64, .int32 => some .int64
    | .int32, .uint32 | .uint32, .int32 => some .int64
    | .int64, .uint32 | .uint32, .int64 => some .int64
    | .uint32, .uint64 | .uint64, .uint32 => some .uint64
    | .int32, .float | .float, .int32 => some .float
    | .uint32, .float | .float, .uint32 => some .float
    | .int64, .float | .float, .int64 => some .double
    | .uint64, .float | .float, .uint64 => some .double
    | .double, t | t, .double => if t.isNumeric then some .double else none
    | _, _ => none

theorem join_comm (a b : BaseType) : a.join b = b.join a := by
  cases a <;> cases b <;> rfl

theorem join_self (a : BaseType) : a.join a = some a := by
  cases a <;> rfl

end BaseType

end ApiShape
