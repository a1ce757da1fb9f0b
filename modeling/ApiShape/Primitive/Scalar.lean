/-
Observed scalar values: their base type, the zero of each type, equality as values, conversion to
a wider base type, and text.
-/
import ApiShape.Digest.Bytes
import ApiShape.Numeric.Binary
import ApiShape.Primitive.BaseType

namespace ApiShape

/-- A value of a base type. -/
inductive Scalar where
  | bool (v : Bool)
  | bytes (v : Bytes)
  | string (v : String)
  | int32 (v : Int32)
  | int64 (v : Int64)
  | uint32 (v : UInt32)
  | uint64 (v : UInt64)
  | float (v : Binary32)
  | double (v : Binary64)
deriving DecidableEq

namespace Scalar

/-- The type of a value is its constructor. -/
def baseType : Scalar → BaseType
  | .bool _ => .bool
  | .bytes _ => .bytes
  | .string _ => .string
  | .int32 _ => .int32
  | .int64 _ => .int64
  | .uint32 _ => .uint32
  | .uint64 _ => .uint64
  | .float _ => .float
  | .double _ => .double

/-- The value that stands for no observation of a type. -/
def zero : BaseType → Scalar
  | .bool => .bool false
  | .bytes => .bytes []
  | .string => .string ""
  | .int32 => .int32 0
  | .int64 => .int64 0
  | .uint32 => .uint32 0
  | .uint64 => .uint64 0
  | .float => .float Binary.zero
  | .double => .double Binary.zero

@[simp] theorem baseType_zero (t : BaseType) : (zero t).baseType = t := by
  cases t <;> rfl

/-- Equality of values: floating-point payloads compare as numbers, all others exactly. -/
def same : Scalar → Scalar → Bool
  | .float x, .float y => x.same y
  | .double x, .double y => x.same y
  | a, b => a == b

/-- Whether the value is the zero of its type, and so says nothing but the type. -/
def isZero (s : Scalar) : Bool := s.same (zero s.baseType)

/-- The value in a type that holds every value of its own type, up to rounding. -/
def widen (s : Scalar) (target : BaseType) : Option Scalar :=
  if s.baseType = target then some s
  else
    match s, target with
    | .int32 v, .int64 => some (.int64 v.toInt64)
    | .int32 v, .float => some (.float (Binary.ofInt v.toInt))
    | .int32 v, .double => some (.double (Binary.ofInt v.toInt))
    | .uint32 v, .int64 => some (.int64 (Int64.ofNat v.toNat))
    | .uint32 v, .uint64 => some (.uint64 v.toUInt64)
    | .uint32 v, .float => some (.float (Binary.ofInt v.toNat))
    | .uint32 v, .double => some (.double (Binary.ofInt v.toNat))
    | .int64 v, .double => some (.double (Binary.ofInt v.toInt))
    | .uint64 v, .double => some (.double (Binary.ofInt v.toNat))
    | .float v, .double => some (.double (v.convert .double))
    | _, _ => none

/-- The text that is printed for a value, where it has one that is fixed; that of a floating-point value is left open. -/
def text? : Scalar → Option String
  | .bool v => some (if v then "true" else "false")
  | .bytes v => some v.hex
  | .string v => some v
  | .int32 v => some (toString v.toInt)
  | .int64 v => some (toString v.toInt)
  | .uint32 v => some (toString v.toNat)
  | .uint64 v => some (toString v.toNat)
  | .float _ | .double _ => none

/-! ## Joining observations -/

/-- The value of both observations as one of type `target`, or its zero when they disagree. -/
def join (a b : Scalar) (target : BaseType) : Scalar :=
  match a.widen target, b.widen target with
  | some a', some b' => if a'.same b' then a' else zero target
  | _, _ => zero target

end Scalar

end ApiShape
