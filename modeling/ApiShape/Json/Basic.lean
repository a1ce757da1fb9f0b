/-
JSON values as trees. Objects keep their rows as they are written, repeated keys included, and
numbers keep whether they are written as integers.
-/
import ApiShape.Numeric.Decimal

namespace ApiShape

/-- A number as it is written. -/
inductive Numeral where
  | integer (i : Int)
  /-- With a point or an exponent, or a zero with a sign. -/
  | decimal (d : Decimal)
deriving DecidableEq

/-- A JSON value as it is written. -/
inductive JsonValue where
  | null
  | bool (b : Bool)
  | number (n : Numeral)
  | text (s : String)
  | array (items : List JsonValue)
  | object (rows : List (String × JsonValue))
  /-- A value in correct syntax that can only be skipped: a text that is no sequence of
  characters, or an array or object that is nested too deep. -/
  | unreadable

mutual

/-- The levels of arrays and objects in a value, the value itself included. -/
def JsonValue.depth : JsonValue → Nat
  | .array items => JsonValue.itemsDepth items + 1
  | .object rows => JsonValue.rowsDepth rows + 1
  | _ => 1

/-- The levels of the deepest item. -/
def JsonValue.itemsDepth : List JsonValue → Nat
  | [] => 0
  | v :: rest => max v.depth (JsonValue.itemsDepth rest)

/-- The levels of the deepest row. -/
def JsonValue.rowsDepth : List (String × JsonValue) → Nat
  | [] => 0
  | (_, v) :: rest => max v.depth (JsonValue.rowsDepth rest)

end

end ApiShape
