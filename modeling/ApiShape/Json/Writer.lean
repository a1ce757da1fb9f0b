/-
Writing JSON text: compact, with keys in the order of the rows, and characters other than quotes,
backslashes and controls as they are.
-/
import ApiShape.Digest.Bytes
import ApiShape.Json.Basic

namespace ApiShape

namespace JsonWriter

/-! ## Texts -/

/-- A character as it stands in a text. -/
def escaped (c : Char) : String :=
  if c = '"' then "\\\""
  else if c = '\\' then "\\\\"
  else if c = '\x08' then "\\b"
  else if c = '\x0c' then "\\f"
  else if c = '\n' then "\\n"
  else if c = '\r' then "\\r"
  else if c = '\t' then "\\t"
  else if c < ' ' then "\\u00" ++ Bytes.hex [c.toNat.toUInt8]
  else c.toString

/-- A text in quotes. -/
def text (s : String) : String := "\"" ++ String.join (s.toList.map escaped) ++ "\""

/-! ## Numbers -/

/-- Decimal digits with zeros in front up to a least count. -/
def paddedDigits (count n : Nat) : List Char :=
  let ds := Nat.toDigits 10 n
  List.replicate (count - ds.length) '0' ++ ds

/-- Digits with the last `scale` of them after a point. -/
def pointed (scale n : Nat) : String :=
  if scale = 0 then String.ofList (Nat.toDigits 10 n)
  else
    let ds := paddedDigits (scale + 1) n
    String.ofList (ds.take (ds.length - scale)) ++ "." ++
      String.ofList (ds.drop (ds.length - scale))

/-- The exponent with its sign. -/
def exponent (e : Int) : String :=
  if e = 0 then "" else if e < 0 then "e" ++ toString e else "e+" ++ toString e

/-- A decimal the way it says it is written. -/
def decimal (d : Decimal) : String :=
  (if d.negative then "-" else "") ++ pointed d.scale d.coefficient ++ exponent d.exponent

/-- A number the way it says it is written. -/
def numeral : Numeral → String
  | .integer i => toString i
  | .decimal d => decimal d

end JsonWriter

/-! ## Values -/

mutual

/-- The text of a value. -/
def JsonValue.render : JsonValue → String
  | .null => "null"
  | .bool b => if b then "true" else "false"
  | .number n => JsonWriter.numeral n
  | .text s => JsonWriter.text s
  | .array items => "[" ++ String.intercalate "," (renderItems items) ++ "]"
  | .object rows => "\x7b" ++ String.intercalate "," (renderRows rows) ++ "\x7d"
  | .unreadable => "null"

/-- The texts of the items of an array. -/
def renderItems : List JsonValue → List String
  | [] => []
  | v :: rest => v.render :: renderItems rest

/-- The texts of the rows of an object. -/
def renderRows : List (String × JsonValue) → List String
  | [] => []
  | (key, v) :: rest => (JsonWriter.text key ++ ":" ++ v.render) :: renderRows rest

end

end ApiShape
