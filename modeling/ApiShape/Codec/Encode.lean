/-
Trees, catalogues, endpoints and limits as JSON values. Keys stand in the order of declaration,
and what holds a default is left out where reading puts the default back.
-/
import ApiShape.Endpoint
import ApiShape.Json.Basic

namespace ApiShape

namespace JsonValue

/-- A row that is left out on a condition. -/
def rowUnless (omitted : Bool) (key : String) (v : JsonValue) : List (String × JsonValue) :=
  if omitted then [] else [(key, v)]

/-- A row that is left out when there is no value. -/
def rowIfAny (key : String) : Option JsonValue → List (String × JsonValue)
  | some v => [(key, v)]
  | none => []

/-- An integer as a JSON number. -/
def integer (i : Int) : JsonValue := .number (.integer i)

end JsonValue

open JsonValue (rowUnless rowIfAny integer)

/-! ## Scalars and primitives -/

/-- A finite number as its shortest decimal; the others have no JSON form. -/
def Binary.encode {fmt : BinaryFormat} (layout : DecimalLayout) (x : Binary fmt) : JsonValue :=
  if x.isFinite then .number (.decimal (layout.ofBinary x)) else .null

/-- The payload of a value without its type. A byte string is an array of numbers. -/
def Scalar.encodePayload : Scalar → JsonValue
  | .bool v => .bool v
  | .bytes v => .array (v.map (fun b => integer b.toNat))
  | .string v => .text v
  | .int32 v => integer v.toInt
  | .int64 v => integer v.toInt
  | .uint32 v => integer v.toNat
  | .uint64 v => integer v.toNat
  | .float v => v.encode .single
  | .double v => v.encode .double

/-- A base type as its name. -/
def BaseType.encode (t : BaseType) : JsonValue := .text t.name

/-- A value under the name of its base type. -/
def Scalar.encode (s : Scalar) : JsonValue := .object [(s.baseType.name, s.encodePayload)]

/-- The value always stands, and formats and hint where there are some. -/
def Primitive.encode (p : Primitive) : JsonValue :=
  .object
    (("value", p.value.encode) ::
      (rowUnless p.formatKind.isEmpty "formatKind" (.text p.formatKind) ++
        rowUnless p.formats.isEmpty "formats" (.array (p.formats.map .text)) ++
        rowUnless p.typeHint.isEmpty "typeHint" (.text p.typeHint)))

/-! ## Metadata -/

/-- A place under the name of its kind. -/
def Location.encode : Location → JsonValue
  | .path key => .object [("path", .object [("key", .text key)])]
  | .query key => .object [("query", .object [("key", .text key)])]
  | .header key => .object [("header", .object [("key", .text key)])]
  | .cookie key => .object [("cookie", .object [("key", .text key)])]
  | .body contentType => .object [("body", .object [("content_type", .text contentType)])]
  | .auth scheme => .object [("auth", .object [("scheme", .text scheme)])]
  | .empty => .text "empty"

/-- The status code stands even in a request. -/
def Position.encode (p : Position) : JsonValue :=
  .object [("location", p.location.encode), ("responseCode", integer p.responseCode.toInt)]

/-- Metadata without a position is the empty object. -/
def Metadata.encode (m : Metadata) : JsonValue :=
  .object (rowIfAny "http" (m.http.map Position.encode))

/-! ## Trees -/

/-- Examples by key, each an object of its own. -/
def Examples.encode (e : Examples) : JsonValue :=
  .object (e.map (fun row => (row.1, .object [("value", .text row.2)])))

mutual

/-- A tree as a JSON value. -/
def Schema.encode : Schema → JsonValue
  | ⟨form, nullable, metadata, examples⟩ =>
    .object
      (("value", form.encode) ::
        (rowUnless (!nullable) "nullable" (.bool true) ++
          rowIfAny "meta" (metadata.map Metadata.encode) ++
          rowUnless examples.isEmpty "exampleValues" (Examples.encode examples)))

/-- A shape under the name of its kind. -/
def Form.encode : Form → JsonValue
  | .primitive p => .object [("primitive", p.encode)]
  | .record fields mapping =>
    .object [("struct", .object
      (rowUnless fields.isEmpty "fields" (.object (encodeRows fields)) ++
        rowIfAny "mapType" (encodeMapping mapping)))]
  | .list elems =>
    .object [("list", .object (rowUnless elems.isEmpty "elems" (.array (encodeElems elems))))]
  | .absent => .object [("optional", .text "none")]
  | .optional inner => .object [("optional", .object [("data", inner.encode)])]
  | .oneOf options conflict =>
    .object [("oneOf", .object
      [("options", .object (encodeRows options)), ("potentialConflict", .bool conflict)])]

/-- Fields by name, or options by address. -/
def encodeRows : List (String × Schema) → List (String × JsonValue)
  | [] => []
  | (key, s) :: rest => (key, s.encode) :: encodeRows rest

/-- The elements of a list, in order. -/
def encodeElems : List Schema → List JsonValue
  | [] => []
  | s :: rest => s.encode :: encodeElems rest

/-- The mapping of a map, if the record is one. -/
def encodeMapping : Option Mapping → Option JsonValue
  | none => none
  | some ⟨key, value⟩ =>
    some (.object (rowIfAny "key" (encodeSlot key) ++ rowIfAny "value" (encodeSlot value)))

/-- The key or the value of a mapping, if there is one. -/
def encodeSlot : Option Schema → Option JsonValue
  | none => none
  | some s => some s.encode

end

/-- A catalogue under its keys, as they are stored. -/
def Catalogue.encode (c : Catalogue) : JsonValue := .object (encodeRows c)

/-! ## Endpoints and limits -/

/-- The three names of an endpoint. -/
def EndpointId.encode (e : EndpointId) : JsonValue :=
  .object
    [("host", .text e.host), ("operation", .text e.operation),
      ("pathTemplate", .text e.pathTemplate)]

/-- The catalogues stand even when they are empty. -/
def Endpoint.encode (e : Endpoint) : JsonValue :=
  .object
    [("meta", e.id.encode), ("args", Catalogue.encode e.args),
      ("responses", Catalogue.encode e.responses)]

/-- All thresholds, defaults included. -/
def MapThresholds.encode (t : MapThresholds) : JsonValue :=
  .object
    [("maxFields", integer t.maxFields), ("maxOptionalFields", integer t.maxOptionalFields),
      ("maxDigitFields", integer t.maxDigitFields)]

/-- All limits, defaults included. -/
def Limits.encode (l : Limits) : JsonValue :=
  .object [("maxNumCookies", integer l.maxCookies), ("mapInference", l.mapInference.encode)]

/-- The count of discarded cookies. -/
def Tally.encode (t : Tally) : JsonValue :=
  .object [("cookiesDiscarded", integer t.cookiesDiscarded)]

end ApiShape
