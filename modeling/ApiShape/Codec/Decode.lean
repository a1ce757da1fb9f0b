/-
Reading trees, catalogues, endpoints and limits from JSON values. A record is an object, or an
array of its fields in order; keys that a record does not know are skipped, a key that it knows
may stand once, and a field with a default may be missing. Options and top-level fields are stored
under the addresses they have, whatever their keys.
-/
import ApiShape.Endpoint
import ApiShape.Json.Basic

namespace ApiShape

namespace JsonValue

/-! ## Records and variants -/

/-- The value of a key among rows: none when it is missing, nothing at all when it is repeated. -/
def only? (rows : List (String × JsonValue)) (key : String) : Option (Option JsonValue) :=
  match rows.filter (fun row => row.1 = key) with
  | [] => some none
  | [(_, v)] => some (some v)
  | _ => none

/-- The values of the named fields of a record, where a field may be missing. -/
def fields? (names : List String) : JsonValue → Option (List (Option JsonValue))
  | .object rows => names.mapM (only? rows)
  | .array items =>
    if items.length ≤ names.length then
      some (items.map some ++ List.replicate (names.length - items.length) none)
    else none
  | _ => none

/-- A field that has to be there. -/
def required {α : Type} (decode : JsonValue → Option α) : Option JsonValue → Option α
  | some v => decode v
  | none => none

/-- A field with a default. -/
def defaulted {α : Type} (default : α) (decode : JsonValue → Option α) :
    Option JsonValue → Option α
  | some v => decode v
  | none => some default

/-- A value that may be null. -/
def orNull {α : Type} (decode : JsonValue → Option α) : JsonValue → Option (Option α)
  | .null => some none
  | v => (decode v).map some

/-- The name of a variant, and what it carries: a text carries nothing. -/
def variant? : JsonValue → Option (String × Option JsonValue)
  | .text name => some (name, none)
  | .object [(name, v)] => some (name, some v)
  | _ => none

/-- Whether a variant that carries nothing is written without a value, or with null. -/
def isVacant : Option JsonValue → Bool
  | none | some .null => true
  | _ => false

/-! ## Plain values -/

/-- A truth value; nothing else counts as one. -/
def bool? : JsonValue → Option Bool
  | .bool b => some b
  | _ => none

/-- A text that is a sequence of characters. -/
def text? : JsonValue → Option String
  | .text s => some s
  | _ => none

/-- An integer between two bounds, both included. -/
def integer? (low high : Int) : JsonValue → Option Int
  | .number (.integer i) => if low ≤ i && i ≤ high then some i else none
  | _ => none

/-- An integer of so many bits, one of them its sign. -/
def signed? (bits : Nat) (v : JsonValue) : Option Int :=
  integer? (-(twoPow (bits - 1))) (twoPow (bits - 1) - 1) v

/-- An integer of so many bits, without a sign. -/
def natural? (bits : Nat) (v : JsonValue) : Option Nat :=
  (integer? 0 (twoPow bits - 1) v).map Int.toNat

/--
The number of the format nearest to the one written, which must round into the finite range. Each format
reads the number as it is written: single precision does not go through double precision.
-/
def binary? (fmt : BinaryFormat) : JsonValue → Option (Binary fmt)
  | .number (.integer i) =>
    Decimal.toBinary? fmt ⟨i < 0, i.natAbs, 0, 0⟩
  | .number (.decimal d) => d.toBinary? fmt
  | _ => none

/-- An array whose items can all be read. -/
def items? {α : Type} (decode : JsonValue → Option α) : JsonValue → Option (List α)
  | .array items => items.mapM decode
  | _ => none

/-- A table; of several rows with one key the last is kept. -/
def table? {α : Type} (decode : JsonValue → Option α) : JsonValue → Option (Table α)
  | .object rows => (rows.mapM (fun row => (decode row.2).map (row.1, ·))).map Table.ofRows
  | _ => none

end JsonValue

open JsonValue

/-! ## Scalars and primitives -/

/-- A base type by its name. -/
def BaseType.decode? (v : JsonValue) : Option BaseType :=
  match v.variant? with
  | some (name, payload) => if isVacant payload then BaseType.ofName? name else none
  | none => none

/-- The payload of a value, read at the type that its name gives. -/
def Scalar.decodePayload? (v : JsonValue) : BaseType → Option Scalar
  | .bool => v.bool?.map .bool
  | .bytes => (v.items? (fun b => (b.natural? 8).map Nat.toUInt8)).map .bytes
  | .string => v.text?.map .string
  | .int32 => (v.signed? 32).map (fun i => .int32 (Int32.ofInt i))
  | .int64 => (v.signed? 64).map (fun i => .int64 (Int64.ofInt i))
  | .uint32 => (v.natural? 32).map (fun n => .uint32 n.toUInt32)
  | .uint64 => (v.natural? 64).map (fun n => .uint64 n.toUInt64)
  | .float => (v.binary? .single).map .float
  | .double => (v.binary? .double).map .double

/-- A value under the name of its base type. -/
def Scalar.decode? (v : JsonValue) : Option Scalar :=
  match v.variant? with
  | some (name, some payload) => (BaseType.ofName? name).bind (Scalar.decodePayload? payload)
  | _ => none

/-- Formats may stand in any order and repeat; they are a set. -/
def Primitive.decode? (v : JsonValue) : Option Primitive := do
  match ← v.fields? ["value", "formatKind", "formats", "typeHint"] with
  | [value, formatKind, formats, typeHint] =>
    let value ← required Scalar.decode? value
    let formatKind ← defaulted "" text? formatKind
    let formats ← defaulted [] (items? text?) formats
    let typeHint ← defaulted "" text? typeHint
    return ⟨value, formatKind, Labels.ofList formats, typeHint⟩
  | _ => none

/-! ## Metadata -/

/-- The one field of a place in a message. -/
def Location.decodeKey? (name : String) (v : JsonValue) : Option String := do
  match ← v.fields? [name] with
  | [key] => required text? key
  | _ => none

/-- A place by its kind; only the empty one carries nothing. -/
def Location.decode? (v : JsonValue) : Option Location := do
  match ← v.variant? with
  | ("path", some v) => (decodeKey? "key" v).map .path
  | ("query", some v) => (decodeKey? "key" v).map .query
  | ("header", some v) => (decodeKey? "key" v).map .header
  | ("cookie", some v) => (decodeKey? "key" v).map .cookie
  | ("body", some v) => (decodeKey? "content_type" v).map .body
  | ("auth", some v) => (decodeKey? "scheme" v).map .auth
  | ("empty", payload) => if isVacant payload then some .empty else none
  | _ => none

/-- A place with the status code of the response, which is zero by default. -/
def Position.decode? (v : JsonValue) : Option Position := do
  match ← v.fields? ["location", "responseCode"] with
  | [location, responseCode] =>
    let location ← required Location.decode? location
    let code ← defaulted 0 (signed? 32) responseCode
    return ⟨location, Int32.ofInt code⟩
  | _ => none

/-- Metadata, whose position may be left out or null. -/
def Metadata.decode? (v : JsonValue) : Option Metadata := do
  match ← v.fields? ["http"] with
  | [http] => return ⟨← defaulted none (orNull Position.decode?) http⟩
  | _ => none

/-! ## Trees -/

/-- One example, which is an object of its own. -/
def Examples.decodeValue? (v : JsonValue) : Option String := do
  match ← v.fields? ["value"] with
  | [value] => required text? value
  | _ => none

/-- Examples by key. -/
def Examples.decode? (v : JsonValue) : Option Examples := v.table? Examples.decodeValue?

/-- The catalogue of the values of an object, in key order. -/
def Catalogue.decodeWith? (decode : JsonValue → Option Schema) (v : JsonValue) :
    Option Catalogue :=
  (v.table? decode).map (fun t => Catalogue.ofList (Table.values t))

/-- The key and the value of a map, each of which may be left out or null. -/
def Mapping.decodeWith? (decode : JsonValue → Option Schema) (v : JsonValue) : Option Mapping := do
  match ← v.fields? ["key", "value"] with
  | [key, value] =>
    let key ← defaulted none (orNull decode) key
    let value ← defaulted none (orNull decode) value
    return ⟨key, value⟩
  | _ => none

/-- A shape whose children are read with `decode`. -/
def Form.decodeWith? (decode : JsonValue → Option Schema) (v : JsonValue) : Option Form := do
  match ← v.variant? with
  | ("primitive", some v) => (Primitive.decode? v).map .primitive
  | ("struct", some v) =>
    match ← v.fields? ["fields", "mapType"] with
    | [fields, mapping] =>
      let fields ← defaulted [] (table? decode) fields
      let mapping ← defaulted none (orNull (Mapping.decodeWith? decode)) mapping
      return .record fields mapping
    | _ => none
  | ("list", some v) =>
    match ← v.fields? ["elems"] with
    | [elems] => return .list (← defaulted [] (items? decode) elems)
    | _ => none
  | ("optional", some v) =>
    match ← v.variant? with
    | ("data", some v) => (decode v).map .optional
    | ("none", payload) => if isVacant payload then some .absent else none
    | _ => none
  | ("oneOf", some v) =>
    match ← v.fields? ["options", "potentialConflict"] with
    | [options, conflict] =>
      let options ← required (Catalogue.decodeWith? decode) options
      let conflict ← defaulted false bool? conflict
      return .oneOf options conflict
    | _ => none
  | _ => none

/-- Reads a tree whose nodes nest at most `depth` deep. -/
def Schema.decodeWithin? : (depth : Nat) → JsonValue → Option Schema
  | 0, _ => none
  | depth + 1, v => do
    match ← v.fields? ["value", "nullable", "meta", "exampleValues"] with
    | [form, isNullable, metadata, examples] =>
      let form ← required (Form.decodeWith? (Schema.decodeWithin? depth)) form
      let isNullable ← defaulted false bool? isNullable
      let metadata ← defaulted none (orNull Metadata.decode?) metadata
      let examples ← defaulted [] Examples.decode? examples
      return ⟨form, isNullable, metadata, examples⟩
    | _ => none

/-- Every node of a tree takes a level of its JSON value. -/
def Schema.decode? (v : JsonValue) : Option Schema := Schema.decodeWithin? v.depth v

/-- A catalogue; the keys of the object are not looked at. -/
def Catalogue.decode? (v : JsonValue) : Option Catalogue := Catalogue.decodeWith? Schema.decode? v

/-! ## Endpoints and limits -/

/-- All three names have to be there. -/
def EndpointId.decode? (v : JsonValue) : Option EndpointId := do
  match ← v.fields? ["host", "operation", "pathTemplate"] with
  | [host, operation, pathTemplate] =>
    return ⟨← required text? host, ← required text? operation, ← required text? pathTemplate⟩
  | _ => none

/-- An endpoint, whose catalogues may be left out. -/
def Endpoint.decode? (v : JsonValue) : Option Endpoint := do
  match ← v.fields? ["meta", "args", "responses"] with
  | [id, args, responses] =>
    let id ← required EndpointId.decode? id
    let args ← defaulted [] Catalogue.decode? args
    let responses ← defaulted [] Catalogue.decode? responses
    return ⟨id, args, responses⟩
  | _ => none

/-- Thresholds that are left out have their defaults. -/
def MapThresholds.decode? (v : JsonValue) : Option MapThresholds := do
  match ← v.fields? ["maxFields", "maxOptionalFields", "maxDigitFields"] with
  | [maxFields, maxOptionalFields, maxDigitFields] =>
    let t : MapThresholds := {}
    let maxFields ← defaulted t.maxFields (natural? 64) maxFields
    let maxOptionalFields ← defaulted t.maxOptionalFields (natural? 64) maxOptionalFields
    let maxDigitFields ← defaulted t.maxDigitFields (natural? 64) maxDigitFields
    return ⟨maxFields, maxOptionalFields, maxDigitFields⟩
  | _ => none

/-- Limits that are left out have their defaults. -/
def Limits.decode? (v : JsonValue) : Option Limits := do
  match ← v.fields? ["maxNumCookies", "mapInference"] with
  | [maxCookies, mapInference] =>
    let l : Limits := {}
    let maxCookies ← defaulted l.maxCookies (natural? 64) maxCookies
    let mapInference ← defaulted l.mapInference MapThresholds.decode? mapInference
    return ⟨maxCookies, mapInference⟩
  | _ => none

/-- The count of discarded cookies. -/
def Tally.decode? (v : JsonValue) : Option Tally := do
  match ← v.fields? ["cookiesDiscarded"] with
  | [discarded] => return ⟨← required (natural? 64) discarded⟩
  | _ => none

end ApiShape
