/-
Records as maps: when a record has so many fields, or fields of such a kind, that its names must
be data, and the mapping that then describes it.
-/
import ApiShape.Fault
import ApiShape.Limits
import ApiShape.Schema.Basic

namespace ApiShape

/-- Absorbs the second tree into the first, or says why it cannot. -/
abbrev Absorber := Schema → Schema → Except Fault Schema

/-! ## Recognising maps -/

/-- Only the decimal digits of ASCII count. -/
def startsWithDigit (name : String) : Bool :=
  match name.toList with
  | [] => false
  | c :: _ => '0' ≤ c && c ≤ '9'

namespace MapThresholds

/-- Whether a record is to be described as a map; one that has a mapping already is not. -/
def exceeded (t : MapThresholds) (fields : Table Schema) (mapping : Option Mapping) : Bool :=
  mapping.isNone &&
    (t.maxFields < fields.length ||
      t.maxOptionalFields < fields.countP (fun row => row.2.isOptional) ||
      t.maxDigitFields < fields.countP (fun row => startsWithDigit row.1))

end MapThresholds

/-! ## The mapping of a record -/

/-- A field as a value of a map: without its optional layer, and nothing if it was only null. -/
def Schema.asMapValue (s : Schema) : Option Schema :=
  match s.form with
  | .absent => none
  | .optional inner => some (inner.orNullable s.nullable)
  | _ => some s

/-- Whether only null was seen. -/
def Schema.isAbsent (s : Schema) : Bool :=
  match s.form with
  | .absent => true
  | _ => false

/-- Absorbs the values of named fields into one, reporting the field that does not fit. -/
def absorbFields (absorb : Absorber) (acc : Schema) (fields : List (String × Schema)) :
    Except Fault Schema :=
  fields.foldlM (fun acc row => (absorb acc row.2).mapError (.inField row.1)) acc

/-- Whether some field was only ever null. -/
def anyAbsent (fields : Table Schema) : Bool := fields.any (fun row => row.2.isAbsent)

/--
The shape of the values of a record taken as a map: its fields in name order, absorbed into one.
It is nullable if some field was null, and there is none for a record without fields.
-/
def mapValueOf (absorb : Absorber) (fields : Table Schema) : Except Fault (Option Schema) :=
  match fields.filterMap (fun row => row.2.asMapValue.map (row.1, ·)) with
  | [] => .ok (if anyAbsent fields then some Schema.absent else none)
  | (_, first) :: rest => do
    let value ← absorbFields absorb first rest
    return some (value.orNullable (anyAbsent fields))

/-- The mapping of a record taken as a map: its keys are texts. -/
def mappingOf (absorb : Absorber) (fields : Table Schema) : Except Fault Mapping := do
  let value ← mapValueOf absorb fields
  return { key := some (Schema.ofType .string), value := value }

/-! ## Absorbing mappings -/

/-- Absorbs the key or the value of a mapping; the one side that has it stands as it is. -/
def absorbSlot (absorb : Absorber) (dst src : Option Schema) : Except Fault (Option Schema) :=
  match dst, src with
  | some d, some s => (absorb d s).map some
  | none, src => .ok src
  | dst, none => .ok dst

/-- The step to the key of a mapping, as paths name it. -/
def keyStep : String := "<map key>"

/-- The step to the value of a mapping, as paths name it. -/
def valueStep : String := "<map value>"

/-- Keys and values are absorbed independently. -/
def absorbMapping (absorb : Absorber) (dst src : Mapping) : Except Fault Mapping := do
  let key ← (absorbSlot absorb dst.key src.key).mapError (.inField keyStep)
  let value ← (absorbSlot absorb dst.value src.value).mapError (.inField valueStep)
  return { key := key, value := value }

end ApiShape
