/-
Absorbing records and lists. Fields seen on one side only become optional; a map makes the other
side a map; the elements of both lists are absorbed into one representative.
-/
import ApiShape.Absorb.Mapping

namespace ApiShape

/-! ## Records -/

/-- A field of the first side, absorbed with that of the other side or made optional. -/
def absorbField (absorb : Absorber) (src : Table Schema) (name : String) (d : Schema) :
    Except Fault Schema :=
  match Table.find? src name with
  | some s => (absorb d s).mapError (.inField name)
  | none => .ok d.makeOptional

/-- Absorbs the fields that both sides have, and makes those of the first side alone optional. -/
def absorbShared (absorb : Absorber) (src : Table Schema) :
    Table Schema → Except Fault (Table Schema)
  | [] => .ok []
  | (name, d) :: rest => do
    let merged ← absorbField absorb src name d
    let rest ← absorbShared absorb src rest
    return (name, merged) :: rest

/-- Adds the fields that only the second side has, as optional ones. -/
def addMissing (dst src : Table Schema) : Table Schema :=
  (src.filter (fun row => !Table.contains dst row.1)).foldl
    (fun t row => Table.insert t row.1 row.2.makeOptional) dst

/-- The fields of two records that are both no maps. -/
def absorbRecordFields (absorb : Absorber) (dst src : Table Schema) :
    Except Fault (Table Schema) := do
  let shared ← absorbShared absorb src dst
  return addMissing shared src

/--
The mapping that a record has or gets as a map, and the fields that it keeps: a record that is
converted keeps none.
-/
def asMap (absorb : Absorber) (fields : Table Schema) (mapping : Option Mapping) :
    Except Fault (Table Schema × Mapping) :=
  match mapping with
  | some m => .ok (fields, m)
  | none => (mappingOf absorb fields).map ([], ·)

/-- Absorbs two records. Records that grow past the thresholds become maps at once. -/
def absorbRecord (limits : Limits) (absorb : Absorber) (dstFields : Table Schema)
    (dstMapping : Option Mapping) (srcFields : Table Schema) (srcMapping : Option Mapping) :
    Except Fault Form :=
  if dstMapping.isSome || srcMapping.isSome then do
    let (kept, dst) ← asMap absorb dstFields dstMapping
    let (_, src) ← asMap absorb srcFields srcMapping
    let mapping ← absorbMapping absorb dst src
    return .record kept (some mapping)
  else do
    let fields ← absorbRecordFields absorb dstFields srcFields
    if limits.mapInference.exceeded fields none then
      return .record [] (some (← mappingOf absorb fields))
    else
      return .record fields none

/-! ## Lists -/

/-- Absorbs one more element, with its index, into the representative so far. -/
def absorbElem (absorb : Absorber) (acc : Option Schema) (elem : Schema × Nat) :
    Except Fault (Option Schema) :=
  match acc with
  | none => .ok (some elem.1)
  | some rep => ((absorb rep elem.1).map some).mapError (.atIndex elem.2)

/-- The elements of both lists as one representative, or none when both are empty. -/
def absorbElems (absorb : Absorber) (dst src : List Schema) : Except Fault (List Schema) := do
  let rep ← dst.zipIdx.foldlM (absorbElem absorb) none
  let rep ← src.zipIdx.foldlM (absorbElem absorb) rep
  return rep.toList

end ApiShape
