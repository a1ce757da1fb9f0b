/-
Map inference as a pass of its own: every record above the thresholds is converted, innermost
first, and the conversions are counted.
-/
import ApiShape.Absorb.Basic
import ApiShape.Traversal

namespace ApiShape

/--
Converts a record, or a map that still has fields, to the map of its fields. The fields are given
up first: when they do not go together, the node is left without them.
-/
def Schema.convertToMap {σ : Type} (limits : Limits) (st : σ) (s : Schema) : Visit σ Schema :=
  match s.form with
  | .record fields mapping =>
    match mappingOf (absorb limits) fields with
    | .ok m => ⟨st, { s with form := .record [] (some m) }, none⟩
    | .error f => ⟨st, { s with form := .record [] mapping }, some f⟩
  | _ => ⟨st, s, none⟩

/-- Whether a node is a record above the thresholds. -/
def Schema.shouldBeMap (limits : Limits) (s : Schema) : Bool :=
  match s.form with
  | .record fields mapping => limits.mapInference.exceeded fields mapping
  | _ => false

/-- Converts the node if it should be a map, and counts it. -/
def inferMap (limits : Limits) : Visitor Nat := fun count s =>
  if s.shouldBeMap limits then
    let v := s.convertToMap limits count
    match v.fault with
    | some _ => v
    | none => { v with state := count + 1 }
  else ⟨count, s, none⟩

/-- Converts every record of the tree that should be a map; the state is their number. -/
def Schema.inferMaps (limits : Limits) (s : Schema) : Visit Nat Schema :=
  s.walk (inferMap limits) 0

end ApiShape
