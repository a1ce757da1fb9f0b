/-
The limits under which trees are absorbed: how many cookie names an endpoint keeps, and from
which counts on a record is taken for a map.
-/

namespace ApiShape

/-- A record above any of these counts is a map. -/
structure MapThresholds where
  /-- Fields of any kind. -/
  maxFields : Nat := 100
  /-- Fields that may be absent. -/
  maxOptionalFields : Nat := 50
  /-- Fields whose names start with a decimal digit. -/
  maxDigitFields : Nat := 10
deriving DecidableEq

/-- What bounds the growth of trees and catalogues. -/
structure Limits where
  /-- Distinct cookie names kept among the fields of one message. -/
  maxCookies : Nat := 1000
  mapInference : MapThresholds := {}
deriving DecidableEq

namespace Limits

/-- One of the numbers in the limits. -/
inductive Setting where
  | maxCookies
  | maxFields
  | maxOptionalFields
  | maxDigitFields

/-- The limits with another number for one setting. -/
def set (l : Limits) (setting : Setting) (n : Nat) : Limits :=
  match setting with
  | .maxCookies => { l with maxCookies := n }
  | .maxFields => { l with mapInference := { l.mapInference with maxFields := n } }
  | .maxOptionalFields => { l with mapInference := { l.mapInference with maxOptionalFields := n } }
  | .maxDigitFields => { l with mapInference := { l.mapInference with maxDigitFields := n } }

/-- The defaults changed by settings in order. -/
def ofSettings (settings : List (Setting × Nat)) : Limits :=
  settings.foldl (fun l s => l.set s.1 s.2) {}

end Limits

end ApiShape
