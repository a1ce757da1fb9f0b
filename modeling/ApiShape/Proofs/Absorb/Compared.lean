/-
The nodes whose addresses are compared while one tree is absorbed into another. They are the only
place where absorbing relies on addresses telling shapes apart.
-/
import ApiShape.Proofs.Absorb.Step

namespace ApiShape

/-- The pairs of nodes whose addresses one step compares: two that are kept as alternatives, and
an option of a node with what the source has become among the options. -/
inductive Compares (absorb : Absorber) : Schema → Schema → Schema → Schema → Prop
  | optional {dst src inner a b : Schema} (hs : src.form = .optional inner) :
      Compares absorb (dst.orNullable src.nullable) inner a b → Compares absorb dst src a b
  | conflict {dst src : Schema} : dst.isPlain → src.isPlain → dst.agrees src = false →
      Compares absorb dst src dst.bare src.bare
  | option {dst src merged stored : Schema} {options rest : Catalogue} {conflict : Bool}
      (hs : src.isPlain) (hd : dst.form = .oneOf options conflict) :
      Joins (fun d s r => absorb d s = .ok r) options src.bare merged rest →
      stored ∈ Table.values rest → Compares absorb dst src stored merged

/-- What surrounds the shapes of a plain source and of its destination does not matter. -/
theorem Compares.of_bare {absorb : Absorber} {dst src s t : Schema} {b : Bool} (hs : src.isPlain = true)
    (h : Compares absorb (dst.orNullable b) src.bare s t) : Compares absorb dst src s t := by
  cases h with
  | optional hform _ =>
    unfold Schema.isPlain Form.isPlain at hs
    rw [← src.form_bare, hform] at hs
    cases hs
  | conflict hd _ hagrees => exact .conflict hd hs hagrees
  | option _ hd hjoins hstored => exact .option hs hd hjoins hstored

/-- The pairs of nodes whose addresses are compared in a run of so many nested steps. -/
inductive Compared (limits : Limits) : (depth : Nat) → Schema → Schema → Schema → Schema → Prop
  | here {depth : Nat} {dst src a b : Schema} :
      Compares (absorbWithin limits depth) dst src a b → Compared limits (depth + 1) dst src a b
  | call {depth : Nat} {dst src d s a b : Schema} : Calls limits (absorbWithin limits depth) dst src d s →
      Compared limits depth d s a b → Compared limits (depth + 1) dst src a b

/-- No two nodes whose addresses are compared in the run have one address for two canonical objects. -/
def CollisionFree (limits : Limits) (depth : Nat) (dst src : Schema) : Prop :=
  ∀ a b, Compared limits depth dst src a b → a.address = b.address → a.canon = b.canon

namespace CollisionFree

variable {limits : Limits} {depth : Nat} {dst src d s a b : Schema}

theorem call (h : CollisionFree limits (depth + 1) dst src)
    (hc : Calls limits (absorbWithin limits depth) dst src d s) : CollisionFree limits depth d s :=
  fun a b hab => h a b (.call hc hab)

theorem canon_eq (h : CollisionFree limits (depth + 1) dst src)
    (hc : Compares (absorbWithin limits depth) dst src a b) (heq : a.address = b.address) :
    a.canon = b.canon := h a b (.here hc) heq

end CollisionFree

end ApiShape
