/-
Absorbing the tree of a witness into an accumulated tree, which then describes both. One step
dispatches on the two nodes and hands smaller pairs to the absorber it is given; the recursion is
the step applied to itself under a depth limit that is computed from the two trees.
-/
import ApiShape.Absorb.Alternatives
import ApiShape.Absorb.Record
import ApiShape.Schema.Size

namespace ApiShape

/-! ## One step -/

/-- Absorbs a plain source, neither alternatives nor optional, into a node of any form. -/
def absorbPlain (limits : Limits) (absorb : Absorber) (dst src : Schema) : Except Fault Schema :=
  match dst.form with
  | .record dstFields dstMapping =>
    match src.form with
    | .record srcFields srcMapping => do
      let form ← absorbRecord limits absorb dstFields dstMapping srcFields srcMapping
      return { dst with form := form }.mergeExamples src.examples
    | _ => .ok (dst.conflict src)
  | .list dstElems =>
    match src.form with
    | .list srcElems => do
      let elems ← absorbElems absorb dstElems srcElems
      return { dst with form := .list elems }.mergeExamples src.examples
    | _ => .ok (dst.conflict src)
  | .optional inner =>
    if inner.isOptional then .error (.invalidVariant "optional" "optional")
    else do
      let inner ← absorb inner src
      return { dst.orNullable inner.nullable with form := .optional { inner with nullable := false } }
  | .absent => .ok { dst.orNullable true with form := .optional src }
  | .oneOf options conflict => absorbVariant absorb dst options conflict src
  | .primitive p =>
    match src.form with
    | .primitive q =>
      match p.join q with
      | some joined => .ok ({ dst with form := .primitive joined }.mergeExamples src.examples)
      | none => .ok (dst.conflict src)
    | _ => .ok (dst.conflict src)

/--
Absorbs `src` into `dst`. Nullability is kept on the outer node; alternatives on the source side
change places with a destination that is none; the optional layers of the source go around the
destination. Metadata of the destination stays, that of the source is not looked at.
-/
def absorbStep (limits : Limits) (absorb : Absorber) (dst : Schema) :
    (src : Schema) → Except Fault Schema
  | ⟨.optional inner, nullable, _, examples⟩ => do
    let result ← absorbStep limits absorb (dst.orNullable nullable) inner
    return result.makeOptional.mergeExamples examples
  | ⟨.absent, _, _, examples⟩ => .ok ((dst.orNullable true).mergeExamples examples)
  | ⟨.oneOf options conflict, nullable, _, examples⟩ =>
    match dst.form with
    | .oneOf dstOptions dstConflict =>
      absorbAlternatives absorb ((dst.orNullable nullable).mergeExamples examples) dstOptions
        dstConflict options conflict
    | _ =>
      absorb
        { dst.orNullable nullable with
          form := .oneOf options conflict
          examples := Examples.merge [] examples }
        dst.bare
  | src => absorbPlain limits absorb (dst.orNullable src.nullable) src.bare
termination_by structural src => src

/-! ## Recursion -/

/-- Absorbs with at most `depth` nested steps. -/
def absorbWithin (limits : Limits) : (depth : Nat) → Absorber
  | 0 => fun _ _ => .error .tooDeep
  | depth + 1 => absorbStep limits (absorbWithin limits depth)

/--
A depth that is enough for two trees: steps nest at most once per level of records and lists, and
on one level at most a few times per wrapper and option.
-/
def depthBound (dst src : Schema) : Nat := 4 * ((dst.size + src.size + 2) * (dst.size + src.size + 2))

/-- Absorbs `src` into `dst`, or says why it cannot. -/
def absorb (limits : Limits) (dst src : Schema) : Except Fault Schema :=
  absorbWithin limits (depthBound dst src) dst src

end ApiShape
