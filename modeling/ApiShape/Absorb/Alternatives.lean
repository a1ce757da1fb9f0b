/-
Alternatives: recording two shapes side by side, and absorbing one more shape among several. A
record or list is absorbed into the options of its kind, a primitive takes in the options that it
joins with, and a single remaining option replaces the alternatives.
-/
import ApiShape.Absorb.Mapping
import ApiShape.Catalogue

namespace ApiShape

/-! ## Conflicts -/

/-- Records the shapes of both nodes as alternatives of the first one. -/
def Schema.conflict (dst src : Schema) : Schema :=
  { form := .oneOf (Catalogue.ofList [dst.bare, src.bare]) true
    nullable := dst.nullable || src.nullable
    metadata := dst.metadata
    examples := [] }

theorem Schema.form_conflict (dst src : Schema) :
    (dst.conflict src).form = .oneOf (Catalogue.insert (Catalogue.insert [] dst.bare) src.bare) true := by
  unfold Schema.conflict Catalogue.ofList
  rw [List.foldl_cons, List.foldl_cons, List.foldl_nil]

/-! ## Options -/

/-- Only primitives, records and lists can be options. -/
def Schema.checkOption (s : Schema) : Except Fault Unit :=
  match s.form with
  | .primitive _ | .record _ _ | .list _ => .ok ()
  | .absent | .optional _ | .oneOf _ _ => .error (.invalidVariant s.kind.name "oneof")

/-- Records and maps are options of one kind. -/
def Schema.isRecord (s : Schema) : Bool :=
  match s.form with
  | .record _ _ => true
  | _ => false

/-- Whether the node is a list. -/
def Schema.isList (s : Schema) : Bool :=
  match s.form with
  | .list _ => true
  | _ => false

/-- Whether both nodes are primitives that join. -/
def Schema.joinable (s t : Schema) : Bool :=
  match s.form, t.form with
  | .primitive p, .primitive q => p.joinable q
  | _, _ => false

/-- Absorbs the options of one kind, and then the variant, into the first of them. -/
def absorbSameKind (absorb : Absorber) (options : List Schema) (variant : Schema) :
    Except Fault Schema :=
  match options with
  | [] => .ok variant
  | first :: rest => (rest ++ [variant]).foldlM absorb first

/--
Lets a primitive take in, round by round, the options it joins with, and gives what it becomes
and the options that are left. Every round but the last takes an option, so that one round per
option is enough.
-/
def gather (absorb : Absorber) : (rounds : Nat) → Schema → Catalogue →
    Except Fault (Schema × Catalogue)
  | rounds, acc, options =>
    match Catalogue.take (fun option => option.joinable acc) options with
    | ([], _) => .ok (acc, options)
    | (taken, rest) =>
      match rounds with
      | 0 => .error .tooDeep
      | rounds + 1 => do
        let acc ← taken.foldlM absorb acc
        gather absorb rounds acc rest

/-- What a variant becomes with the options it goes together with, and the options that are left. -/
def joinOption (absorb : Absorber) (options : Catalogue) (variant : Schema) :
    Except Fault (Schema × Catalogue) :=
  match variant.form with
  | .record _ _ =>
    let (same, rest) := Catalogue.take Schema.isRecord options
    (absorbSameKind absorb same variant).map (·, rest)
  | .list _ =>
    let (same, rest) := Catalogue.take Schema.isList options
    (absorbSameKind absorb same variant).map (·, rest)
  | _ => gather absorb options.length variant options

/-- The options after one more variant, which takes in those that go together with it. -/
def absorbOption (absorb : Absorber) (options : Catalogue) (variant : Schema) :
    Except Fault Catalogue := do
  let (merged, rest) ← joinOption absorb options variant
  return Catalogue.insert rest merged

/-- The node `dst` with these options; a single option takes the place of the alternatives. -/
def Schema.withOptions (dst : Schema) (options : Catalogue) (conflict : Bool) : Schema :=
  match options with
  | [(_, sole)] =>
    { dst with
      form := sole.form
      nullable := dst.nullable || sole.nullable
      examples := Examples.merge dst.examples sole.examples }
  | _ => { dst with form := .oneOf options conflict }

/-- Absorbs one more variant into a node that has the given options. -/
def absorbVariant (absorb : Absorber) (dst : Schema) (options : Catalogue) (conflict : Bool)
    (variant : Schema) : Except Fault Schema := do
  variant.checkOption
  let options ← absorbOption absorb options variant.bare
  return (dst.orNullable variant.nullable).withOptions options conflict

/--
Absorbs every option of other alternatives into a node that has options itself, one after the
other: the node may stop being alternatives on the way. The options are all checked before any is
absorbed.
-/
def absorbAlternatives (absorb : Absorber) (dst : Schema) (options : Catalogue) (conflict : Bool)
    (srcOptions : Catalogue) (srcConflict : Bool) : Except Fault Schema := do
  (Table.values srcOptions).forM Schema.checkOption
  (Table.values srcOptions).foldlM absorb
    { dst with form := .oneOf options (conflict || srcConflict) }

end ApiShape
