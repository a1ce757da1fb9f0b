/-
Nullability has no part in what absorbing does to the shapes: a destination or a source that is nullable
as well gives the same result, nullable as well.
-/
import ApiShape.Absorb.Basic
import ApiShape.Proofs.Erase.Absorb

namespace ApiShape

/-! ## Nullable nodes -/

namespace Schema

theorem orNullable_orNullable (s : Schema) (b c : Bool) : (s.orNullable b).orNullable c = s.orNullable (b || c) := by
  unfold orNullable
  rw [Bool.or_assoc]

theorem orNullable_comm (s : Schema) (b c : Bool) : (s.orNullable b).orNullable c = (s.orNullable c).orNullable b := by
  rw [orNullable_orNullable, orNullable_orNullable, Bool.or_comm]

@[simp] theorem orNullable_false (s : Schema) : s.orNullable false = s :=
  Schema.ext_fields rfl (Bool.or_false _) rfl rfl

theorem makeOptional_orNullable (s : Schema) (b : Bool) : (s.orNullable b).makeOptional = s.makeOptional.orNullable b := by
  unfold makeOptional
  have hopt : (s.orNullable b).isOptional = s.isOptional := rfl
  rw [hopt]
  split <;> rfl

theorem metadata_makeOptional (s : Schema) : s.makeOptional.metadata = s.metadata := by
  unfold makeOptional
  split <;> rfl

theorem conflict_orNullable (d s : Schema) (b : Bool) : (d.orNullable b).conflict s = (d.conflict s).orNullable b :=
  Schema.ext_fields rfl (Bool.or_right_comm _ _ _) rfl rfl

theorem withOptions_orNullable (d : Schema) (options : Catalogue) (conflict b : Bool) :
    (d.orNullable b).withOptions options conflict = (d.withOptions options conflict).orNullable b := by
  unfold withOptions
  split
  · exact Schema.ext_fields rfl (Bool.or_right_comm _ _ _) rfl rfl
  · rfl

theorem orNullable_of_eq {s : Schema} {b : Bool} (h : b = true → s.nullable = true) : s.orNullable b = s := by
  obtain ⟨form, nullable, metadata, examples⟩ := s
  cases b with
  | false => simp [orNullable]
  | true => simp [orNullable, show nullable = true from h rfl]

/-- A node without nullability and metadata, as it stands below an optional layer or as an option. -/
structure IsBare (s : Schema) : Prop where
  nullable : s.nullable = false
  metadata : s.metadata = none

theorem IsBare.bare_eq {s : Schema} (h : s.IsBare) : s.bare = s := by
  obtain ⟨form, nullable, metadata, examples⟩ := s
  obtain ⟨hnull, hmetadata⟩ := h
  cases hnull
  cases hmetadata
  rfl

end Schema

/-! ## Destinations -/

/-- The absorber hands on the nullability of the destination. -/
def Absorber.Nullable (absorb : Absorber) : Prop :=
  ∀ d s b, absorb (d.orNullable b) s = (absorb d s).map (·.orNullable b)

section

variable {limits : Limits} {absorb : Absorber}

theorem absorbVariant_orNullable (d s : Schema) (options : Catalogue) (conflict b : Bool) :
    absorbVariant absorb (d.orNullable b) options conflict s =
      (absorbVariant absorb d options conflict s).map (·.orNullable b) := by
  unfold absorbVariant
  rw [Schema.orNullable_comm]
  cases s.checkOption with
  | error f => rfl
  | ok u =>
    cases absorbOption absorb options s.bare with
    | error f => rfl
    | ok options => exact congrArg Except.ok (Schema.withOptions_orNullable _ options conflict b)

/-- No case looks at the nullability of the destination; all of them keep it or add to it. -/
theorem absorbPlain_orNullable (d s : Schema) (b : Bool) :
    absorbPlain limits absorb (d.orNullable b) s = (absorbPlain limits absorb d s).map (·.orNullable b) := by
  have hconflict : (.ok ((d.orNullable b).conflict s) : Except Fault Schema) = .ok ((d.conflict s).orNullable b) := by
    rw [Schema.conflict_orNullable]
  unfold absorbPlain
  rw [Schema.form_orNullable]
  cases d.form with
  | record df dm =>
    cases s.form with
    | record sf sm =>
      dsimp only
      cases absorbRecord limits absorb df dm sf sm <;> rfl
    | primitive | list | absent | optional | oneOf => exact hconflict
  | list de =>
    cases s.form with
    | list se =>
      dsimp only
      cases absorbElems absorb de se <;> rfl
    | primitive | record | absent | optional | oneOf => exact hconflict
  | optional inner =>
    dsimp only
    split
    · rfl
    · cases absorb inner s with
      | error f => rfl
      | ok r => exact congrArg Except.ok (Schema.ext_fields rfl (Bool.or_right_comm _ _ _) rfl rfl)
  | absent => exact congrArg Except.ok (Schema.ext_fields rfl (Bool.or_right_comm _ _ _) rfl rfl)
  | oneOf options conflict => exact absorbVariant_orNullable d s options conflict b
  | primitive p =>
    cases s.form with
    | primitive q =>
      dsimp only
      cases p.join q with
      | some j => rfl
      | none => exact hconflict
    | record | list | absent | optional | oneOf => exact hconflict

variable (hA : absorb.Nullable)

include hA

theorem foldlM_orNullable (l : List Schema) (d : Schema) (b : Bool) :
    l.foldlM absorb (d.orNullable b) = (l.foldlM absorb d).map (·.orNullable b) := by
  induction l generalizing d with
  | nil => rfl
  | cons s rest ih =>
    rw [List.foldlM_cons, List.foldlM_cons, hA]
    cases absorb d s with
    | error e => rfl
    | ok r => exact ih r

theorem absorbAlternatives_orNullable (d : Schema) (options srcOptions : Catalogue) (conflict srcConflict b : Bool) :
    absorbAlternatives absorb (d.orNullable b) options conflict srcOptions srcConflict =
      (absorbAlternatives absorb d options conflict srcOptions srcConflict).map (·.orNullable b) := by
  have hfold := foldlM_orNullable hA (Table.values srcOptions) { d with form := .oneOf options (conflict || srcConflict) } b
  unfold absorbAlternatives
  cases (Table.values srcOptions).forM Schema.checkOption with
  | error f => rfl
  | ok u => exact hfold

/-- Alternatives on the source side, for a destination that is nullable as well. -/
theorem absorbStep_oneOf_orNullable (d : Schema) (options : Catalogue) (conflict nullable b : Bool)
    (metadata : Option Metadata) (examples : Examples) :
    absorbStep limits absorb (d.orNullable b) ⟨.oneOf options conflict, nullable, metadata, examples⟩ =
      (absorbStep limits absorb d ⟨.oneOf options conflict, nullable, metadata, examples⟩).map (·.orNullable b) := by
  unfold absorbStep
  rw [Schema.form_orNullable, Schema.orNullable_comm]
  cases d.form with
  | oneOf dstOptions dstConflict =>
    exact absorbAlternatives_orNullable hA ((d.orNullable nullable).mergeExamples examples) dstOptions options
      dstConflict conflict b
  | primitive | record | list | absent | optional =>
    exact hA { d.orNullable nullable with form := .oneOf options conflict, examples := Examples.merge [] examples } d.bare b

theorem absorbStep_orNullable (s d : Schema) (b : Bool) :
    absorbStep limits absorb (d.orNullable b) s = (absorbStep limits absorb d s).map (·.orNullable b) := by
  induction s using Schema.inductionOn generalizing d with
  | step s ih =>
    obtain ⟨form, nullable, metadata, examples⟩ := s
    cases form with
    | optional inner =>
      unfold absorbStep
      rw [Schema.orNullable_comm, ih inner (List.mem_singleton.2 rfl)]
      cases absorbStep limits absorb (d.orNullable nullable) inner with
      | error e => rfl
      | ok r => exact congrArg (fun r => Except.ok (Schema.mergeExamples r examples)) (Schema.makeOptional_orNullable r b)
    | absent => exact congrArg Except.ok (Schema.ext_fields rfl (Bool.or_right_comm _ _ _) rfl rfl)
    | oneOf options conflict => exact absorbStep_oneOf_orNullable hA d options conflict nullable b metadata examples
    | primitive | record | list =>
      refine (congrArg (fun d => absorbPlain limits absorb d _) (Schema.orNullable_comm d b nullable)).trans ?_
      exact absorbPlain_orNullable _ _ b

end

/-! ## Sources -/

/-- The nullability of a source goes to the destination. -/
theorem absorbStep_src_orNullable {limits : Limits} {absorb : Absorber} (d s : Schema) (b : Bool) :
    absorbStep limits absorb d (s.orNullable b) = absorbStep limits absorb (d.orNullable b) s := by
  obtain ⟨form, nullable, metadata, examples⟩ := s
  have hnull : d.orNullable (nullable || b) = (d.orNullable b).orNullable nullable := by
    rw [Schema.orNullable_orNullable, Bool.or_comm]
  cases form with
  | absent =>
    refine congrArg Except.ok (Schema.ext_fields rfl ?_ rfl rfl)
    simp [Schema.orNullable, Schema.mergeExamples]
  | optional inner =>
    show absorbStep limits absorb (d.orNullable (nullable || b)) inner >>= _ = _
    rw [hnull]
    rfl
  | oneOf options conflict =>
    obtain ⟨dform, dnullable, dmetadata, dexamples⟩ := d
    have hnull : (dnullable || (nullable || b)) = ((dnullable || b) || nullable) := congrArg Schema.nullable hnull
    unfold Schema.orNullable absorbStep Schema.orNullable
    dsimp only
    rw [hnull]
    cases dform <;> rfl
  | primitive | record | list => exact congrArg (fun d => absorbPlain limits absorb d _) hnull

/-! ## Runs -/

theorem size_orNullable (s : Schema) (b : Bool) : (s.orNullable b).size = s.size := by
  rw [size_eq, size_eq s, Schema.form_orNullable]

theorem absorbWithin_orNullable (limits : Limits) (depth : Nat) : Absorber.Nullable (absorbWithin limits depth) := by
  induction depth with
  | zero => exact fun d s b => rfl
  | succ depth ih => exact fun d s b => absorbStep_orNullable ih s d b

theorem absorb_orNullable (limits : Limits) : Absorber.Nullable (absorb limits) := by
  intro d s b
  unfold absorb depthBound
  rw [size_orNullable]
  exact absorbWithin_orNullable limits _ d s b

theorem absorb_src_orNullable (limits : Limits) (d s : Schema) (b : Bool) :
    absorb limits d (s.orNullable b) = (absorb limits d s).map (·.orNullable b) := by
  unfold absorb depthBound
  rw [size_orNullable]
  cases 4 * ((d.size + s.size + 2) * (d.size + s.size + 2)) with
  | zero => rfl
  | succ depth =>
    exact (absorbStep_src_orNullable d s b).trans (absorbStep_orNullable (absorbWithin_orNullable limits depth) s d b)

end ApiShape
