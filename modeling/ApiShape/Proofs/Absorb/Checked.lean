/-
Which alternatives on the source side are checked. A destination that has options itself looks at all options of
the source before it takes in any of them, and refuses the first one that is optional or has options of its own.
A destination without options changes places with the alternatives, and then nothing looks at their options: they
are taken as they come.
-/
import ApiShape.Proofs.Keys.Basic
import ApiShape.Proofs.WellFormed.Absorb

namespace ApiShape

section

variable {limits : Limits} {absorb : Absorber} {dst src : Schema} {options : Catalogue} {conflict : Bool}

/-! ## Checked options -/

theorem checkOption_of_not_isPlain (h : src.isPlain = false) :
    src.checkOption = .error (.invalidVariant src.kind.name "oneof") := by
  cases hcheck : src.checkOption with
  | ok u =>
    rw [checkOption_eq_ok.1 hcheck] at h
    cases h
  | error f => rw [(checkOption_error hcheck).2]

/-- Checking options in order reports the first one that is no option. -/
theorem forM_checkOption_of_find? {l : List Schema} {t : Schema} (h : l.find? (fun o => !o.isPlain) = some t) :
    l.forM Schema.checkOption = .error (.invalidVariant t.kind.name "oneof") := by
  induction l with
  | nil => cases h
  | cons o rest ih =>
    cases hplain : o.isPlain with
    | true =>
      rw [List.find?_cons_of_neg (by simp [hplain])] at h
      rw [List.forM, checkOption_eq_ok.2 hplain]
      exact ih h
    | false =>
      rw [List.find?_cons_of_pos (by simp [hplain])] at h
      cases h
      rw [List.forM, checkOption_of_not_isPlain hplain]
      rfl

theorem absorbStep_of_alternatives {t : Schema} (hd : dst.isOneOf) (hs : src.form = .oneOf options conflict)
    (ht : (Table.values options).find? (fun o => !o.isPlain) = some t) :
    absorbStep limits absorb dst src = .error (.invalidVariant t.kind.name "oneof") := by
  obtain ⟨form, nullable, metadata, examples⟩ := src
  obtain rfl : form = .oneOf options conflict := hs
  unfold absorbStep
  split
  · unfold absorbAlternatives
    rw [forM_checkOption_of_find? ht]
    rfl
  · rename_i hform
    unfold Schema.isOneOf at hd
    split at hd
    · exact absurd ‹_› (hform _ _)
    · cases hd

/-! ## Options that are not looked at -/

/-- Not alternatives, also below optional layers. -/
inductive Schema.Single : Schema → Prop
  | plain {s : Schema} : s.isPlain → Single s
  | absent {s : Schema} : s.form = .absent → Single s
  | optional {s inner : Schema} : s.form = .optional inner → Single inner → Single s

theorem Schema.Single.isOneOf_eq (h : src.Single) : src.isOneOf = false := by
  unfold Schema.isOneOf
  cases h with
  | plain hplain => unfold Schema.isPlain Form.isPlain at hplain; split <;> simp_all
  | absent hform => rw [hform]
  | optional hform _ => rw [hform]

theorem Schema.Single.bare (h : src.Single) : src.bare.Single := by
  cases h with
  | plain hplain => exact .plain hplain
  | absent hform => exact .absent hform
  | optional hform h => exact .optional hform h

theorem take_eq_of_none {p : Schema → Bool} {c : Catalogue} (h : ∀ t ∈ Table.values c, p t = false) :
    Catalogue.take p c = ([], c) := by
  have hrows : ∀ row ∈ c, p row.2 = false := fun row hrow => h row.2 (Table.mem_values_of_mem hrow)
  have htaken : c.filter (fun row => p row.2) = [] := List.filter_eq_nil_iff.2 fun row hrow => by simp [hrows row hrow]
  have hleft : c.filter (fun row => !p row.2) = c := List.filter_eq_self.2 fun row hrow => by simp [hrows row hrow]
  unfold Catalogue.take
  rw [htaken, hleft]
  rfl

/-- A variant goes together with none of the options that are optional or have options of their own. -/
theorem joinOption_of_none (hoptions : ∀ t ∈ Table.values options, t.isPlain = false) :
    joinOption absorb options src = .ok (src, options) := by
  have hnone : ∀ p : Schema → Bool, (∀ t, p t → src.agrees t) → Catalogue.take p options = ([], options) := by
    refine fun p hp => take_eq_of_none fun t ht => eq_false_of_ne_true fun h => ?_
    have hplain := (Schema.isPlain_of_agrees (hp t h)).2
    rw [hoptions t ht] at hplain
    cases hplain
  unfold joinOption
  split
  · rename_i hform
    rw [hnone _ fun t => Schema.agrees_of_isRecord (by unfold Schema.isRecord; rw [hform])]
    rfl
  · rename_i hform
    rw [hnone _ fun t => Schema.agrees_of_isList (by unfold Schema.isList; rw [hform])]
    rfl
  · unfold gather
    rw [hnone _ fun t => Schema.agrees_of_joinable]

/-- Alternatives without an option of the right kind take in whatever is no alternatives. -/
theorem absorbStep_of_single (hs : src.Single) (hoptions : ∀ t ∈ Table.values options, t.isPlain = false) :
    ∀ {dst : Schema}, dst.form = .oneOf options conflict → ∃ r, absorbStep limits absorb dst src = .ok r := by
  induction hs with
  | @plain src hplain =>
    intro dst hd
    exact ⟨_, absorbStep_of_option hplain hd (joinOption_of_none hoptions)⟩
  | @absent src hform =>
    intro dst hd
    obtain ⟨form, nullable, metadata, examples⟩ := src
    obtain rfl : form = .absent := hform
    exact ⟨_, rfl⟩
  | @optional src inner hform _ ih =>
    intro dst hd
    obtain ⟨form, nullable, metadata, examples⟩ := src
    obtain rfl : form = .optional inner := hform
    obtain ⟨r, hr⟩ := @ih (dst.orNullable nullable) hd
    refine ⟨r.makeOptional.mergeExamples examples, ?_⟩
    unfold absorbStep
    exact bind_eq_ok.2 ⟨r, hr, rfl⟩

theorem absorbStep_of_swap (hd : dst.isOneOf = false) (hs : src.form = .oneOf options conflict) :
    absorbStep limits absorb dst src =
      absorb
        { dst.orNullable src.nullable with
          form := .oneOf options conflict
          examples := Examples.merge [] src.examples }
        dst.bare := by
  obtain ⟨form, nullable, metadata, examples⟩ := src
  obtain rfl : form = .oneOf options conflict := hs
  unfold absorbStep
  split
  · rename_i hform
    unfold Schema.isOneOf at hd
    rw [hform] at hd
    cases hd
  · rfl

end

/-! ## Runs -/

section

variable {limits : Limits} {dst src : Schema} {options : Catalogue} {conflict : Bool}

/-- Any two trees are absorbed with at least two nested steps. -/
theorem absorb_eq_two_steps (limits : Limits) (dst src : Schema) : ∃ depth, absorb limits dst src =
    absorbStep limits (absorbStep limits (absorbWithin limits depth)) dst src := by
  have hbound : ∃ depth, depthBound dst src = depth + 2 := by
    refine ⟨depthBound dst src - 2, ?_⟩
    have hle : 2 * 2 ≤ (dst.size + src.size + 2) * (dst.size + src.size + 2) := Nat.mul_le_mul (by omega) (by omega)
    unfold depthBound
    omega
  obtain ⟨depth, hdepth⟩ := hbound
  refine ⟨depth, ?_⟩
  unfold absorb
  rw [hdepth]
  rfl

/--
Alternatives that are absorbed into alternatives are checked first: when one of their options is optional or has
options of its own, the first such option is reported and the destination stays as it is. A destination that is no
alternatives, not even below optional layers, checks nothing: it accepts sources that have no other options.
-/
theorem alternatives_checked (limits : Limits) (dst : Schema) :
    (dst.isOneOf → ∀ (src : Schema) (options : Catalogue) (conflict : Bool), src.form = .oneOf options conflict →
      ∀ t ∈ Table.values options, t.isPlain = false →
        ∃ first, (Table.values options).find? (fun o => !o.isPlain) = some first ∧
          absorb limits dst src = .error (.invalidVariant first.kind.name "oneof") ∧
          committed dst (absorb limits dst src) = dst) ∧
    (dst.Single → ∀ (src : Schema) (options : Catalogue) (conflict : Bool), src.form = .oneOf options conflict →
      (∀ t ∈ Table.values options, t.isPlain = false) → ∃ r, absorb limits dst src = .ok r) := by
  constructor
  · intro hd src options conflict hs t ht hplain
    have hsome : ((Table.values options).find? (fun o => !o.isPlain)).isSome :=
      List.find?_isSome.2 ⟨t, ht, by simp [hplain]⟩
    obtain ⟨first, hfirst⟩ := Option.isSome_iff_exists.1 hsome
    obtain ⟨depth, hsteps⟩ := absorb_eq_two_steps limits dst src
    have herror := hsteps.trans (absorbStep_of_alternatives hd hs hfirst)
    exact ⟨first, hfirst, herror, by rw [herror]; rfl⟩
  · intro hd src options conflict hs hoptions
    obtain ⟨depth, hsteps⟩ := absorb_eq_two_steps limits dst src
    rw [hsteps, absorbStep_of_swap hd.isOneOf_eq hs]
    exact absorbStep_of_single hd.bare hoptions rfl

end

/-- An optional flag as the only option. -/
def optionalFlag : Catalogue := Catalogue.ofList [Schema.ofOptional (Schema.ofType .bool)]

theorem keyed_optionalFlag : Schema.Keyed { form := .oneOf optionalFlag true } := by
  refine .intro (Catalogue.fresh_ofList _) fun t ht => ?_
  obtain rfl := List.mem_singleton.1 ht
  refine .intro trivial fun t ht => ?_
  obtain rfl := List.mem_singleton.1 ht
  exact .of_primitive rfl trivial

/-- An integer or a text does not take in an optional flag. -/
theorem alternatives_checked_flag :
    absorb {} ((Schema.ofType .int64).conflict (Schema.ofType .string)) { form := .oneOf optionalFlag true } =
        .error (.invalidVariant "optional" "oneof") ∧
      ∃ r, absorb {} Schema.absent { form := .oneOf optionalFlag true } = .ok r := by
  have hoption : ∀ t ∈ Table.values optionalFlag, t.isPlain = false := List.forall_mem_singleton.2 rfl
  obtain ⟨hchecked, -⟩ := alternatives_checked {} ((Schema.ofType .int64).conflict (Schema.ofType .string))
  obtain ⟨first, hfirst, herror, -⟩ := hchecked rfl { form := .oneOf optionalFlag true } optionalFlag true rfl
    (Schema.ofOptional (Schema.ofType .bool)) List.mem_cons_self rfl
  obtain rfl : _ = first := Option.some.inj hfirst
  exact ⟨herror, (alternatives_checked {} Schema.absent).2 (.absent rfl) _ _ _ rfl hoption⟩

/-- A text changes places with alternatives whose only option is an optional flag, which nothing reports. -/
theorem alternatives_unchecked_string : ∃ (src : Schema) (options : Catalogue) (t r : Schema),
    src.form = .oneOf options true ∧ src.Keyed ∧ t ∈ Table.values options ∧ t.isOptional = true ∧
      absorb {} (Schema.ofType .string) src = .ok r :=
  ⟨{ form := .oneOf optionalFlag true }, _, _, _, rfl, keyed_optionalFlag, List.mem_cons_self, rfl, rfl⟩

end ApiShape
