/-
The layers around what a node offers, and the nodes that stand for a bag of nodes. Whatever is done to the
optional layer, the nullability and the examples of a node, it offers what it offered.
-/
import ApiShape.Proofs.Evidence.Classes

namespace ApiShape

/-! ## Layers -/

namespace Schema

variable {s t u : Schema}

theorem core_of_isOptional_eq (h : s.isOptional = false) : s.core = s := by
  unfold Schema.isOptional at h
  unfold core
  cases hform : s.form with
  | optional => rw [hform] at h; cases h
  | absent | primitive | record | list | oneOf => rfl

theorem isOptional_of_oneOf {options : Catalogue} {conflict : Bool} (h : s.form = .oneOf options conflict) :
    s.isOptional = false := by
  unfold isOptional
  rw [h]

theorem isOptional_of_optional {inner : Schema} (h : s.form = .optional inner) : s.isOptional = true := by
  unfold isOptional
  rw [h]

theorem core_of_optional {inner : Schema} (h : s.form = .optional inner) : s.core = inner := by
  unfold core
  rw [h]

theorem core_cases (s : Schema) :
    (∃ inner, s.form = .optional inner ∧ s.core = inner) ∨ (∀ inner, s.form ≠ .optional inner) ∧ s.core = s := by
  unfold core
  cases s.form with
  | optional inner => exact .inl ⟨inner, rfl, rfl⟩
  | primitive | record | list | absent | oneOf => exact .inr ⟨fun _ h => (by cases h), rfl⟩

/-- Nodes of one shape have one core, or are their own cores. -/
theorem core_eq_or (h : t.form = s.form) : t.core = s.core ∨ t.core = t ∧ s.core = s := by
  rcases s.core_cases with ⟨inner, hs, hcore⟩ | ⟨hs, hcore⟩
  · exact .inl ((core_of_optional (h.trans hs)).trans hcore.symm)
  · rcases t.core_cases with ⟨inner, ht, -⟩ | ⟨-, htcore⟩
    · exact absurd (h.symm.trans ht) (hs inner)
    · exact .inr ⟨htcore, hcore⟩

theorem nullable_inside (s : Schema) : s.inside.nullable = (s.core.nullable || s.nullable) := rfl

/-- A node is bare below an optional layer, or has no such layer. -/
theorem nullable_inside_of_bare (h : s.isOptional = true → s.core.nullable = false) : s.inside.nullable = s.nullable := by
  rw [nullable_inside]
  cases hopt : s.isOptional with
  | true => rw [h hopt, Bool.false_or]
  | false => rw [core_of_isOptional_eq hopt, Bool.or_self]

theorem nullable_core_congr (hform : t.form = s.form) (hnull : t.nullable = s.nullable) :
    t.core.nullable = s.core.nullable := by
  rcases core_eq_or hform with hcore | ⟨ht, hs⟩
  · rw [hcore]
  · rw [ht, hs, hnull]

theorem nullable_inside_orNullable (s : Schema) (b : Bool) :
    (s.orNullable b).inside.nullable = (s.inside.nullable || b) := by
  rw [nullable_inside, nullable_inside]
  rcases core_eq_or (s.form_orNullable b) with hcore | ⟨ht, hs⟩
  · rw [hcore, nullable_orNullable, Bool.or_assoc]
  · rw [ht, hs, nullable_orNullable, Bool.or_self, Bool.or_self]

theorem nullable_inside_bare (s : Schema) : (s.bare.inside.nullable || s.nullable) = s.inside.nullable := by
  rw [nullable_inside, nullable_inside]
  rcases core_eq_or s.form_bare with hcore | ⟨ht, hs⟩
  · rw [hcore, nullable_bare, Bool.or_false]
  · rw [ht, hs, nullable_bare, Bool.or_self, Bool.or_self, Bool.false_or]

theorem isOptional_eq_of_form (h : t.form = s.form) : t.isOptional = s.isOptional := by
  unfold Schema.isOptional
  rw [h]

/-- `t` offers what `s` offers, below other layers. -/
structure Relayered (s t : Schema) : Prop where
  form : t.core.form = s.core.form
  metadata : s.Regular → t.metadata = none
  inner : s.Regular → t.core.metadata = none

theorem variants_congr (h : t.core.form = s.core.form) : t.variants = s.variants := by
  unfold variants
  rw [h]

namespace Relayered

theorem regular (h : Relayered s t) (hs : s.Regular) : t.Regular where
  metadata := h.metadata hs
  inner := h.inner hs
  present := by rw [isOptional_eq_of_form h.form, hs.present]
  alternatives := by
    rw [h.form]
    exact hs.alternatives

theorem trans (h : Relayered s t) (h' : Relayered t u) : Relayered s u where
  form := h'.form.trans h.form
  metadata hs := h'.metadata (h.regular hs)
  inner hs := h'.inner (h.regular hs)

/-- The layers of a node that is changed around its shape only. -/
theorem of_form (hform : t.form = s.form) (hmetadata : s.metadata = none → t.metadata = none) : Relayered s t := by
  rcases core_eq_or hform with hcore | ⟨ht, hs⟩
  · exact ⟨by rw [hcore], fun h => hmetadata h.metadata, fun h => by rw [hcore, h.inner]⟩
  · exact ⟨by rw [ht, hs, hform], fun h => hmetadata h.metadata, fun h => by rw [ht, hmetadata h.metadata]⟩

end Relayered

theorem relayered_orNullable (s : Schema) (b : Bool) : Relayered s (s.orNullable b) := .of_form rfl id

theorem relayered_mergeExamples (s : Schema) (e : Examples) : Relayered s (s.mergeExamples e) := .of_form rfl id

theorem relayered_bare (s : Schema) : Relayered s s.bare := .of_form rfl fun _ => rfl

theorem core_makeOptional (h : s.isOptional = false) : s.makeOptional.core = s.bare := by
  unfold makeOptional
  rw [if_neg (by rw [h]; exact Bool.false_ne_true)]
  rfl

theorem relayered_makeOptional (s : Schema) : Relayered s s.makeOptional := by
  cases hopt : s.isOptional with
  | true =>
    rw [makeOptional_of_isOptional hopt]
    exact ⟨rfl, Regular.metadata, Regular.inner⟩
  | false =>
    refine ⟨?_, fun hs => ?_, fun hs => ?_⟩
    · rw [core_makeOptional hopt, core_of_isOptional_eq hopt, form_bare]
    · rw [metadata_makeOptional, hs.metadata]
    · rw [core_makeOptional hopt]
      rfl

theorem Regular.form_ne_absent (h : s.Regular) : s.form ≠ .absent := by
  intro hform
  have hpresent := h.present
  rcases s.core_cases with ⟨inner, hoptional, -⟩ | ⟨-, hcore⟩
  · rw [hform] at hoptional
    cases hoptional
  · rw [hcore] at hpresent
    unfold isOptional at hpresent
    rw [hform] at hpresent
    cases hpresent

theorem Regular.core_core (h : s.Regular) : s.core.core = s.core := core_of_isOptional_eq h.present

theorem Regular.relayered_core (h : s.Regular) : Relayered s s.core where
  form := by rw [h.core_core]
  metadata := Regular.inner
  inner hs := by rw [hs.core_core, hs.inner]

theorem Regular.isOptional_inside (h : s.Regular) : s.inside.isOptional = false := h.present

theorem Regular.relayered_inside (h : s.Regular) : Relayered s s.inside :=
  h.relayered_core.trans (relayered_orNullable _ _)

theorem inside_of_isOptional_eq (h : s.isOptional = false) : s.inside = s := by
  unfold inside
  rw [core_of_isOptional_eq h, orNullable_of_eq id]

theorem Regular.inside_inside (h : s.Regular) : s.inside.inside = s.inside :=
  inside_of_isOptional_eq h.isOptional_inside

/-- An optional layer that is added is taken off again. -/
theorem Regular.inside_makeOptional (h : s.Regular) : s.makeOptional.inside = s.inside := by
  cases hopt : s.isOptional with
  | true => rw [makeOptional_of_isOptional hopt]
  | false =>
    have hmetadata := h.metadata
    rw [inside_of_isOptional_eq hopt]
    unfold inside
    rw [core_makeOptional hopt, nullable_makeOptional]
    obtain ⟨form, nullable, metadata, examples⟩ := s
    cases hmetadata
    cases nullable <;> rfl

/-- A field that was observed has its interior as the value in a map. -/
theorem Regular.asMapValue (h : s.Regular) : s.asMapValue = some s.inside := by
  have hne := h.form_ne_absent
  unfold Schema.asMapValue
  cases hform : s.form with
  | absent => exact absurd hform hne
  | optional inner =>
    unfold inside
    rw [core_of_optional hform]
  | primitive | record | list | oneOf =>
    rw [inside_of_isOptional_eq]
    unfold isOptional
    rw [hform]

end Schema

/-! ## Nodes of witnesses -/

section

variable {types : List BaseType} {s t : Schema}

namespace Schema.Witness

theorem regular (h : s.Witness types) : s.Regular := h.root.1

theorem core (h : s.Witness types) : s.core.Witness types := by
  rcases s.core_cases with ⟨inner, hform, hcore⟩ | ⟨-, hcore⟩
  · rw [hcore]
    refine h.child inner ?_
    unfold Schema.children
    rw [hform]
    exact List.mem_cons_self
  · rwa [hcore]

theorem inside (h : s.Witness types) : s.inside.Witness types :=
  Schema.Throughout.congr h.core (t := s.inside) rfl fun hcore => ⟨h.regular.relayered_inside.regular h.regular, hcore.2⟩

theorem variants (h : s.Witness types) : ∀ f ∈ s.variants, f.Witness types := by
  intro f hf
  rcases h.regular.cases with ⟨hplain, hvariants⟩ | ⟨options, hform, hreduced, -, hvariants⟩
  · rw [hvariants] at hf
    obtain rfl := List.mem_singleton.1 hf
    exact ⟨h.core.root.2 hplain, h.core.child⟩
  · rw [hvariants] at hf
    obtain ⟨t, ht, rfl⟩ := List.mem_map.1 hf
    have htw : t.Witness types := by
      refine h.core.child t ?_
      unfold Schema.children
      rwa [hform]
    exact ⟨htw.root.2 (hreduced.exclusive.plain t ht), htw.child⟩

/-- A primitive without an observed value has a zero, which is exact in every type that it can be joined to. -/
theorem ofType {t : BaseType} (ht : t ∈ types) : (Schema.ofType t).Witness types := by
  have hregular : (Schema.ofType t).Regular := ⟨rfl, rfl, rfl, fun _ _ h => (by cases h)⟩
  refine .intro ⟨hregular, fun _ => ⟨rfl, by rwa [Primitive.baseType_ofType], fun u _ hbelow => ?_, .nil⟩⟩
    fun t ht => absurd ht List.not_mem_nil
  rw [Primitive.baseType_ofType] at hbelow
  exact ⟨Scalar.zero u, Scalar.baseType_zero u, (Scalar.reading_zero_of_below hbelow).symm⟩

end Schema.Witness

variable {seen : Multiset Schema} {g : Multiset Form}

theorem Witnessed.of_seen (h : ∀ t ∈ seen, t.Witness types) : Witnessed types (variantsSeen seen) := by
  intro c hc
  obtain ⟨s, hs, hcs⟩ := mem_variantsSeen.1 hc
  exact (h s hs).variants c hcs

theorem Form.Witness.field {f : Form} {name : String} (hf : f.Witness types) (ht : Table.find? f.fields name = some t) :
    t.Witness types := by
  refine hf.children t ?_
  cases f with
  | record => exact List.mem_append_left _ (Table.mem_values_of_mem (Table.mem_of_find? ht))
  | primitive | list | absent | optional | oneOf => cases ht

theorem Form.Witness.keyNodes (hT : BaseType.Coherent types) {f : Form} (hf : f.Witness types) :
    ∀ t ∈ f.keyNodes, t.Witness types := by
  intro t ht
  cases f with
  | record fields mapping =>
    cases mapping with
    | none =>
      obtain rfl := List.mem_singleton.1 ht
      exact .ofType hT.text
    | some m => exact hf.children t (List.mem_append_right _ (Mapping.mem_slots.2 (.inl (Option.mem_toList.1 ht))))
  | primitive | list | absent | optional | oneOf => cases ht

theorem Form.Witness.valueNodes {f : Form} (hf : f.Witness types) : ∀ t ∈ f.valueNodes, t.Witness types := by
  intro t ht
  cases f with
  | record fields mapping =>
    cases mapping with
    | none =>
      obtain ⟨u, hu, rfl⟩ := List.mem_map.1 ht
      exact (hf.children u (List.mem_append_left _ hu)).inside
    | some m => exact hf.children t (List.mem_append_right _ (Mapping.mem_slots.2 (.inr (Option.mem_toList.1 ht))))
  | primitive | list | absent | optional | oneOf => cases ht

theorem Form.Witness.elems {f : Form} (hf : f.Witness types) : ∀ t ∈ f.elems, t.Witness types := by
  cases f with
  | list => exact hf.children
  | primitive | record | absent | optional | oneOf => exact fun t ht => absurd ht List.not_mem_nil

section

variable (hT : BaseType.Coherent types) (hg : Witnessed types g)

theorem mem_fieldsSeen {name : String} : t ∈ fieldsSeen g name ↔ ∃ c ∈ g, Table.find? c.fields name = some t := by
  unfold fieldsSeen
  exact Multiset.mem_filterMap _ _

include hg

theorem Witnessed.fieldsSeen (name : String) : ∀ t ∈ fieldsSeen g name, t.Witness types := by
  intro t ht
  obtain ⟨c, hc, hfind⟩ := mem_fieldsSeen.1 ht
  exact (hg c hc).field hfind

theorem Witnessed.valuesSeen : ∀ t ∈ valuesSeen g, t.Witness types := by
  intro t ht
  obtain ⟨c, hc, ht⟩ := Multiset.mem_bind.1 ht
  exact (hg c hc).valueNodes t (Multiset.mem_coe.1 ht)

theorem Witnessed.elemsSeen : ∀ t ∈ elemsSeen g, t.Witness types := by
  intro t ht
  obtain ⟨c, hc, ht⟩ := Multiset.mem_bind.1 ht
  exact (hg c hc).elems t (Multiset.mem_coe.1 ht)

include hT

theorem Witnessed.keysSeen : ∀ t ∈ keysSeen g, t.Witness types := by
  intro t ht
  obtain ⟨c, hc, ht⟩ := Multiset.mem_bind.1 ht
  exact (hg c hc).keyNodes hT t (Multiset.mem_coe.1 ht)

/-- What a part of a summary stands for are nodes of witnesses. -/
theorem Part.witness {f : Form} {missing : Prop} (h : Part g f seen missing s) : ∀ t ∈ seen, t.Witness types := by
  cases h with
  | field => exact hg.fieldsSeen _
  | key => exact hg.keysSeen hT
  | value => exact hg.valuesSeen
  | element => exact hg.elemsSeen

end

end

/-! ## Nodes that stand for a bag -/

theorem Offers.relayer {limits : Limits} {vs : Multiset Form} {s t : Schema} (h : Offers limits vs s)
    (hst : s.Relayered t) : Offers limits vs t where
  regular := hst.regular h.regular
  covers c hc := by
    rw [Schema.variants_congr hst.form]
    exact h.covers c hc
  summary v hv := by
    rw [Schema.variants_congr hst.form] at hv
    exact h.summary v hv

namespace Stands

variable {types : List BaseType} {limits : Limits} {seen : Multiset Schema} {missing : Prop} {s t : Schema}

theorem of_alone (limits : Limits) (t : Schema) (missing : Prop) (hs : (missing → s = t.makeOptional) ∧ (¬missing → s = t)) :
    Stands limits {t} missing s where
  outline :=
    { nonempty := Multiset.singleton_ne_zero t
      alone := fun u hu => by rwa [← Multiset.singleton_inj.1 hu]
      flags := fun h => by simp at h
      regular := fun h => by simp at h
      covers := fun h => by simp at h }
  summary h := by simp at h

theorem alone (limits : Limits) (t : Schema) : Stands limits {t} False t :=
  of_alone limits t False ⟨False.elim, fun _ => rfl⟩

theorem alone_missing (limits : Limits) (t : Schema) : Stands limits {t} True t.makeOptional :=
  of_alone limits t True ⟨fun _ => rfl, fun h => absurd trivial h⟩

theorem of_several (hseveral : 2 ≤ seen.card) (hflags : Flags seen missing s) (h : Offers limits (variantsSeen seen) s) :
    Stands limits seen missing s where
  outline :=
    { nonempty := fun h => by simp [h] at hseveral
      alone := fun u hu => by simp [hu] at hseveral
      flags := fun _ => hflags
      regular := fun _ => h.regular
      covers := fun _ => h.covers }
  summary _ := h.summary

theorem cases (h : Stands limits seen missing s) :
    (∃ t, seen = {t} ∧ (missing ∧ s = t.makeOptional ∨ ¬missing ∧ s = t)) ∨ 2 ≤ seen.card := by
  by_cases hcard : 2 ≤ seen.card
  · exact .inr hcard
  · have hpos := Multiset.card_pos.2 h.outline.nonempty
    obtain ⟨t, ht⟩ := Multiset.card_eq_one.1 (show seen.card = 1 by omega)
    obtain ⟨hmissing, hpresent⟩ := h.outline.alone t ht
    refine .inl ⟨t, ht, ?_⟩
    by_cases hm : missing
    · exact .inl ⟨hm, hmissing hm⟩
    · exact .inr ⟨hm, hpresent hm⟩

section

variable (hw : ∀ t ∈ seen, t.Witness types)

include hw

theorem offers (h : Stands limits seen missing s) : Offers limits (variantsSeen seen) s := by
  rcases h.cases with ⟨t, rfl, hs⟩ | hseveral
  · have hvariants : variantsSeen {t} = (t.variants : Multiset Form) := by
      unfold variantsSeen
      exact Multiset.singleton_bind _ _
    have ht := Offers.of_regular limits (hw t (Multiset.mem_singleton_self t)).regular
    rw [hvariants]
    rcases hs with ⟨-, rfl⟩ | ⟨-, rfl⟩
    · exact ht.relayer t.relayered_makeOptional
    · exact ht
  · exact h.offers_of_several hseveral

theorem isOptional_iff (h : Stands limits seen missing s) :
    s.isOptional = true ↔ missing ∨ ∃ t ∈ seen, t.isOptional = true := by
  rcases h.cases with ⟨t, rfl, hs⟩ | hseveral
  · rcases hs with ⟨hm, rfl⟩ | ⟨hm, rfl⟩
    · simp [hm, t.isOptional_makeOptional]
    · simp [hm]
  · exact (h.outline.flags hseveral).optional

theorem nullable_inside_iff (h : Stands limits seen missing s) :
    s.inside.nullable = true ↔ ∃ t ∈ seen, t.inside.nullable = true := by
  rcases h.cases with ⟨t, rfl, hs⟩ | hseveral
  · have ht := (hw t (Multiset.mem_singleton_self t)).regular
    rcases hs with ⟨-, rfl⟩ | ⟨-, rfl⟩
    · simp [ht.inside_makeOptional]
    · simp
  · have hflags := h.outline.flags hseveral
    rw [Schema.nullable_inside_of_bare hflags.bare]
    exact hflags.nullable

/-- A node that is missing besides. -/
theorem makeOptional (h : Stands limits seen missing s) : Stands limits seen True s.makeOptional := by
  rcases h.cases with ⟨t, rfl, hs⟩ | hseveral
  · have heq : s.makeOptional = t.makeOptional := by
      rcases hs with ⟨-, rfl⟩ | ⟨-, rfl⟩
      · exact t.makeOptional_makeOptional
      · rfl
    rw [heq]
    exact .alone_missing limits t
  · have hflags := h.outline.flags hseveral
    refine of_several hseveral ⟨?_, ?_, ?_⟩ ((h.offers hw).relayer s.relayered_makeOptional)
    · simp [s.isOptional_makeOptional]
    · rw [s.nullable_makeOptional]
      exact hflags.nullable
    · intro _
      cases hopt : s.isOptional with
      | true =>
        rw [Schema.makeOptional_of_isOptional hopt]
        exact hflags.bare hopt
      | false =>
        rw [Schema.core_makeOptional hopt]
        rfl

/-- The nodes of a bag and the node that stands for it, without their optional layers. -/
theorem inside (h : Stands limits seen missing s) : Stands limits (seen.map Schema.inside) False s.inside := by
  rcases h.cases with ⟨t, rfl, hs⟩ | hseveral
  · have heq : s.inside = t.inside := by
      rcases hs with ⟨-, rfl⟩ | ⟨-, rfl⟩
      · exact (hw t (Multiset.mem_singleton_self t)).regular.inside_makeOptional
      · rfl
    rw [heq, Multiset.map_singleton]
    exact .alone limits t.inside
  · have hregular := h.outline.regular hseveral
    have hflags := h.outline.flags hseveral
    have hvariants : variantsSeen (seen.map Schema.inside) = variantsSeen seen := by
      unfold variantsSeen
      rw [Multiset.bind_map]
      refine Multiset.bind_congr fun t ht => ?_
      rw [Schema.variants_congr (hw t ht).regular.relayered_inside.form]
    refine of_several (by rwa [Multiset.card_map]) ⟨?_, ?_, ?_⟩ ?_
    · rw [hregular.isOptional_inside]
      simp only [Bool.false_eq_true, Multiset.mem_map, exists_exists_and_eq_and, false_or, false_iff, not_exists, not_and]
      exact fun t ht hopt => by rw [(hw t ht).regular.isOptional_inside] at hopt; cases hopt
    · rw [h.nullable_inside_iff hw]
      simp only [Multiset.mem_map, exists_exists_and_eq_and]
      exact exists_congr fun t => and_congr_right fun ht => by rw [(hw t ht).regular.inside_inside]
    · intro hopt
      rw [hregular.isOptional_inside] at hopt
      cases hopt
    · rw [hvariants]
      exact (h.offers hw).relayer hregular.relayered_inside

end

end Stands

end ApiShape
