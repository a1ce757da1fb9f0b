/-
Nothing observed is lost: the tree that absorbing gives admits every instance that one of the two
trees admitted, as long as no two nodes of different shape that are compared share an address.
-/
import ApiShape.Proofs.Absorb.Compared
import ApiShape.Proofs.Absorb.Record
import ApiShape.Proofs.Instance.Canonical
import ApiShape.Proofs.Keys.Basic

namespace ApiShape

/-! ## Trees of observations -/

/-- No node of the tree is a null without any other observation. -/
def Schema.Present (s : Schema) : Prop := s.Throughout (fun t => t.form ≠ .absent)

theorem stable_present (limits : Limits) : Stable limits (· ≠ .absent) where
  text := nofun
  primitive _ _ _ := nofun
  list _ := nofun
  optional _ _ := nofun
  record _ _ _ _ := nofun
  emptyMap _ := nofun
  map _ := nofun
  empty _ := nofun
  filter _ _ := nofun
  flag _ := nofun
  wrap _ := nofun
  insert _ _ := nofun

/-- What absorbing relies on in order to lose nothing. -/
def Form.Proper (f : Form) : Prop := f ≠ .absent ∧ f.Ordered ∧ f.Fresh

/-- Proper at every depth. -/
def Schema.Proper (s : Schema) : Prop := s.form.Everywhere Form.Proper

theorem stable_proper (limits : Limits) : Stable limits Form.Proper :=
  (stable_present limits).and ((stable_ordered limits).and (stable_fresh limits))

/-! ## Coverage -/

/-- `r` describes all that `s` does, and may be absent if `s` may. -/
structure Schema.CoveredBy (s r : Schema) : Prop where
  below : s.Below r
  isOptional : s.isOptional = true → r.isOptional = true

/-- The result describes all that both trees do. -/
def Covers (d s r : Schema) : Prop := d.Proper → s.Proper → r.Proper ∧ d.CoveredBy r ∧ s.CoveredBy r

theorem Covers.keeps {d s r : Schema} (h : Covers d s r) : Keeps Form.Proper d s r :=
  fun hd hs => (h hd hs).1

/-- The order on shapes by what they describe. -/
def Form.Below (f g : Form) : Prop := ∀ i, f.Admits i → g.Admits i

section

variable {limits : Limits} {s t r : Schema}

theorem Schema.CoveredBy.refl (s : Schema) : s.CoveredBy s := ⟨.refl s, id⟩

theorem Schema.CoveredBy.trans {u : Schema} (hst : s.CoveredBy t) (htu : t.CoveredBy u) : s.CoveredBy u :=
  ⟨hst.below.trans htu.below, fun h => htu.isOptional (hst.isOptional h)⟩

theorem Schema.coveredBy_makeOptional (s : Schema) : s.CoveredBy s.makeOptional :=
  ⟨s.below_makeOptional, fun _ => s.isOptional_makeOptional⟩

/-! ## Folds -/

theorem Folds.covers {acc : Schema} {l : List Schema} (h : Folds Covers acc l r) (hacc : acc.Proper)
    (hl : ∀ s ∈ l, s.Proper) : r.Proper ∧ acc.CoveredBy r ∧ ∀ s ∈ l, s.CoveredBy r := by
  induction h with
  | nil acc => exact ⟨hacc, .refl acc, nofun⟩
  | cons hmid _ ih =>
    obtain ⟨hproper, haccMid, hsMid⟩ := hmid hacc (hl _ List.mem_cons_self)
    obtain ⟨hr, hmid, hrest⟩ := ih hproper fun s hs => hl s (List.mem_cons_of_mem _ hs)
    exact ⟨hr, haccMid.trans hmid, List.forall_mem_cons.2 ⟨hsMid.trans hmid, hrest⟩⟩

theorem Collects.covers {l : List Schema} {rep : Option Schema} (h : Collects Covers l rep)
    (hl : ∀ s ∈ l, s.Proper) : (∀ r ∈ rep, r.Proper) ∧ ∀ s ∈ l, ∃ r ∈ rep, s.CoveredBy r := by
  cases h with
  | none => exact ⟨nofun, nofun⟩
  | some h =>
    obtain ⟨hr, hfirst, hrest⟩ := h.covers (hl _ List.mem_cons_self) fun s hs => hl s (List.mem_cons_of_mem _ hs)
    refine ⟨?_, fun s hs => ⟨_, rfl, ?_⟩⟩
    · rintro _ ⟨⟩
      exact hr
    · rcases List.mem_cons.1 hs with rfl | hs
      · exact hfirst
      · exact hrest s hs

/-! ## Records -/

/-- A field that was observed has a value in the map, which describes what the field does. -/
theorem Schema.exists_asMapValue (h : s.form ≠ .absent) : ∃ v, s.asMapValue = some v ∧ s.Below v := by
  unfold Schema.asMapValue
  split
  · exact absurd ‹_› h
  · rename_i inner hform
    refine ⟨_, rfl, fun i hi => ?_⟩
    rcases Schema.admits_iff.1 hi with ⟨hnull, rfl⟩ | hi
    · exact Schema.admits_iff.2 (.inl ⟨by rw [Schema.nullable_orNullable, hnull, Bool.or_true], rfl⟩)
    · rw [hform] at hi
      exact inner.below_orNullable s.nullable i (Form.admits_optional.1 hi)
  · exact ⟨s, rfl, .refl s⟩

theorem Form.below_map {fields fields' : Table Schema} {m m' : Mapping}
    (h : ∀ v ∈ m.value, ∃ v' ∈ m'.value, v.Below v') :
    (Form.record fields (some m)).Below (.record fields' (some m')) := by
  intro i hi
  obtain ⟨rows, rfl, hrows⟩ := Form.admits_map.1 hi
  refine Form.admits_map.2 ⟨rows, rfl, fun row hrow => ?_⟩
  obtain ⟨v, hv, hadmits⟩ := hrows row hrow
  obtain ⟨v', hv', hbelow⟩ := h v hv
  exact ⟨v', hv', hbelow _ hadmits⟩

/-- The map of a record describes what the record does. -/
theorem MapValue.below {fields fields' : Table Schema} {value key : Option Schema}
    (h : MapValue Covers fields value) (hfields : ∀ t ∈ Table.values fields, t.Proper) :
    (Form.record fields none).Below (.record fields' (some ⟨key, value⟩)) := by
  have hvalues : ∀ rep, Collects Covers (mapValues fields) rep →
      ∀ s ∈ Table.values fields, ∃ v ∈ rep, s.Below v := by
    intro rep hrep s hs
    obtain ⟨v, hv, hbelow⟩ := Schema.exists_asMapValue (hfields s hs).root.1
    obtain ⟨name, hrow⟩ := Table.mem_values.1 hs
    have hmem : v ∈ mapValues fields := List.mem_filterMap.2 ⟨_, hrow, hv⟩
    obtain ⟨r, hr, hcovered⟩ := (hrep.covers fun t ht => .of_mem_mapValues hfields ht).2 v hmem
    exact ⟨r, hr, hbelow.trans hcovered.below⟩
  intro i hi
  obtain ⟨rows, rfl, hrows, -⟩ := Form.admits_record.1 hi
  refine Form.admits_map.2 ⟨rows, rfl, fun row hrow => ?_⟩
  obtain ⟨s, hs, hadmits⟩ := hrows row hrow
  have hs := Table.mem_values_of_mem (Table.mem_of_find? hs)
  cases h with
  | values h =>
    obtain ⟨v, hv, hbelow⟩ := hvalues _ h s hs
    cases hv
    exact ⟨_, rfl, Schema.below_orNullable _ _ _ (hbelow _ hadmits)⟩
  | null h =>
    obtain ⟨v, hv, -⟩ := hvalues _ h s hs
    cases hv
  | empty h =>
    obtain ⟨v, hv, -⟩ := hvalues _ h s hs
    cases hv

theorem AsMap.below {fields kept : Table Schema} {mapping : Option Mapping} {m : Mapping}
    (h : AsMap Covers fields mapping kept m) (hr : (Form.record fields mapping).Everywhere Form.Proper) :
    (Form.record fields mapping).Below (.record kept (some m)) := by
  cases h with
  | map => exact fun _ hi => hi
  | record hvalue => exact hvalue.below (Form.everywhere_record.1 hr).2.1

theorem Slot.covers {dst src r : Option Schema} (h : Slot Covers dst src r) (hd : ∀ d ∈ dst, d.Proper)
    (hs : ∀ s ∈ src, s.Proper) :
    (∀ d ∈ dst, ∃ t ∈ r, d.Below t) ∧ ∀ s ∈ src, ∃ t ∈ r, s.Below t := by
  cases h with
  | both h =>
    obtain ⟨-, hdr, hsr⟩ := h (hd _ rfl) (hs _ rfl)
    constructor
    · rintro _ ⟨⟩
      exact ⟨_, rfl, hdr.below⟩
    · rintro _ ⟨⟩
      exact ⟨_, rfl, hsr.below⟩
  | adopted => exact ⟨nofun, fun s hs => ⟨s, hs, .refl s⟩⟩
  | kept => exact ⟨fun d hd => ⟨d, hd, .refl d⟩, nofun⟩

theorem Field.covers {src : Table Schema} {name : String} {d r : Schema} (h : Field Covers src name d r)
    (hd : d.Proper) (hs : ∀ t ∈ Table.values src, t.Proper) :
    d.CoveredBy r ∧ (∀ s, Table.find? src name = some s → s.CoveredBy r) ∧
      (Table.find? src name = none → r.isOptional = true) := by
  cases h with
  | shared hfind h =>
    obtain ⟨-, hdr, hsr⟩ := h hd (hs _ (Table.mem_values_of_mem (Table.mem_of_find? hfind)))
    refine ⟨hdr, fun s hs => ?_, fun hnone => ?_⟩
    · rw [hfind] at hs
      cases hs
      exact hsr
    · rw [hfind] at hnone
      cases hnone
  | missing hfind =>
    refine ⟨d.coveredBy_makeOptional, fun s hs => ?_, fun _ => d.isOptional_makeOptional⟩
    rw [hfind] at hs
    cases hs

/-- The fields of both records together describe what each of the records does. -/
theorem Fields.covers {df sf shared : Table Schema} (h : Fields Covers sf df shared)
    (hd : (Form.record df none).Everywhere Form.Proper) (hs : (Form.record sf none).Everywhere Form.Proper) :
    (Form.record df none).Below (.record (addMissing shared sf) none) ∧
      (Form.record sf none).Below (.record (addMissing shared sf) none) := by
  obtain ⟨-, hdf, -⟩ := Form.everywhere_record.1 hd
  obtain ⟨⟨-, hsorted, -⟩, hsf, -⟩ := Form.everywhere_record.1 hs
  constructor
  · intro i hi
    obtain ⟨rows, rfl, hrows, homitted⟩ := Form.admits_record.1 hi
    refine Form.admits_record.2 ⟨rows, rfl, fun row hrow => ?_, fun field hfield hne => ?_⟩
    · obtain ⟨d, hfind, hadmits⟩ := hrows row hrow
      obtain ⟨r, hr, hfield⟩ := h.find?_eq_some hfind
      obtain ⟨hdr, -⟩ := hfield.covers (hdf d (Table.mem_values_of_mem (Table.mem_of_find? hfind))) hsf
      exact ⟨r, by rw [find?_addMissing hsorted, hr]; rfl, hdr.below _ hadmits⟩
    · -- a field that the instance omits was optional before, or is new and optional
      rcases of_mem_addMissing hfield with hmem | ⟨s, -, -, heq⟩
      · obtain ⟨d, hd, hfield⟩ := h.of_mem hmem
        obtain ⟨hdr, -⟩ := hfield.covers (hdf d (Table.mem_values_of_mem hd)) hsf
        exact hdr.isOptional (homitted (field.1, d) hd hne)
      · rw [heq]
        exact s.isOptional_makeOptional
  · intro i hi
    obtain ⟨rows, rfl, hrows, homitted⟩ := Form.admits_record.1 hi
    refine Form.admits_record.2 ⟨rows, rfl, fun row hrow => ?_, fun field hfield hne => ?_⟩
    · obtain ⟨s, hfind, hadmits⟩ := hrows row hrow
      rw [find?_addMissing hsorted]
      cases hdfind : Table.find? df row.1 with
      | none =>
        rw [h.find?_eq_none hdfind, hfind]
        exact ⟨_, rfl, s.below_makeOptional _ hadmits⟩
      | some d =>
        obtain ⟨r, hr, hfield⟩ := h.find?_eq_some hdfind
        obtain ⟨-, hsr, -⟩ := hfield.covers (hdf d (Table.mem_values_of_mem (Table.mem_of_find? hdfind))) hsf
        exact ⟨r, by rw [hr]; rfl, (hsr s hfind).below _ hadmits⟩
    · rcases of_mem_addMissing hfield with hmem | ⟨s, -, -, heq⟩
      · obtain ⟨d, hd, hfield'⟩ := h.of_mem hmem
        obtain ⟨-, hsr, hmissing⟩ := hfield'.covers (hdf d (Table.mem_values_of_mem hd)) hsf
        cases hfind : Table.find? sf field.1 with
        | none => exact hmissing hfind
        | some s => exact (hsr s hfind).isOptional (homitted (field.1, s) (Table.mem_of_find? hfind) hne)
      · rw [heq]
        exact s.isOptional_makeOptional

/-- A map describes the records it was made of, and fields that are left out by one side are optional. -/
theorem RecordStep.below {df sf : Table Schema} {dm sm : Option Mapping} {form : Form}
    (h : RecordStep Covers limits df dm sf sm form) (hd : (Form.record df dm).Everywhere Form.Proper)
    (hs : (Form.record sf sm).Everywhere Form.Proper) :
    (Form.record df dm).Below form ∧ (Form.record sf sm).Below form := by
  have hkeeps : ∀ d s r, Covers d s r → Keeps Form.Proper d s r := fun _ _ _ => Covers.keeps
  cases h with
  | maps _ hdm hsm _ hvalue =>
    have hdslots := (Form.everywhere_record.1 ((hdm.mono hkeeps).everywhere (stable_proper limits).toClosed hd)).2.2 _ rfl
    have hsslots := (Form.everywhere_record.1 ((hsm.mono hkeeps).everywhere (stable_proper limits).toClosed hs)).2.2 _ rfl
    obtain ⟨hdvalue, hsvalue⟩ := hvalue.covers (fun d hd => hdslots d (Mapping.mem_slots.2 (.inr hd)))
      (fun s hs => hsslots s (Mapping.mem_slots.2 (.inr hs)))
    exact ⟨fun i hi => Form.below_map hdvalue i (hdm.below hd i hi),
      fun i hi => Form.below_map hsvalue i (hsm.below hs i hi)⟩
  | fields hdm hsm hfields _ =>
    subst hdm hsm
    exact hfields.covers hd hs
  | grown hdm hsm hfields _ hvalue =>
    subst hdm hsm
    obtain ⟨hdbelow, hsbelow⟩ := hfields.covers hd hs
    obtain ⟨-, hdf, -⟩ := Form.everywhere_record.1 hd
    obtain ⟨-, hsf, -⟩ := Form.everywhere_record.1 hs
    have hshared := (hfields.mono hkeeps).everywhere (stable_proper limits).toClosed hdf hsf
    have hmap : (Form.record (addMissing _ _) none).Below (.record [] (some ⟨some (Schema.ofType .string), _⟩)) :=
      hvalue.below ((stable_proper limits).addMissing hshared hsf)
    exact ⟨fun i hi => hmap i (hdbelow i hi), fun i hi => hmap i (hsbelow i hi)⟩

/-! ## Lists and primitives -/

theorem Form.below_list {elems elems' : List Schema} (h : ∀ s ∈ elems, ∃ t ∈ elems', s.CoveredBy t) :
    (Form.list elems).Below (.list elems') := by
  intro i hi
  obtain ⟨items, rfl, hitems⟩ := Form.admits_list.1 hi
  refine Form.admits_list.2 ⟨items, rfl, fun j hj => ?_⟩
  obtain ⟨s, hs, hadmits⟩ := hitems j hj
  obtain ⟨t, ht, hcovered⟩ := h s hs
  exact ⟨t, ht, hcovered.below j hadmits⟩

theorem Form.below_primitive {p q : Primitive}
    (h : ∀ base kind formats, p.Admits base kind formats → q.Admits base kind formats) :
    (Form.primitive p).Below (.primitive q) := by
  intro i hi
  cases i <;> first | exact h _ _ _ hi | exact hi.elim

/-! ## Alternatives -/

theorem Catalogue.exists_covers_insert {c : Catalogue} (hc : c.Fresh)
    (hcanon : ∀ t ∈ Table.values c, t.address = s.address → t.canon = s.canon) :
    ∃ t ∈ Table.values (Catalogue.insert c s), s.Below t := by
  rcases Catalogue.mem_values_insert_self (c := c) (s := s) with h | ⟨stored, hstored, h⟩
  · exact ⟨s, h, .refl s⟩
  · have hrow := Table.mem_of_find? hstored
    have heq := hcanon stored (Table.mem_values_of_mem hrow) (hc.2 _ hrow).symm
    exact ⟨_, h, (Schema.below_of_canon heq.symm).trans (stored.below_mergeExamples _)⟩

theorem Catalogue.exists_covers_of_mem {c : Catalogue} (h : t ∈ Table.values c) (s : Schema) :
    ∃ t' ∈ Table.values (Catalogue.insert c s), t.Below t' := by
  rcases Catalogue.mem_values_insert_of_mem (s := s) h with h | h
  · exact ⟨t, h, .refl t⟩
  · exact ⟨_, h, t.below_mergeExamples _⟩

/-- Each side is one of the options, or has the canonical object of the one that is stored. -/
theorem Schema.conflict_covers {d s : Schema} (hd : d.isPlain = true) (hs : s.isPlain = true)
    (hcanon : d.bare.address = s.bare.address → d.bare.canon = s.bare.canon) :
    d.CoveredBy (d.conflict s) ∧ s.CoveredBy (d.conflict s) := by
  have hfirst : Table.values (Catalogue.insert [] d.bare) = [d.bare] := rfl
  have hoptions : ∀ u : Schema, (∃ t ∈ Table.values (Catalogue.insert (Catalogue.insert [] d.bare) s.bare),
      u.bare.Below t) → ∀ i, u.form.Admits i → (d.conflict s).Admits i := by
    rintro u ⟨t, ht, hbelow⟩ i hi
    refine Schema.admits_iff.2 (.inr ?_)
    rw [Schema.form_conflict]
    exact Form.admits_oneOf.2 ⟨t, ht, hbelow i (Schema.admits_iff.2 (.inr hi))⟩
  refine ⟨⟨?_, fun h => ?_⟩, ⟨?_, fun h => ?_⟩⟩
  · refine Schema.below_of_form_admits (fun h => ?_) (hoptions d (Catalogue.exists_covers_of_mem ?_ _))
    · show (d.nullable || s.nullable) = true
      rw [h, Bool.true_or]
    · rw [hfirst]
      exact List.mem_cons_self
  · rw [Schema.isOptional_of_isPlain hd] at h
    cases h
  · refine Schema.below_of_form_admits (fun h => ?_)
      (hoptions s (Catalogue.exists_covers_insert (Catalogue.Fresh.nil.insert _) fun t ht haddress => ?_))
    · show (d.nullable || s.nullable) = true
      rw [h, Bool.or_true]
    · rw [hfirst, List.mem_singleton] at ht
      subst ht
      exact hcanon haddress
  · rw [Schema.isOptional_of_isPlain hs] at h
    cases h

/-- Every option taken in is described by what took it in; the others are left. -/
theorem Gathers.covers {acc : Schema} {options rest : Catalogue} {conflict : Bool}
    (h : Gathers Covers acc options r rest) (hacc : acc.Proper)
    (hoptions : (Form.oneOf options conflict).Everywhere Form.Proper) :
    r.Proper ∧ acc.CoveredBy r ∧ ∀ o ∈ Table.values options, o ∈ Table.values rest ∨ o.CoveredBy r := by
  induction h with
  | done => exact ⟨hacc, .refl _, fun o ho => .inl ho⟩
  | round _ hfolds _ ih =>
    obtain ⟨hmid, haccMid, htaken⟩ := hfolds.covers hacc hoptions.taken
    obtain ⟨hr, hmidR, hrest⟩ := ih hmid ((stable_proper {}).left _ hoptions)
    refine ⟨hr, haccMid.trans hmidR, fun o ho => ?_⟩
    cases hjoin : Schema.joinable o _ with
    | true => exact .inr ((htaken o (Catalogue.mem_taken.2 ⟨ho, hjoin⟩)).trans hmidR)
    | false => exact hrest o (Catalogue.mem_values_left.2 ⟨ho, hjoin⟩)

/-- The variant and the options that were taken in are described by what the variant has become. -/
theorem Joins.covers {options rest : Catalogue} {variant : Schema} {conflict : Bool}
    (h : Joins Covers options variant r rest) (hv : variant.Proper)
    (hoptions : (Form.oneOf options conflict).Everywhere Form.Proper) :
    variant.CoveredBy r ∧ ∀ o ∈ Table.values options, o ∈ Table.values rest ∨ o.CoveredBy r := by
  have hsame : ∀ p : Schema → Bool, Collects Covers ((Catalogue.take p options).1 ++ [variant]) (some r) →
      variant.CoveredBy r ∧
        ∀ o ∈ Table.values options, o ∈ Table.values (Catalogue.take p options).2 ∨ o.CoveredBy r := by
    intro p hcollects
    obtain ⟨-, hmembers⟩ := hcollects.covers fun t ht => by
      rcases List.mem_append.1 ht with ht | ht
      · exact hoptions.taken t ht
      · rwa [List.mem_singleton.1 ht]
    have hmember : ∀ s ∈ (Catalogue.take p options).1 ++ [variant], s.CoveredBy r := by
      intro s hs
      obtain ⟨_, ⟨⟩, hcovered⟩ := hmembers s hs
      exact hcovered
    refine ⟨hmember variant (List.mem_append_right _ List.mem_cons_self), fun o ho => ?_⟩
    cases hp : p o with
    | true => exact .inr (hmember o (List.mem_append_left _ (Catalogue.mem_taken.2 ⟨ho, hp⟩)))
    | false => exact .inl (Catalogue.mem_values_left.2 ⟨ho, hp⟩)
  cases h with
  | record _ h => exact hsame _ h
  | list _ h => exact hsame _ h
  | primitive _ h =>
    obtain ⟨-, hvariant, hothers⟩ := h.covers hv hoptions
    exact ⟨hvariant, hothers⟩

/-- A single option that takes the place of the alternatives describes what they did. -/
theorem Schema.form_admits_withOptions {dst : Schema} {options : Catalogue} {conflict : Bool}
    (ht : t ∈ Table.values options) {i : Instance} (hi : t.Admits i) :
    (dst.withOptions options conflict).Admits i := by
  unfold Schema.withOptions
  split
  · rename_i key sole
    have ht : t = sole := by simpa [Table.values] using ht
    subst ht
    rcases Schema.admits_iff.1 hi with ⟨hnull, rfl⟩ | hi
    · refine Schema.admits_iff.2 (.inl ⟨?_, rfl⟩)
      show (dst.nullable || t.nullable) = true
      rw [hnull, Bool.or_true]
    · exact Schema.admits_iff.2 (.inr hi)
  · exact Schema.admits_iff.2 (.inr (Form.admits_oneOf.2 ⟨t, ht, hi⟩))

theorem Schema.nullable_withOptions {dst : Schema} {options : Catalogue} {conflict : Bool}
    (h : dst.nullable = true) : (dst.withOptions options conflict).nullable = true := by
  unfold Schema.withOptions
  split
  · rename_i key sole
    show (dst.nullable || sole.nullable) = true
    rw [h, Bool.true_or]
  · exact h

/-! ## Steps -/

variable {absorb : Absorber} {dst src : Schema}

/-- What describes the shape of a node, and null if the node is nullable, describes the node. -/
theorem Schema.CoveredBy.of_bare (hnull : src.nullable = true → r.Admits .null)
    (hsrc : src.bare.CoveredBy r) : src.CoveredBy r :=
  ⟨Schema.below_iff.2 ⟨hnull, hsrc.below⟩, hsrc.isOptional⟩

theorem Schema.CoveredBy.admits_null (h : s.CoveredBy r) (hnull : s.nullable = true) : r.Admits .null :=
  h.below _ (Schema.admits_iff.2 (.inl ⟨hnull, rfl⟩))

theorem Schema.nullable_orNullable_of_right {b : Bool} (h : b = true) : (s.orNullable b).nullable = true := by
  rw [Schema.nullable_orNullable, h, Bool.or_true]

theorem Schema.nullable_orNullable_of_left {b : Bool} (h : s.nullable = true) : (s.orNullable b).nullable = true := by
  rw [Schema.nullable_orNullable, h, Bool.true_or]

theorem Schema.coveredBy_mergeExamples (s : Schema) (e : Examples) : s.CoveredBy (s.mergeExamples e) :=
  ⟨s.below_mergeExamples e, id⟩

theorem Schema.coveredBy_orNullable (s : Schema) (b : Bool) : s.CoveredBy (s.orNullable b) :=
  ⟨s.below_orNullable b, id⟩

/-- The absorber gives this result, and it covers both trees. -/
def YieldsCover (absorb : Absorber) (d s r : Schema) : Prop := absorb d s = .ok r ∧ Covers d s r

theorem Schema.coveredBy_of_form {form : Form} {nullable : Bool} {metadata : Option Metadata} {e : Examples}
    (hs : s.isOptional = false) (hnull : s.nullable = true → nullable = true) (hform : s.form.Below form) :
    s.CoveredBy ⟨form, nullable, metadata, e⟩ := by
  refine ⟨Schema.below_of_form_admits hnull fun i hi => Schema.admits_iff.2 (.inr (hform i hi)), fun h => ?_⟩
  rw [hs] at h
  cases h

/-- The options after one more variant describe what the options and the variant did. -/
theorem Joins.covers_withOptions {options rest : Catalogue} {conflict : Bool} {merged : Schema}
    (h : Joins (YieldsCover absorb) options src.bare merged rest) (hs : src.isPlain = true)
    (hdf : dst.form = .oneOf options conflict) (hd : dst.Proper) (hsrc : src.Proper)
    (hcanon : ∀ a b, Compares absorb dst src a b → a.address = b.address → a.canon = b.canon) :
    dst.CoveredBy ((dst.orNullable src.nullable).withOptions (Catalogue.insert rest merged) conflict) ∧
      src.CoveredBy ((dst.orNullable src.nullable).withOptions (Catalogue.insert rest merged) conflict) := by
  unfold Schema.Proper at hd
  rw [hdf] at hd
  have hkeeps : Joins (Keeps Form.Proper) options src.bare merged rest := h.mono fun _ _ _ h => h.2.keeps
  have hfresh := (hkeeps.everywhere (stable_proper {}).toClosed hsrc hd).2.root.2.2
  obtain ⟨hvariant, hothers⟩ := (h.mono fun _ _ _ h => h.2).covers hsrc hd
  -- what the variant became is among the options, or a stored option with its canonical object
  obtain ⟨t, ht, hmerged⟩ := Catalogue.exists_covers_insert hfresh fun t ht =>
    hcanon t merged (.option hs hdf (h.mono fun _ _ _ h => h.1) ht)
  have hadmits : ∀ u : Schema, u.Below merged → ∀ i, u.Admits i →
      ((dst.orNullable src.nullable).withOptions (Catalogue.insert rest merged) conflict).Admits i :=
    fun u hu i hi => Schema.form_admits_withOptions ht (hmerged i (hu i hi))
  have hnull : (dst.orNullable src.nullable).nullable = true →
      ((dst.orNullable src.nullable).withOptions (Catalogue.insert rest merged) conflict).nullable = true :=
    Schema.nullable_withOptions
  refine ⟨⟨Schema.below_of_form_admits (fun h => hnull ?_) fun i hi => ?_, fun h => ?_⟩,
    ⟨Schema.below_of_form_admits (fun h => hnull ?_) fun i hi => ?_, fun h => ?_⟩⟩
  · exact Schema.nullable_orNullable_of_left h
  · rw [hdf] at hi
    obtain ⟨o, ho, hi⟩ := Form.admits_oneOf.1 hi
    rcases hothers o ho with ho | ho
    · obtain ⟨t', ht', hbelow⟩ := Catalogue.exists_covers_of_mem ho merged
      exact Schema.form_admits_withOptions ht' (hbelow i hi)
    · exact hadmits o ho.below i hi
  · unfold Schema.isOptional at h
    rw [hdf] at h
    cases h
  · exact Schema.nullable_orNullable_of_right h
  · exact hadmits src.bare hvariant.below i (Schema.admits_iff.2 (.inr hi))
  · rw [Schema.isOptional_of_isPlain hs] at h
    cases h

/-- The optional layer of the destination stays around what its interior has become. -/
theorem Schema.below_inner (d r : Schema) :
    r.Below { d.orNullable r.nullable with form := .optional { r with nullable := false } } := by
  refine Schema.below_of_form_admits Schema.nullable_orNullable_of_right fun i hi => ?_
  · exact Schema.admits_iff.2 (.inr (Form.admits_optional.2 (Schema.admits_iff.2 (.inr hi))))

/-- A plain source that is not nullable by itself: each case describes both sides. -/
theorem PlainStep.covers (h : PlainStep (YieldsCover absorb) limits dst src r) (hs : src.isPlain = true)
    (hsnull : src.nullable = false) (hd : dst.Proper) (hsrc : src.Proper)
    (hcanon : ∀ a b, Compares absorb dst src a b → a.address = b.address → a.canon = b.canon) :
    dst.CoveredBy r ∧ src.CoveredBy r := by
  have hcovers : ∀ d s r, YieldsCover absorb d s r → Covers d s r := fun _ _ _ h => h.2
  have hsopt := Schema.isOptional_of_isPlain hs
  have hnull : ∀ {b : Bool}, src.nullable = true → b = true := fun h => by rw [hsnull] at h; cases h
  cases h with
  | record hdf hsf h =>
    unfold Schema.Proper at hd hsrc
    rw [hdf] at hd
    rw [hsf] at hsrc
    obtain ⟨hdbelow, hsbelow⟩ := RecordStep.below (h.mono hcovers) hd hsrc
    have hdopt : dst.isOptional = false := by
      unfold Schema.isOptional
      rw [hdf]
    exact ⟨Schema.coveredBy_of_form hdopt id (by rwa [hdf]), Schema.coveredBy_of_form hsopt hnull (by rwa [hsf])⟩
  | list hdf hsf h =>
    rename_i de se rep
    unfold Schema.Proper at hd hsrc
    rw [hdf] at hd
    rw [hsf] at hsrc
    obtain ⟨-, hmembers⟩ := (h.mono hcovers).covers fun t ht => (List.mem_append.1 ht).elim
      (fun ht => (Form.everywhere_list.1 hd).2 t ht) (fun ht => (Form.everywhere_list.1 hsrc).2 t ht)
    have hmembers : ∀ s ∈ de ++ se, ∃ r ∈ rep.toList, s.CoveredBy r := fun s hs => by
      obtain ⟨r, hr, hcovered⟩ := hmembers s hs
      exact ⟨r, Option.mem_toList.2 hr, hcovered⟩
    have hdopt : dst.isOptional = false := by
      unfold Schema.isOptional
      rw [hdf]
    refine ⟨Schema.coveredBy_of_form hdopt id ?_, Schema.coveredBy_of_form hsopt hnull ?_⟩
    · rw [hdf]
      exact Form.below_list fun s hs => hmembers s (List.mem_append_left _ hs)
    · rw [hsf]
      exact Form.below_list fun s hs => hmembers s (List.mem_append_right _ hs)
  | primitive hdf hsf hj =>
    have hdopt : dst.isOptional = false := by
      unfold Schema.isOptional
      rw [hdf]
    refine ⟨Schema.coveredBy_of_form hdopt id ?_, Schema.coveredBy_of_form hsopt hnull ?_⟩
    · rw [hdf]
      exact Form.below_primitive fun _ _ _ h => h.of_covers (Primitive.covers_of_join hj).1
    · rw [hsf]
      exact Form.below_primitive fun _ _ _ h => h.of_covers (Primitive.covers_of_join hj).2
  | conflict hdplain hagrees =>
    exact Schema.conflict_covers hdplain hs (hcanon _ _ (.conflict hdplain hs hagrees))
  | inner hdf _ h =>
    rename_i inner r _
    unfold Schema.Proper at hd
    rw [hdf] at hd
    obtain ⟨-, hinner, hsr⟩ := h.2 (Form.everywhere_optional.1 hd).2 hsrc
    have hresult := Schema.below_inner dst r
    refine ⟨⟨Schema.below_of_form_admits Schema.nullable_orNullable_of_left fun i hi => ?_, fun _ => rfl⟩,
      ⟨hsr.below.trans hresult, fun _ => rfl⟩⟩
    rw [hdf] at hi
    exact hresult i (hinner.below i (Form.admits_optional.1 hi))
  | absent hdf => exact absurd hdf hd.root.1
  | option hdf h => exact h.covers_withOptions hs hdf hd hsrc hcanon

/-- A step whose calls describe both trees describes both trees, with the null of a nullable source. -/
theorem Step.covers (h : Step (YieldsCover absorb) limits dst src r) (hd : dst.Proper) (hsrc : src.Proper)
    (hcanon : ∀ a b, Compares absorb dst src a b → a.address = b.address → a.canon = b.canon) :
    dst.CoveredBy r ∧ src.CoveredBy r := by
  induction h with
  | optional hsf _ ih =>
    unfold Schema.Proper at hsrc
    rw [hsf] at hsrc
    obtain ⟨hdr, hinner⟩ := ih hd (Form.everywhere_optional.1 hsrc).2 fun a b hab => hcanon a b (.optional hsf hab)
    rename_i dst src inner r _
    have hresult : r.CoveredBy (r.makeOptional.mergeExamples src.examples) :=
      r.coveredBy_makeOptional.trans (Schema.coveredBy_mergeExamples _ _)
    have hdr := hdr.trans hresult
    refine ⟨(Schema.coveredBy_orNullable _ _).trans hdr, .of_bare (fun hnull => ?_) ⟨fun i hi => ?_, fun _ => ?_⟩⟩
    · -- null is admitted because the destination was made nullable first
      exact hdr.admits_null (Schema.nullable_orNullable_of_right hnull)
    · rw [Schema.admits_iff, Schema.form_bare, hsf, Form.admits_optional] at hi
      exact (hinner.trans hresult).below i (hi.resolve_left fun hi => by cases hi.1)
    · exact r.isOptional_makeOptional
  | absent hsf => exact absurd hsf hsrc.root.1
  | swap hsf hdf h =>
    unfold Schema.Proper at hsrc
    rw [hsf] at hsrc
    obtain ⟨-, hfirst, hdr⟩ := h.2 hsrc hd
    refine ⟨.of_bare (fun hnull => hfirst.admits_null (Schema.nullable_orNullable_of_left hnull)) hdr,
      .of_bare (fun hnull => hfirst.admits_null (Schema.nullable_orNullable_of_right hnull)) ⟨fun i hi => ?_, fun h => ?_⟩⟩
    · rw [Schema.admits_iff, Schema.form_bare, hsf] at hi
      exact hfirst.below i (Schema.admits_iff.2 (.inr (hi.resolve_left fun hi => by cases hi.1)))
    · unfold Schema.isOptional at h
      rw [Schema.form_bare, hsf] at h
      cases h
  | alternatives hsf hdf _ h =>
    unfold Schema.Proper at hd hsrc
    rw [hsf] at hsrc
    rw [hdf] at hd
    obtain ⟨hroot, hoptions⟩ := Form.everywhere_oneOf.1 hd
    obtain ⟨-, hfirst, hothers⟩ := (h.mono fun _ _ _ h => h.2).covers
      (Form.everywhere_oneOf.2 ⟨(stable_proper limits).flag hroot, hoptions⟩) (Form.everywhere_oneOf.1 hsrc).2
    refine ⟨.of_bare (fun hnull => hfirst.admits_null (Schema.nullable_orNullable_of_left hnull)) ⟨fun i hi => ?_, fun h => ?_⟩,
      .of_bare (fun hnull => hfirst.admits_null (Schema.nullable_orNullable_of_right hnull)) ⟨fun i hi => ?_, fun h => ?_⟩⟩
    · rw [Schema.admits_iff, Schema.form_bare, hdf] at hi
      have hi := hi.resolve_left fun hi => by cases hi.1
      exact hfirst.below i (Schema.admits_iff.2 (.inr (Form.admits_oneOf.2 (Form.admits_oneOf.1 hi))))
    · unfold Schema.isOptional at h
      rw [Schema.form_bare, hdf] at h
      cases h
    · rw [Schema.admits_iff, Schema.form_bare, hsf] at hi
      obtain ⟨o, ho, hi⟩ := Form.admits_oneOf.1 (hi.resolve_left fun hi => by cases hi.1)
      exact (hothers o ho).below i hi
    · unfold Schema.isOptional at h
      rw [Schema.form_bare, hsf] at h
      cases h
  | plain hs h =>
    obtain ⟨hdr, hsr⟩ := h.covers hs rfl hd hsrc fun a b hab => hcanon a b (hab.of_bare hs)
    exact ⟨(Schema.coveredBy_orNullable _ _).trans hdr,
      .of_bare (fun hnull => hdr.admits_null (Schema.nullable_orNullable_of_right hnull)) hsr⟩

end

/-! ## Runs -/

/-- A run without a collision describes all that both trees do. -/
theorem absorbWithin_covers {limits : Limits} {depth : Nat} {dst src r : Schema}
    (h : absorbWithin limits depth dst src = .ok r) (hfree : CollisionFree limits depth dst src) :
    Covers dst src r := by
  induction depth generalizing dst src r with
  | zero => cases h
  | succ depth ih =>
    have hstep : Step (YieldsCover (absorbWithin limits depth)) limits dst src r :=
      step_of_ok src h fun d s r hc hr => ⟨hr, ih hr (hfree.call hc)⟩
    intro hd hs
    exact ⟨(stable_proper limits).absorbWithin h hd hs, hstep.covers hd hs fun a b hab => hfree.canon_eq hab⟩

theorem Schema.proper_of {s : Schema} (hpresent : s.Present) (hordered : s.Ordered) (hkeyed : s.Keyed) : s.Proper :=
  Schema.throughout_iff_everywhere.1 (hpresent.and (hordered.and hkeyed))

/--
Soundness of generalization: an instance that one of two trees of observations admits is admitted by
the tree that absorbing one into the other gives, unless two nodes of different shape whose addresses
were compared on the way have the same address.
-/
theorem admits_of_absorb {limits : Limits} {dst src r : Schema} (h : absorb limits dst src = .ok r)
    (hdp : dst.Present) (hsp : src.Present) (hdo : dst.Ordered) (hso : src.Ordered)
    (hdk : dst.Keyed) (hsk : src.Keyed) (hfree : CollisionFree limits (depthBound dst src) dst src)
    {i : Instance} (hi : dst.Admits i ∨ src.Admits i) : r.Admits i := by
  obtain ⟨-, hd, hs⟩ := absorbWithin_covers h hfree (Schema.proper_of hdp hdo hdk) (Schema.proper_of hsp hso hsk)
  rcases hi with hi | hi
  · exact hd.below i hi
  · exact hs.below i hi

theorem address_int64_ne_string : (Schema.ofType .int64).address ≠ (Schema.ofType .string).address := by
  decide +kernel

/-- The run that keeps an integer and a text as alternatives compares their addresses only. -/
theorem collisionFree_int64_string (depth : Nat) :
    CollisionFree {} depth (Schema.ofType .int64) (Schema.ofType .string) := by
  intro a b hcompared haddress
  cases hcompared with
  | here h =>
    cases h with
    | optional hs => cases hs
    | conflict => exact absurd haddress address_int64_ne_string
    | option _ hd => cases hd
  | call h =>
    cases h with
    | optional hs => cases hs
    | swap hs => cases hs
    | alternatives hs => cases hs
    | plain _ h =>
      cases h with
      | record hd => cases hd
      | list hd => cases hd
      | inner hd => cases hd
      | option hd => cases hd

/-- A text is admitted after it was absorbed into an integer. -/
theorem admits_of_absorb_int64_string :
    absorb {} (Schema.ofType .int64) (Schema.ofType .string) =
        .ok ((Schema.ofType .int64).conflict (Schema.ofType .string)) ∧
      ((Schema.ofType .int64).conflict (Schema.ofType .string)).Admits (.primitive .string "" []) := by
  have hpresent : ∀ t : BaseType, (Schema.ofType t).Present := fun t => .intro nofun nofun
  have hordered : ∀ t : BaseType, (Schema.ofType t).Ordered := fun t => .of_primitive rfl trivial
  have hkeyed : ∀ t : BaseType, (Schema.ofType t).Keyed := fun t => .of_primitive rfl trivial
  have hrun : absorb {} (Schema.ofType .int64) (Schema.ofType .string) =
      .ok ((Schema.ofType .int64).conflict (Schema.ofType .string)) := rfl
  refine ⟨hrun, admits_of_absorb hrun (hpresent _) (hpresent _) (hordered _) (hordered _) (hkeyed _) (hkeyed _)
    (collisionFree_int64_string _) (.inr ?_)⟩
  exact Schema.admits_iff.2 (.inr ⟨rfl, fun h => absurd rfl h⟩)

end ApiShape
